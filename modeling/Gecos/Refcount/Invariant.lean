import Gecos.Refcount.Accounts
import Mathlib.Data.Fintype.Option

/-! The ledger of a state, and that every step of the updater and of a reader keeps it balanced. -/
namespace Gecos.ListRc
open Library Ledger
variable {β ρ : Type}

/-- The node that `safe_read` reads a field of is held meanwhile. -/
def holder : Link β → Multiset Addr
  | .head _ => 0
  | .next n => {n}

/-- The references of a reader outside `lfrc_refcnt_dec`. -/
def Searcher.extra : Searcher β → Multiset Addr
  | .load _ l | .loadRc _ l _ | .cas _ l _ _ | .undo _ l _ => holder l
  | .recheck _ l q => q ::ₘ holder l
  | .pass _ next _ => next.toList
  | .key _ cur | .keyAgain _ cur => {cur}
  | .idle | .release .. | .returned _ => 0

/-- `increment_if_not_zero` compares with a count that it found above zero. -/
def Searcher.Fact : Searcher β → Prop
  | .cas _ _ _ old => old ≠ 0
  | _ => True

/-- The references of the updater outside `lfrc_refcnt_dec`. -/
def extraOf : Writer β Later → Multiset Addr
  | .storeKey _ _ _ _ new | .storeNext _ _ _ _ new | .link _ _ _ _ new => {new}
  | .freeNodeLater _ n .loadNext | .freeNodeLater _ n (.inc _) => {n}
  | _ => 0

def freshOf : Writer β Later → Option Addr
  | .handOver _ _ _ _ new | .storeKey _ _ _ _ new | .storeNext _ _ _ _ new | .link _ _ _ _ new => some new
  | _ => none

def leavingOf : Writer β Later → Option Addr
  | .freeNodeLater _ n .loadNext | .freeNodeLater _ n (.inc _) => some n
  | _ => none

/-- What the locals of `free_node_later` say. -/
def LaterFact (m : Mem β) : Writer β Later → Prop
  | .freeNodeLater _ n (.inc s) => m.next n = some s
  | .freeNodeLater _ n (.dec d) => d.path.getLast? = some n
  | _ => True

/-- The ledger `l` is about the state `s`; the updater is thread `none`. -/
structure Rep (s : State β ρ) (l : Ledger (Option ρ) Addr) : Prop where
  fits : Fits l s.mem
  own : Holds l none (decOf (s.upd ())) (extraOf (s.upd ()))
  readers : ∀ r, Holds l (some r) (s.rd r).dec (s.rd r).extra
  fresh : ∀ n, l.home n = .fresh ↔ freshOf (s.upd ()) = some n
  leaving : ∀ n, l.home n = .leaving ↔ leavingOf (s.upd ()) = some n
  unlinked : ∀ n, s.unlinked n = true ↔ Out (l.home n)

variable [DecidableEq ρ] [Fintype ρ]

structure Inv (s : State β ρ) (l : Ledger (Option ρ) Addr) : Prop where
  writers : Writers s.mem s.upd
  balanced : l.Balanced none
  rep : Rep s l
  later : LaterFact s.mem (s.upd ())
  facts : ∀ r, (s.rd r).Fact

variable {s s' : State β ρ} {l l' : Ledger (Option ρ) Addr} {m m' : Mem β} {w : Writer β Later} {r : ρ}
  {x x' : Searcher β} {d : Dec} {d' : Option Dec} {n p : Addr} {un : Addr → Bool}

/-- Nothing is linked, counted or held at the start. -/
def start (ρ : Type) : Ledger (Option ρ) Addr := ⟨fun _ => 0, fun _ => none, fun _ => .free, [], fun _ => 0⟩

omit [DecidableEq ρ] in
theorem Inv.init : Inv (.init β ρ) (start ρ) where
  writers := .init
  balanced := by
    constructor <;> simp [start, pointers, total, Home.link, Home.Points]
  rep := by
    have hc (b : β) : (Mem.init β).chain b = [] := Mem.chain_eq rfl
    refine ⟨⟨rfl, rfl, ?_, ?_⟩, ⟨rfl, ?_, ?_, ?_⟩, fun r => ⟨rfl, ?_, ?_, ?_⟩, ?_, ?_, ?_⟩
    all_goals simp [start, State.init, Mem.init, decOf, Searcher.dec, freshOf, leavingOf, Out]
    exact fun n b => by simpa [Mem.init] using congrArg (n ∈ ·) (hc b)
  later := trivial
  facts _ := trivial

/-- A step of a reader. -/
theorem Inv.reader (hi : Inv s l) (hb : l'.Balanced none) (hf : Fits l' m') (hnext : m'.next = s.mem.next)
    (hw : Writers m' s.upd) (hh : Holds l' (some r) x'.dec x'.extra)
    (hother : ∀ u, u ≠ some r → ∀ d y, Holds l u d y → Holds l' u d y)
    (hfresh : ∀ n, l'.home n = .fresh ↔ l.home n = .fresh)
    (hleaving : ∀ n, l'.home n = .leaving ↔ l.home n = .leaving)
    (hun : ∀ n, un n = true ↔ Out (l'.home n)) (hx : x'.Fact) :
    Inv ⟨m', s.upd, Function.update s.rd r x', un⟩ l' := by
  refine ⟨hw, hb, ⟨hf, hother none nofun _ _ hi.rep.own, fun v => ?_, fun n => (hfresh n).trans (hi.rep.fresh n),
    fun n => (hleaving n).trans (hi.rep.leaving n), hun⟩, ?_, fun v => ?_⟩
  · by_cases hv : v = r
    · subst hv
      simpa using hh
    · simpa [Function.update_of_ne hv] using hother (some v) (by simpa using hv) _ _ (hi.rep.readers v)
  · have hl := hi.later
    cases hu : s.upd () with
    | freeNodeLater b n c => cases c <;> simp_all [LaterFact]
    | _ => trivial
  · by_cases hv : v = r
    · subst hv
      simpa using hx
    · simpa [Function.update_of_ne hv] using hi.facts v

omit [DecidableEq ρ] in
/-- A step of the updater. -/
theorem Inv.writer (hi : Inv s l) (hb : l'.Balanced none) (hf : Fits l' m')
    (hw : Writers m' (Function.update s.upd () w)) (hh : Holds l' none (decOf w) (extraOf w))
    (hother : ∀ u, u ≠ none → ∀ d y, Holds l u d y → Holds l' u d y)
    (hfresh : ∀ n, l'.home n = .fresh ↔ freshOf w = some n)
    (hleaving : ∀ n, l'.home n = .leaving ↔ leavingOf w = some n)
    (hun : ∀ n, un n = true ↔ Out (l'.home n)) (hl : LaterFact m' w) :
    Inv ⟨m', Function.update s.upd () w, s.rd, un⟩ l' :=
  ⟨hw, hb, ⟨hf, hh, fun r => hother (some r) nofun _ _ (hi.rep.readers r), hfresh, hleaving, hun⟩, hl, hi.facts⟩

/-- A step of a reader that changes nobody's references. -/
theorem Inv.readerStay (hi : Inv s l) (hd : (s.rd r).dec = none)
    (hh : Holds l (some r) none (s.rd r).extra → Holds l (some r) x'.dec x'.extra) (hx : x'.Fact) :
    Inv ⟨s.mem, s.upd, Function.update s.rd r x', s.unlinked⟩ l := by
  have hr := hi.rep.readers r
  rw [hd] at hr
  exact hi.reader hi.balanced hi.rep.fits rfl hi.writers (hh hr) (fun _ _ _ _ h => h) (fun _ => Iff.rfl)
    (fun _ => Iff.rfl) hi.rep.unlinked hx

omit [DecidableEq ρ] [Fintype ρ] in
/-- A call of `lfrc_refcnt_dec` for a node that is held. -/
theorem Holds.call {y : Multiset Addr} (h : Holds l (some r) none (p ::ₘ y)) :
    Holds l (some r) (some (.check [] p)) y :=
  ⟨by simpa [Dec.held] using h.held, h.dying, h.spent, h.nodup⟩

omit [DecidableEq ρ] [Fintype ρ] in
theorem Holds.got {k : Int} {lk : Link β} {q : Ptr} (h : Holds l (some r) none (q.toList + holder lk : Multiset Addr)) :
    Holds l (some r) (Searcher.got k lk q).dec (Searcher.got k lk q).extra := by
  cases lk with
  | head b =>
    cases q with
    | none => exact h
    | some q => exact h
  | next cur =>
    apply Holds.call
    rwa [← Multiset.singleton_add, add_comm]

omit [DecidableEq ρ] in
theorem Inv.inHand (hi : Inv s l) (hn : (s.upd ()).inHand = some n) (r : ρ) : l.home n ≠ .spent (some r) := by
  have hown := hi.rep.own
  have hlater := hi.later
  have hfresh := hi.rep.fresh n
  have hleaving := hi.rep.leaving n
  intro hsp
  rw [hsp] at hfresh hleaving
  cases hu : s.upd () with
  | ready | emptyTest | wlock | loadHead | loadKey | loadKeyAgain | advance | loadNext | unlink | initNewNode
  | wunlock | returned => simp [hu, Writer.inHand] at hn
  | handOver | storeKey | storeNext | link =>
    rw [hu] at hn hfresh
    cases hfresh.mpr hn
  | freeNodeLater b x c =>
    rw [hu] at hn hleaving hown hlater
    cases c with
    | loadNext | inc => cases hleaving.mpr hn
    | dec d =>
      obtain rfl : x = n := Option.some.inj hn
      have hmem := List.mem_of_getLast? hlater
      -- the updater holds the node, or has it in custody itself
      have hheld (hh : x ∈ l.held none) : False := by
        have := hi.balanced.pos_of_held hh
        have := hi.balanced.zero x (by rw [hsp]; trivial)
        omega
      have hspent (hh : x ∈ d.spent) : False := by
        have := (hown.spent x).mpr hh
        rw [hsp] at this
        cases this
      have hdying (hh : d.dying = some x) : False := by
        have := (hown.dying x).mpr hh
        rw [hsp] at this
        cases this
      have hkept := hown.held
      cases d <;> rcases List.mem_cons.mp hmem with rfl | hm
      case check.inl | xadd.inl => exact hheld (by simp [hkept, decOf, Dec.held])
      case gcLoad.inl | gcStore.inl | next.inl => exact hdying rfl
      case free.inl => exact hspent (by simp [Dec.spent])
      case free.inr => exact hspent (by simp [Dec.spent, hm])
      all_goals exact hspent hm

/-- `lfrc_refcnt_dec` writes counters, or frees a node. -/
theorem dec_mem (hs : d.step m = some (m', d')) : m'.key = m.key ∧ m'.next = m.next ∧ m'.heads = m.heads ∧
    m'.avail = (freeing (some d)).elim m.avail (Function.update m.avail · true) := by
  cases d with
  | check stack p =>
    simp only [Dec.step] at hs
    split at hs <;> cases hs
    exact ⟨rfl, rfl, rfl, rfl⟩
  | xadd | gcLoad | gcStore | next | free =>
    cases hs
    exact ⟨rfl, rfl, rfl, rfl⟩

omit [DecidableEq ρ] [Fintype ρ] in
/-- Counters are none of the updater's business. -/
theorem writers_counters (h : Writers m s.upd) (hk : m'.key = m.key) (hn : m'.next = m.next)
    (hh : m'.heads = m.heads) (hav : m'.avail = m.avail) : Writers m' s.upd := by
  have hstay := h.frame (u := ()) hk hn hh (fun n ha => .inl (by rwa [hav] at ha)) (fun b hb => .inl hb)
    (fun n hn => .inl hn) (h.facts ())
  rwa [Function.update_eq_self] at hstay

omit [DecidableEq ρ] [Fintype ρ] in
/-- A node that is freed is none of the unlinked ones any more. -/
theorem forget_out (hun : ∀ n, s.unlinked n = true ↔ Out (l.home n))
    (hout : ∀ n, Out (l'.home n) ↔ Out (l.home n) ∧ freeing (some d) ≠ some n) (n : Addr) :
    s.forget (some d) n = true ↔ Out (l'.home n) := by
  rw [hout n, ← hun n]
  unfold State.forget
  cases freeing (some d) with
  | none => simp
  | some p =>
    by_cases hp : n = p
    · simp [hp]
    · simp [Function.update_of_ne hp, Ne.symm hp]

/-- A step of a reader inside `lfrc_refcnt_dec`. -/
theorem Inv.readerDec {y : Multiset Addr} (hi : Inv s l) (hd : (s.rd r).dec = some d) (hy : (s.rd r).extra = y)
    (hs : d.step s.mem = some (m', d')) (hx : x'.dec = d' ∧ x'.extra = y) (hfact : x'.Fact) :
    ∃ l', Inv ⟨m', s.upd, Function.update s.rd r x', s.forget (some d)⟩ l' := by
  have hr := hi.rep.readers r
  rw [hd, hy] at hr
  obtain ⟨l', hstep⟩ := dec_step hi.balanced hi.rep.fits hr nofun hs
  obtain ⟨hk, hn, hh, hav⟩ := dec_mem hs
  refine ⟨l', hi.reader hstep.balanced hstep.fits hn ?_ (by rw [hx.1, hx.2]; exact hstep.holds) hstep.other hstep.fresh
    hstep.leaving (forget_out hi.rep.unlinked hstep.out) hfact⟩
  · cases hf : freeing (some d) with
    | none =>
      rw [hf] at hav
      exact writers_counters hi.writers hk hn hh hav
    | some p =>
      have hsp : l.home p = .spent (some r) := by
        rw [hr.spent]
        cases d <;> cases hf
        simp [Dec.spent]
      have hlinked (b : β) : p ∉ s.mem.chain b := fun hb => by
        have := (hi.rep.fits.linked p).mp ⟨b, hb⟩
        rw [hsp] at this
        cases this
      rw [hf] at hav
      have hre := hi.writers.reclaim hlinked fun u hu => hi.inHand hu r hsp
      exact writers_counters hre hk hn hh hav

omit [Fintype ρ] in
theorem Fits.acquire (hf : Fits l m) (t : Option ρ) (q : Addr) :
    Fits (l.acquire t q) { m with rc := Function.update m.rc q (m.rc q + 1) } := by
  refine ⟨?_, hf.next, hf.avail, hf.linked⟩
  change Function.update l.count q (l.count q + 1) = _
  rw [hf.count]

omit [Fintype ρ] in
theorem Holds.acquire {t : Option ρ} {d : Option Dec} {y : Multiset Addr} (h : Holds l t d y) (q : Addr) :
    Holds (l.acquire t q) t d (q ::ₘ y) := by
  refine ⟨?_, h.dying, h.spent, h.nodup⟩
  change Function.update l.held t (q ::ₘ l.held t) t = _
  rw [Function.update_self, h.held, Multiset.add_cons]

omit [Fintype ρ] in
theorem Holds.acquire_other {t u : Option ρ} {d : Option Dec} {y : Multiset Addr} (h : Holds l u d y) (hu : u ≠ t)
    (q : Addr) : Holds (l.acquire t q) u d y :=
  h.other (Function.update_of_ne hu _ _) (fun _ => Iff.rfl) fun _ => Iff.rfl

@[simp] theorem got_fact (k : Int) (lk : Link β) (q : Ptr) : (Searcher.got k lk q).Fact := by
  cases lk <;> cases q <;> trivial

theorem loop_refs (k : Int) (next : Ptr) :
    (Searcher.loop k next : Searcher β).dec = none ∧ (Searcher.loop k next : Searcher β).extra = next.toList := by
  cases next <;> exact ⟨rfl, rfl⟩

/-- The compare-and-swap of `increment_if_not_zero` succeeds. -/
theorem Inv.readerAcquire {k : Int} {lk : Link β} {q : Addr} (hi : Inv s l)
    (hr : s.rd r = .cas k lk q (s.mem.rc q)) :
    Inv ⟨{ s.mem with rc := Function.update s.mem.rc q (s.mem.rc q + 1) }, s.upd,
      Function.update s.rd r (.recheck k lk q), s.unlinked⟩ (l.acquire (some r) q) := by
  have hfact := hi.facts r
  have hh := hi.rep.readers r
  rw [hr] at hfact hh
  have hq : l.count q ≠ 0 := by rw [hi.rep.fits.count]; exact hfact
  exact hi.reader (hi.balanced.acquire _ (.inl hq)) (hi.rep.fits.acquire _ q) rfl
    (writers_counters hi.writers rfl rfl rfl rfl) (hh.acquire q) (fun u hu d y h => h.acquire_other hu q)
    (fun _ => Iff.rfl) (fun _ => Iff.rfl) hi.rep.unlinked trivial

/-- Every step of a reader. -/
theorem Inv.read (hi : Inv s l) (hx : (s.rd r).step s.mem = some (m', x')) :
    ∃ l', Inv ⟨m', s.upd, Function.update s.rd r x', s.forget (s.rd r).dec⟩ l' := by
  cases hr : s.rd r with
  | idle | returned => simp [hr, Searcher.step] at hx
  | load k lk =>
    rw [hr] at hx
    cases hx
    refine ⟨l, hi.readerStay (by rw [hr]; rfl) (fun h => ?_) ?_⟩
    · rw [hr] at h
      cases s.mem.load lk with
      | none => exact Holds.got (by simpa [Searcher.extra] using h)
      | some q => exact h
    · cases s.mem.load lk with
      | none => exact got_fact k lk none
      | some q => trivial
  | loadRc k lk q =>
    rw [hr] at hx
    cases hx
    refine ⟨l, hi.readerStay (by rw [hr]; rfl) (fun h => ?_) ?_⟩ <;> split
    · rwa [hr] at h
    · rwa [hr] at h
    · trivial
    · assumption
  | cas k lk q old =>
    rw [hr] at hx
    simp only [Searcher.step] at hx
    split at hx
    · rename_i he
      subst he
      cases hx
      exact ⟨_, hi.readerAcquire hr⟩
    · cases hx
      refine ⟨l, hi.readerStay (by rw [hr]; rfl) (fun h => ?_) trivial⟩
      rwa [hr] at h
  | recheck k lk q =>
    rw [hr] at hx
    cases hx
    refine ⟨l, hi.readerStay (by rw [hr]; rfl) (fun h => ?_) ?_⟩ <;> split
    · rw [hr] at h
      exact Holds.got (by simpa [Searcher.extra] using h)
    · rw [hr] at h
      exact h.call
    · exact got_fact k lk (some q)
    · trivial
  | undo k lk d =>
    rw [hr] at hx
    obtain ⟨⟨m₁, d'⟩, hd, he⟩ := Option.map_eq_some_iff.mp hx
    cases he
    apply hi.readerDec (by rw [hr]; rfl) (by rw [hr]) hd <;> cases d' <;> first | exact ⟨rfl, rfl⟩ | trivial
  | pass k next d =>
    rw [hr] at hx
    obtain ⟨⟨m₁, d'⟩, hd, he⟩ := Option.map_eq_some_iff.mp hx
    cases he
    apply hi.readerDec (by rw [hr]; rfl) (by rw [hr]) hd
    · cases d' with
      | none => exact loop_refs k next
      | some d' => exact ⟨rfl, rfl⟩
    · cases d' <;> cases next <;> trivial
  | key k cur =>
    rw [hr] at hx
    cases hx
    refine ⟨l, hi.readerStay (by rw [hr]; rfl) (fun h => ?_) ?_⟩ <;> split
    · rwa [hr] at h
    · rwa [hr] at h
    · trivial
    · trivial
  | keyAgain k cur =>
    rw [hr] at hx
    cases hx
    refine ⟨l, hi.readerStay (by rw [hr]; rfl) (fun h => ?_) trivial⟩
    rw [hr] at h
    exact h.call
  | release res d =>
    rw [hr] at hx
    obtain ⟨⟨m₁, d'⟩, hd, he⟩ := Option.map_eq_some_iff.mp hx
    cases he
    apply hi.readerDec (by rw [hr]; rfl) (by rw [hr]) hd <;> cases d' <;> first | exact ⟨rfl, rfl⟩ | trivial

end Gecos.ListRc
