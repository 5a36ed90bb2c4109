import Gecos.Refcount.Safety
import Gecos.Table.Frame
import Gecos.Library.Linearizability

/-! Linearizability of the search of list_rc.c, which validates nothing: what it holds a reference
to is not recycled, and nodes that were unlinked during the call lead it on. -/
namespace Gecos.ListRc
open Library Ledger
variable {β ρ : Type} [Fintype ρ] {s s' : State β ρ} {l l' : Ledger (Option ρ) Addr}

/-- What a step leaves alone. -/
abbrev Frame (s s' : State β ρ) : Prop := s.mem.Frame s'.mem (s.unlinked · = true) (s'.unlinked · = true)

omit [Fintype ρ] in
theorem forget_cases {d : Option Dec} {x : Addr} (hx : s.unlinked x = true) :
    s.forget d x = true ∨ freeing d = some x := by
  unfold State.forget
  cases freeing d with
  | none => exact .inl hx
  | some p =>
    by_cases hp : x = p
    · exact .inr (by rw [hp])
    · exact .inl (by simpa [Function.update_of_ne hp] using hx)

theorem searcher_mem {m m' : Mem β} {x x' : Searcher β} (hs : x.step m = some (m', x')) :
    m'.key = m.key ∧ m'.next = m.next ∧ m'.heads = m.heads := by
  cases x with
  | idle | returned => cases hs
  | load | loadRc | recheck | key | keyAgain =>
    cases hs
    exact ⟨rfl, rfl, rfl⟩
  | cas =>
    simp only [Searcher.step] at hs
    split at hs <;> cases hs <;> exact ⟨rfl, rfl, rfl⟩
  | undo k lk d | pass k next d | release res d =>
    obtain ⟨⟨m₁, d'⟩, hd, he⟩ := Option.map_eq_some_iff.mp hs
    cases he
    obtain ⟨hk, hn, hh, _⟩ := dec_mem hd
    exact ⟨hk, hn, hh⟩

variable [DecidableEq β]

/-- The updater writes to no node that is linked or was. -/
theorem Inv.hand_fresh {m' : Mem β} {w' : Writer β Later} {x : Addr} (hi : Inv s l)
    (hs : (s.upd ()).step .loadNext s.mem = some (m', w')) (hx : (s.upd ()).inHand = some x) : l.home x = .fresh := by
  rw [hi.rep.fresh]
  cases hu : s.upd () with
  | storeKey | storeNext | link =>
    rw [hu] at hx
    exact hx
  | handOver | freeNodeLater => simp [hu, Writer.step] at hs
  | _ => simp [hu, Writer.inHand] at hx

/-- An access of list_writer.c; the node that `delete` unlinks is recorded. -/
theorem Inv.frame_access {m' : Mem β} {w' : Writer β Later} {un : Addr → Bool} (hi : Inv s l)
    (hs : (s.upd ()).step .loadNext s.mem = some (m', w')) (hun : ∀ x, s.unlinked x = true → un x = true)
    (hrec : ∀ b x, w' = .freeNodeLater b x .loadNext → un x = true) :
    Frame s ⟨m', Function.update s.upd () w', s.rd, un⟩ := by
  refine hi.writers.frame_access hs (fun x hx hin => ?_) hun hrec
  have hout := (hi.rep.unlinked x).mp hx
  rw [hi.hand_fresh hs hin] at hout
  exact hout

theorem Inv.frame_update (hi : Inv s l) (hs : s.update = some s') : Frame s s' := by
  cases hu : s.upd () with
  | ready | initNewNode | returned => simp [State.update, hu, Writer.step] at hs
  | emptyTest | loadHead | loadKey | loadKeyAgain | advance | loadNext | storeKey | storeNext | link =>
    simp only [State.update, hu] at hs
    obtain ⟨⟨m', w⟩, hw, rfl⟩ := Option.map_eq_some_iff.mp hs
    refine hi.frame_access (by rw [hu]; exact hw) (fun _ hx => hx) fun b x he => ?_
    subst he
    obtain ⟨k, prev, nx, he⟩ := Writer.step_unlinks hw
    cases he
  | unlink k b prev cur nx =>
    simp only [State.update, hu] at hs
    obtain ⟨⟨m', w⟩, hw, rfl⟩ := Option.map_eq_some_iff.mp hs
    refine hi.frame_access (by rw [hu]; exact hw) (fun x hx => ?_) fun b x he => ?_
    · by_cases hc : x = cur
      · simp [hc]
      · simpa [Function.update_of_ne hc] using hx
    · cases hw
      cases he
      simp
  | wlock | wunlock | handOver =>
    simp only [State.update, hu] at hs
    cases hs
    exact .still rfl rfl rfl fun _ hx => .inl hx
  | freeNodeLater b n c =>
    have hav (x : Addr) := hi.update_avail (p := x) hs
    simp only [State.update, hu] at hs
    obtain ⟨⟨m', c'⟩, hc, rfl⟩ := Option.map_eq_some_iff.mp hs
    have hm : m'.key = s.mem.key ∧ m'.next = s.mem.next ∧ m'.heads = s.mem.heads := by
      cases c with
      | loadNext | inc =>
        cases hc
        exact ⟨rfl, rfl, rfl⟩
      | dec d =>
        obtain ⟨⟨m₁, d'⟩, hd, he⟩ := Option.map_eq_some_iff.mp hc
        cases he
        obtain ⟨hk, hn, hh, _⟩ := dec_mem hd
        exact ⟨hk, hn, hh⟩
    refine .still hm.1 hm.2.1 hm.2.2 fun x hx => (forget_cases hx).imp_right fun hf => ?_
    exact (hav x).mpr (.inl (by rw [hu]; exact hf))

variable [DecidableEq ρ]

theorem Inv.frame {a : Act β ρ} (hi : Inv s l) (hs : ListRc.step s a = some s') : Frame s s' := by
  cases a with
  | begin op k b =>
    obtain ⟨w, hw, rfl⟩ := Option.map_eq_some_iff.mp hs
    exact .still rfl rfl rfl fun _ hx => .inl hx
  | update => exact hi.frame_update hs
  | alloc n =>
    change s.alloc n = some s' at hs
    unfold State.alloc at hs
    split at hs
    case h_2 => contradiction
    split at hs <;> cases hs
    exact .still rfl rfl rfl fun _ hx => .inl hx
  | call r k b =>
    simp only [ListRc.step] at hs
    split at hs <;> cases hs <;> exact .still rfl rfl rfl fun _ hx => .inl hx
  | read r =>
    obtain ⟨⟨m', x'⟩, hx, rfl⟩ := Option.map_eq_some_iff.mp hs
    obtain ⟨hk, hn, hh⟩ := searcher_mem hx
    refine .still hk hn hh fun x hx' => (forget_cases hx').imp_right fun hf => ?_
    exact (searcher_avail hx).mpr (.inl hf)

/-- The table as a reader walks it. -/
abbrev view (β ρ : Type) : Traversal (State β ρ) β Addr Int := Mem.linkedWalk State.mem

/-- Unlinked, and still counted. -/
def Lingers (s : State β ρ) (n : Addr) : Prop := s.unlinked n = true ∧ s.mem.rc n ≠ 0

/-- What a reader inside `search(k, &heads[b], _)` knows at each of its accesses. -/
def Knows (hist : List (State β ρ)) (s : State β ρ) (L : Addr → Prop) (k : Int) (b : β) : Searcher β → Prop
  | .idle => False
  | .load k' lk | .loadRc k' lk _ | .cas k' lk _ _ | .recheck k' lk _ | .undo k' lk _ => k' = k ∧
    match lk with
    | .head b' => b' = b
    | .next n => (view β ρ).At hist s b k L n ∧ s.mem.key n < k
  | .pass k' next _ => k' = k ∧ (view β ρ).AtPtr hist s b k L next
  | .key k' cur => k' = k ∧ (view β ρ).At hist s b k L cur
  | .keyAgain k' cur => k' = k ∧ (view β ρ).At hist s b k L cur ∧ k ≤ s.mem.key cur
  | .release res _ | .returned res => ∃ m ∈ hist, (res = 1 ↔ m.mem.Member b k)

/-- The node that this knowledge is about. -/
def Searcher.on : Searcher β → Option Addr
  | .load _ lk | .loadRc _ lk _ | .cas _ lk _ _ | .recheck _ lk _ | .undo _ lk _ =>
    match lk with
    | .head _ => none
    | .next n => some n
  | .pass _ next _ => next
  | .key _ cur | .keyAgain _ cur => some cur
  | .idle | .release .. | .returned _ => none

section knows
variable {hist : List (State β ρ)} {L L' : Addr → Prop} {k : Int} {b : β} {x x' : Searcher β} {n q : Addr}

omit [DecidableEq β] [DecidableEq ρ] [Fintype ρ] in
/-- The reader holds a reference to it. -/
theorem on_extra (h : x.on = some n) : n ∈ x.extra := by
  cases x with
  | load k lk | loadRc k lk q | cas k lk q old | recheck k lk q | undo k lk d =>
    cases lk <;> cases h
    simp [Searcher.extra, holder]
  | pass k next d =>
    cases h
    simp [Searcher.extra]
  | key | keyAgain =>
    cases h
    simp [Searcher.extra]
  | idle | release | returned => cases h

omit [DecidableEq β] [DecidableEq ρ] in
theorem Inv.sound (hi : Inv s l) : (view β ρ).Sound s := Mem.linkedWalk_sound hi.writers.table

omit [DecidableEq β] [DecidableEq ρ] in
theorem Inv.unlinked_out (hi : Inv s l) (hx : s.unlinked n = true) (b : β) : n ∉ s.mem.chain b := by
  intro hm
  have hl := (hi.rep.fits.linked n).mp ⟨b, hm⟩
  have hout := (hi.rep.unlinked n).mp hx
  rw [hl] at hout
  exact hout

omit [DecidableEq β] [DecidableEq ρ] in
/-- What lingers keeps its successor counted. -/
theorem Inv.lingers_next (hi : Inv s l) (hx : Lingers s n) (hn : s.mem.next n = some q) : s.mem.rc q ≠ 0 := by
  have hout := (hi.rep.unlinked n).mp hx.1
  cases hh : l.home n with
  | free | linked | fresh =>
    rw [hh] at hout
    exact hout.elim
  | leaving =>
    have hl := hi.leaving_next hh hn
    have hc := hi.balanced.count q
    rw [hl, hi.rep.fits.count] at hc
    simp only [Home.link] at hc
    omega
  | limbo | dying =>
    have := hi.points_pos (by rw [hh]; trivial) hn
    omega
  | spent t => exact (hx.2 (hi.zero_count (by rw [hh]; trivial))).elim

omit [DecidableEq β] [DecidableEq ρ] in
/-- A node that is counted stays linked, or lingers. -/
theorem Inv.stays (hi : Inv s' l') (hf : Frame s s') (hL : ∀ x, L x → Lingers s x)
    (h : n ∈ s.mem.chain b ∨ L n) (hrc : s'.mem.rc n ≠ 0) :
    n ∈ s'.mem.chain b ∨ (n ∈ s.mem.chain b ∨ L n) ∧ Lingers s' n := by
  rcases h with h | h
  · exact (hf.linked b n h).imp_right fun hun => ⟨.inl h, hun, hrc⟩
  · rcases hf.out n (hL n h).1 with hun | hav
    · exact .inr ⟨.inr h, hun, hrc⟩
    · have := hi.zero_count (n := n) (by rw [(hi.rep.fits.avail n).mp hav]; trivial)
      exact (hrc this).elim

omit [DecidableEq β] [DecidableEq ρ] in
/-- The trail after a step. -/
theorem Inv.trail (hi : Inv s l) (hi' : Inv s' l') (hf : Frame s s') (hL : ∀ x, L x → Lingers s x)
    (ht : (view β ρ).Trail hist s b k L) (hm : s ∈ hist) :
    (view β ρ).Trail (hist ++ [s']) s' b k fun x => (x ∈ s.mem.chain b ∨ L x) ∧ Lingers s' x := by
  refine Mem.Frame.trail hf hi.sound hm ht (fun x hx => (hL x hx).1)
    (fun x hx => ⟨hx.1, hi'.unlinked_out hx.2.1⟩) fun x q hx hq hreach => ?_
  exact hi'.stays hf hL hreach (hi'.lingers_next hx.2 hq)

omit [DecidableEq β] [DecidableEq ρ] [Fintype ρ] in
theorem Knows.evolve (h : Knows hist s L k b x)
    (hkept : ∀ n, x.on = some n → n ∈ s.mem.chain b ∨ L n →
      (n ∈ s'.mem.chain b ∨ L' n) ∧ s'.mem.key n = s.mem.key n) : Knows (hist ++ [s']) s' L' k b x := by
  have hat (n : Addr) (hn : x.on = some n) (ha : (view β ρ).At hist s b k L n) : (view β ρ).At (hist ++ [s']) s' b k L' n :=
    ha.evolve (hkept n hn ha.1).1 (hkept n hn ha.1).2
  cases x with
  | idle => exact h
  | load k' lk | loadRc k' lk q | cas k' lk q old | recheck k' lk q | undo k' lk d =>
    obtain ⟨rfl, h⟩ := h
    cases lk with
    | head b' => exact ⟨rfl, h⟩
    | next n => exact ⟨rfl, hat n rfl h.1, by rw [(hkept n rfl h.1.1).2]; exact h.2⟩
  | pass k' next d =>
    obtain ⟨rfl, h⟩ := h
    refine ⟨rfl, ?_⟩
    cases next with
    | none =>
      obtain ⟨m, hm, h⟩ := h
      exact ⟨m, by simp [hm], h⟩
    | some n => exact hat n rfl h
  | key k' cur =>
    obtain ⟨rfl, h⟩ := h
    exact ⟨rfl, hat cur rfl h⟩
  | keyAgain k' cur =>
    obtain ⟨rfl, h, hk⟩ := h
    exact ⟨rfl, hat cur rfl h, by rw [(hkept cur rfl h.1).2]; exact hk⟩
  | release res d | returned res =>
    obtain ⟨m, hm, h⟩ := h
    exact ⟨m, by simp [hm], h⟩

omit [DecidableEq β] [DecidableEq ρ] [Fintype ρ] in
theorem knows_loop {p : Ptr} (h : (view β ρ).AtPtr hist s b k L p) : Knows hist s L k b (Searcher.loop k p) := by
  cases p with
  | none =>
    obtain ⟨m, hm, h⟩ := h
    exact ⟨m, hm, iff_of_false (by decide) h⟩
  | some n => exact ⟨rfl, h⟩

omit [DecidableEq β] [DecidableEq ρ] in
/-- `safe_read` returns what the link is. -/
theorem knows_got {lk : Link β} (hi : Inv s l) (hm : s ∈ hist) (ht : (view β ρ).Trail hist s b k L)
    (h : Knows hist s L k b (.load k lk)) : Knows hist s L k b (Searcher.got k lk (s.mem.load lk)) := by
  obtain ⟨_, h⟩ := h
  cases lk with
  | head b' =>
    obtain rfl : b' = b := h
    exact knows_loop (.first hi.sound hm rfl)
  | next n => exact ⟨rfl, h.1.advance ht hi.sound hm h.2 rfl⟩

omit [DecidableEq β] [DecidableEq ρ] in
/-- What a reader learns by an access of its own. -/
theorem Knows.read {m' : Mem β} (hi : Inv s l) (hm : s ∈ hist) (ht : (view β ρ).Trail hist s b k L)
    (h : Knows hist s L k b x) (hs : x.step s.mem = some (m', x')) : Knows hist s L k b x' := by
  cases x with
  | idle | returned => cases hs
  | load k' lk =>
    obtain rfl := h.1
    cases hs
    have hgot := knows_got hi hm ht h
    cases hl : s.mem.load lk with
    | none => rwa [hl] at hgot
    | some q => exact h
  | loadRc k' lk q =>
    cases hs
    split <;> exact h
  | cas k' lk q old =>
    simp only [Searcher.step] at hs
    split at hs <;> cases hs <;> exact h
  | recheck k' lk q =>
    obtain rfl := h.1
    cases hs
    have hgot := knows_got hi hm ht h
    split
    · rename_i hl
      rwa [hl] at hgot
    · exact h
  | undo k' lk d =>
    obtain ⟨⟨m₁, d'⟩, _, he⟩ := Option.map_eq_some_iff.mp hs
    cases he
    cases d' <;> exact h
  | pass k' next d =>
    obtain ⟨⟨m₁, d'⟩, _, he⟩ := Option.map_eq_some_iff.mp hs
    cases he
    obtain ⟨rfl, h⟩ := h
    cases d' with
    | none => exact knows_loop h
    | some d' => exact ⟨rfl, h⟩
  | key k' cur =>
    obtain ⟨rfl, h⟩ := h
    cases hs
    split
    · exact ⟨rfl, h, by assumption⟩
    · exact ⟨rfl, h, by omega⟩
  | keyAgain k' cur =>
    obtain ⟨rfl, h, hk⟩ := h
    cases hs
    obtain ⟨m, hm', hans⟩ := h.answer hk
    have hres : (if s.mem.key cur = k' then 1 else 0) = 1 ↔ s.mem.key cur = k' := by simp
    exact ⟨m, hm', hres.trans hans⟩
  | release res d =>
    obtain ⟨⟨m₁, d'⟩, _, he⟩ := Option.map_eq_some_iff.mp hs
    cases he
    cases d' <;> exact h

end knows

omit [DecidableEq ρ] [Fintype ρ] in
theorem update_rd (hs : s.update = some s') : s'.rd = s.rd := by
  unfold State.update at hs
  split at hs
  case h_1 | h_2 | h_3 =>
    cases hs
    rfl
  all_goals
    obtain ⟨_, _, rfl⟩ := Option.map_eq_some_iff.mp hs
    rfl

omit [DecidableEq β] [DecidableEq ρ] [Fintype ρ] in
theorem alloc_rd {n : Addr} (hs : s.alloc n = some s') : s'.rd = s.rd := by
  unfold State.alloc at hs
  split at hs
  case h_2 => contradiction
  split at hs <;> cases hs
  rfl

/-- What a reader of bucket `b` for key `k` knows, with the trail that it has left. -/
def Known (r : ρ) (k : Int) (b : β) (hist : List (State β ρ)) (s : State β ρ) : Prop :=
  (∃ l, Inv s l) ∧ s ∈ hist ∧ ∃ L : Addr → Prop, (∀ x, L x → Lingers s x) ∧
    (view β ρ).Trail hist s b k L ∧ Knows hist s L k b (s.rd r)

/-- It goes on through every step but a new call of the reader's own. -/
theorem Known.step {r : ρ} {k : Int} {b : β} {hist : List (State β ρ)} {a : Act β ρ} (h : Known r k b hist s)
    (hs : ListRc.step s a = some s') (ha : ∀ k b, a ≠ .call r k b) : Known r k b (hist ++ [s']) s' := by
  obtain ⟨⟨l, hi⟩, hm, L, hL, ht, hk⟩ := h
  obtain ⟨l', hi'⟩ := hi.step hs
  have hf := hi.frame hs
  have hk' : Knows hist s L k b (s'.rd r) := by
    cases a with
    | begin =>
      obtain ⟨w, _, rfl⟩ := Option.map_eq_some_iff.mp hs
      exact hk
    | update => rwa [update_rd hs]
    | alloc n => rwa [alloc_rd hs]
    | call r' k' b' =>
      have hne : r ≠ r' := fun he => ha k' b' (by rw [he])
      simp only [ListRc.step] at hs
      split at hs <;> cases hs <;> simpa [Function.update_of_ne hne] using hk
    | read r' =>
      obtain ⟨⟨m', x'⟩, hx, rfl⟩ := Option.map_eq_some_iff.mp hs
      by_cases hr : r = r'
      · subst hr
        simpa using hk.read hi hm ht hx
      · simpa [Function.update_of_ne hr] using hk
  refine ⟨⟨l', hi'⟩, by simp, _, fun x hx => hx.2, hi.trail hi' hf hL ht hm, hk'.evolve fun n hn hreach => ?_⟩
  -- the node that the reader stands on is counted for it
  have hheld : n ∈ l'.held (some r) := by
    rw [(hi'.rep.readers r).held]
    exact Multiset.mem_add.mpr (.inr (on_extra hn))
  have hpos := hi'.balanced.pos_of_held hheld
  rw [hi'.rep.fits.count] at hpos
  exact ⟨hi'.stays hf hL hreach (by omega), Mem.Frame.key_same hf (fun x hx => (hL x hx).1) hreach⟩

theorem Known.start {r : ρ} {k : Int} {b : β} (h : ∃ l, Inv s l)
    (hs : ListRc.step s (.call r k b) = some s') : Known r k b [s'] s' := by
  obtain ⟨l, hi⟩ := h
  refine ⟨hi.step hs, by simp, fun _ => False, fun _ hx => hx.elim, .empty, ?_⟩
  simp only [ListRc.step] at hs
  split at hs <;> cases hs <;> simp [Knows]

/-- What the reader returns is right in one of the states. -/
theorem Known.answer {r : ρ} {k : Int} {b : β} {res : Nat} {hist : List (State β ρ)} (h : Known r k b hist s)
    (hs : ListRc.step s (.read r) = some s') (hr : s'.rd r = .returned res) :
    ∃ m ∈ hist, (res = 1 ↔ m.mem.Member b k) := by
  obtain ⟨⟨l, hi⟩, hm, L, _, ht, hk⟩ := h
  obtain ⟨⟨m', x'⟩, hx, rfl⟩ := Option.map_eq_some_iff.mp hs
  have hk' := hk.read hi hm ht hx
  rwa [show x' = .returned res by simpa using hr] at hk'

/-- A completed call of `search(k, &heads[b], _)` by `r` with result `res`; `hist` are the states from
just after the call to just before the return. -/
def Completed (r : ρ) (k : Int) (b : β) (res : Nat) (hist : List (State β ρ)) : Prop :=
  Interval (Steps ListRc.step) (.init β ρ) (· = .call r k b) (fun a => ∀ k b, a ≠ .call r k b)
    (fun a s => a = .read r ∧ s.rd r = .returned res) hist

/-- The search of list_rc.c is linearizable: its result is right at some instant of the call. -/
theorem rc_search_linearizable {r : ρ} {k : Int} {b : β} {res : Nat} {hist : List (State β ρ)}
    (h : Completed r k b res hist) : ∃ m ∈ hist, (res = 1 ↔ m.mem.Member b k) := by
  have hknow := h.knowledge (K := Known r k b) (fun s a t hs ht ha => ?_) fun hist s a t hk ht ha => hk.step ht ha
  · obtain ⟨s, a, t, hk, hs, rfl, hres⟩ := hknow
    exact hk.answer hs hres
  · subst ha
    exact .start (inv_reachable hs) ht

/-- A search for key 2 stands on the node of key 1 when both nodes are deleted: it follows the link of the
unlinked node, and its release of that node frees it. -/
theorem rc_search_linearizable_found : ∃ hist : List (State Unit Unit), Completed () 2 () 1 hist ∧
    (∃ m ∈ hist, (1 = 1 ↔ m.mem.Member () 2)) ∧ ∃ m ∈ hist, m.mem.heads () = none ∧ m.rd () = .key 2 0 := by
  have h : (exec ListRc.step (.init Unit Unit) (twoInserts ++ (Act.call () 2 () ::
      (List.replicate 4 (.read ()) ++ .begin .delete 1 () :: List.replicate 12 .update ++
        .begin .delete 2 () :: List.replicate 11 .update)))).any fun s =>
      (decide (s.mem.heads () = none) && decide (s.rd () = .key 2 0)) &&
        (exec ListRc.step s (List.replicate 20 (.read ()) ++ [Act.read ()])).any fun s =>
          decide (s.rd () = .returned 1) := by decide +kernel
  obtain ⟨hist, hc, m, hm, hq⟩ : ∃ hist : List (State Unit Unit), Completed () 2 () 1 hist ∧
      ∃ m ∈ hist, decide (m.mem.heads () = none) && decide (m.rd () = .key 2 0) :=
    Interval.of_exec_through h rfl (by simp) fun _ ht => ⟨rfl, of_decide_eq_true ht⟩
  simp only [Bool.and_eq_true, decide_eq_true_eq] at hq
  exact ⟨hist, hc, rc_search_linearizable hc, m, hm, hq⟩

end Gecos.ListRc
