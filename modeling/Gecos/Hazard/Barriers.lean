import Gecos.Hazard.Protection
import Gecos.Library.Tso

/-! list_hp.c and hp.c over list_writer.c on x86, where each thread's stores wait in its buffer: what the
barriers of atomic.h order, and when a validated hazard pointer protects the first node of a bucket. -/
namespace Gecos
open Library

namespace Hazard
variable {s s' : Smr} {h h' : Hoard} {n : Addr} {i : Nat}

/-- The nodes that the scan in progress may free and that slot `i` can no longer save: it has loaded the slot. -/
noncomputable def Smr.passed (s : Smr) (i : Nat) : List Addr :=
  match s.call with
  | none => []
  | some (t, .test j _) => if i < j then s.zombies t else []
  | some (t, .take j _) => if i ≤ j then s.zombies t else []
  | some (_, .sweep _ tmplist) => chainOf s.mrNext tmplist
  | some (_, .freeNode _ tmplist cur) => cur :: chainOf s.mrNext tmplist

def Hoard.passed (h : Hoard) (i : Nat) : List Addr :=
  match h.call with
  | none => []
  | some (t, .test j _) => if i < j then h.zombies t else []
  | some (t, .take j _) => if i ≤ j then h.zombies t else []
  | some (_, .sweep _ tmplist) => tmplist
  | some (_, .freeNode _ tmplist cur) => cur :: tmplist

theorem Rep.passed_eq (hr : Rep s h) (i : Nat) : s.passed i = h.passed i := by
  unfold Smr.passed Hoard.passed
  cases hc : s.call with
  | none => rw [hr.call_none.mp hc]
  | some x =>
    obtain ⟨t, sc⟩ := x
    obtain ⟨l, hl, hsc⟩ := hr.call_some hc
    rw [hl]
    cases sc <;> cases l <;> try contradiction
    case test.test | take.take =>
      obtain ⟨rfl, rfl⟩ := hsc
      simp only [hr.zombies_eq]
    case sweep.sweep => exact chainOf_eq hsc.2
    case freeNode.freeNode =>
      obtain ⟨_, hchain, rfl⟩ := hsc
      simp only [chainOf_eq hchain]

/-- A node that a scan may free can be passed only when the scan loads the slot. -/
theorem Hoard.passed_scan (hi : i < H) (hs : h.scan = some h') (hn : n ∈ h'.passed i) :
    n ∈ h.passed i ∨ ∃ t plist, h.call = some (t, .test i plist) ∧ n ∈ h.zombies t := by
  obtain ⟨t, sc, zs, sc', hc, hl, rfl⟩ := Hoard.scan_eq hs
  unfold Hoard.passed at hn ⊢
  rw [hc]
  cases sc with
  | test j plist =>
    simp only [Scan.listStep] at hl
    split at hl <;> cases hl
    · rename_i hj
      have hmem : i ≤ j ∧ n ∈ h.zombies t := by
        by_cases hp : h.HP j = none <;> simpa [hp, Nat.lt_succ_iff] using hn
      by_cases hij : i < j
      · exact .inl (by simpa [hij] using hmem.2)
      · obtain rfl : i = j := by omega
        exact .inr ⟨t, plist, rfl, hmem.2⟩
    · exact .inl (by simpa [show i < j by omega] using hn)
  | take j plist =>
    cases hl
    refine .inl ?_
    simpa [Nat.lt_succ_iff] using hn
  | sweep plist tmp =>
    cases tmp with
    | nil =>
      cases hl
      cases hn
    | cons cur tmp =>
      simp only [Scan.listStep] at hl
      split at hl <;> cases hl
      · exact .inl (List.mem_cons_of_mem _ hn)
      · exact .inl hn
  | freeNode => simp [Scan.listStep] at hl

theorem Hoard.passed_free {cur : Addr} (hs : h.free = some (h', cur)) (hn : n ∈ h'.passed i) : n ∈ h.passed i := by
  obtain ⟨t, plist, tmp, hc, rfl⟩ := Hoard.free_eq hs
  unfold Hoard.passed
  rw [hc]
  exact List.mem_cons_of_mem _ hn

theorem Hoard.spares_of_passed (hn : n ∉ h.passed i) : h.Spares n i := by
  unfold Hoard.passed at hn
  unfold Hoard.Spares
  cases hc : h.call with
  | none => trivial
  | some x =>
    obtain ⟨t, sc⟩ := x
    rw [hc] at hn
    cases sc with
    | test j plist =>
      by_cases hij : i < j
      · exact .inr (.inl (by simpa [hij] using hn))
      · exact .inl (by omega)
    | take j plist =>
      by_cases hij : i ≤ j
      · exact .inr (.inl (by simpa [hij] using hn))
      · exact .inl (by omega)
    | sweep plist tmp => exact fun hm => (hn hm).elim
    | freeNode plist tmp cur =>
      have hn : n ≠ cur ∧ n ∉ tmp := by simpa using hn
      exact ⟨hn.1, fun hm => (hn.2 hm).elim⟩

end Hazard

namespace HazardTso
open Hazard ListHp
variable {β : Type}

/-- A shared store: to a link or a key of the table, or to a hazard slot. -/
inductive Store (β : Type) where
  | link (l : Link β) (p : Ptr)
  | key (n : Addr) (k : Int)
  | hazard (i : Nat) (p : Ptr)
  deriving DecidableEq

/-- `write_read_barrier` and `write_write_barrier`. -/
structure Barriers where
  writeRead : Instr
  writeWrite : Instr

/-- As atomic.h defines them. -/
def atomicH : Barriers := ⟨.sfence, .compilerBarrier⟩

/-- Memory with the private data of the threads, and the stores that it does not have yet. -/
abbrev Machine (β : Type) := Tso (State β) (Store β) Nat

/-- `updater` is a step of the updater, in list_writer.c or hp.c. -/
inductive Act (β : Type) where
  | updater (a : ListHp.Act β)
  | call (t : Nat) (k : Int) (b : β) (l : Locals β)
  | read (t : Nat)
  | drain (t : Nat)

/-- The store that the updater's next access issues. -/
def stores : Writer β Unit → List (Store β)
  | .unlink _ _ prev _ next => [.link prev next]
  | .storeKey k _ _ _ new => [.key new k]
  | .storeNext _ _ _ cur new => [.link (.next new) cur]
  | .link _ _ prev _ new => [.link prev (some new)]
  | _ => []

/-- Only its accesses in list_writer.c store to the table. -/
def issued (w : Writer β Unit) : ListHp.Act β → List (Store β)
  | .update => stores w
  | _ => []

/-- What memory and the private data become when the updater has got to `v'` in its own view; its stores
are still to come, and none is to a hazard slot. -/
def behind (s v' : State β) : State β :=
  { s with smr := v'.smr, upd := v'.upd, mem := { s.mem with avail := v'.mem.avail } }

/-- Whether a barrier in the way lets the thread pass. -/
def passes (bar : Barriers) (cfg : Config) (s : Machine β) : Act β → Bool
  | .read t => match s.mem.rd t with
    | .run .check _ _ _ => bar.writeRead.passes (s.buf t)
    | _ => true
  | .updater .scan => match s.mem.smr.call with
    | some (_, .test 0 _) => bar.writeWrite.passes (s.buf cfg.updater)
    | _ => true
  | _ => true

variable [DecidableEq β]

def Store.apply : Store β → State β → State β
  | .link l p, s => { s with mem := s.mem.store l p }
  | .key n k, s => { s with mem := { s.mem with key := Function.update s.mem.key n k } }
  | .hazard i p, s => { s with smr := s.smr.publish i p }

/-- The state as thread `t` sees it. -/
abbrev seen (s : Machine β) (t : Nat) : State β := s.view Store.apply t

/-- A step of the updater, by what it sees. -/
def update (cfg : Config) (s : Machine β) (a : ListHp.Act β) : Option (Machine β) :=
  match a with
  | .call .. | .read _ => none
  | a => (ListHp.step cfg (seen s cfg.updater) a).map fun v' =>
    { mem := behind s.mem v'
      buf := Function.update s.buf cfg.updater (s.buf cfg.updater ++ issued (s.mem.upd ()) a) }

/-- A step of the reader on thread `t`, by what it sees. -/
def read (s : Machine β) (t : Nat) : Option (Machine β) :=
  ((s.mem.rd t).step (seen s t).mem).map fun x =>
    let s' : Machine β := { s with mem := { s.mem with rd := Function.update s.mem.rd t x } }
    match s.mem.rd t with
    | .run .protect _ _ l => s'.issue t (.hazard (slot t l.off) (some l.cur))
    | _ => s'

def step (bar : Barriers) (cfg : Config) (s : Machine β) (a : Act β) : Option (Machine β) :=
  if passes bar cfg s a then
    match a with
    | .updater a => update cfg s a
    | .read t => read s t
    | .drain t => s.drain Store.apply t
    | .call t k b l =>
      if t < cfg.nbthreads ∧ t ≠ cfg.updater then
        match s.mem.rd t with
        | .idle | .returned _ =>
          some { s with mem := { s.mem with rd := Function.update s.mem.rd t (.run .head k b { l with off := false }) } }
        | .run .. => none
      else none
  else none

def init (β : Type) : Machine β := ⟨.init β, fun _ => []⟩

/-- Node `n` is no bucket's first node in memory, and no pending store of the updater will make it one. -/
def Unlinked (cfg : Config) (s : Machine β) (n : Addr) : Prop :=
  ∀ m, s.Ahead Store.apply cfg.updater m → ∀ b, m.mem.heads b ≠ some n

/-- Slot `i` holds `n` in memory, and no pending store of thread `t` will change that. -/
def Shown (s : Machine β) (t i : Nat) (n : Addr) : Prop :=
  s.mem.smr.HP i = some n ∧ ∀ p, .hazard i p ∈ s.buf t → p = some n

/-- The condition on the state before a step. A reader that finds `*head == cur` has its hazard pointer in
memory; and when a scan loads the slot of a reader, the nodes that it may free are unlinked in memory. -/
def Meets (cfg : Config) (s : Machine β) : Act β → Prop
  | .read t => ∀ k b b' l, s.mem.rd t = .run .check k b l → l.prev = .head b' →
      (seen s t).mem.heads b' = some l.cur → Shown s t (slot t l.off) l.cur
  | .updater .scan => ∀ t i plist, s.mem.smr.call = some (t, .test i plist) →
      (∃ u off, u < cfg.nbthreads ∧ u ≠ cfg.updater ∧ slot u off = i) → ∀ n ∈ s.mem.smr.zombies t, Unlinked cfg s n
  | _ => True

/-- The steps that meet the condition. -/
def OrderedStep (bar : Barriers) (cfg : Config) (s : Machine β) (a : Act β) (s' : Machine β) : Prop :=
  step bar cfg s a = some s' ∧ Meets cfg s a

/-- The step at which the reader on thread `t` finds `*head == cur`, with `cur = n` stored to slot `i`. -/
def Validates (bar : Barriers) (cfg : Config) (s : Machine β) (t : Nat) (n : Addr) (i : Nat) (s' : Machine β) : Prop :=
  ∃ k b b' l, s.mem.rd t = .run .check k b l ∧ l.prev = .head b' ∧ (seen s t).mem.heads b' = some l.cur ∧
    l.cur = n ∧ slot t l.off = i ∧ step bar cfg s (.read t) = some s'

/-- Thread `t` stores to slot `i` by this step. -/
def Overwrites (s : Machine β) (t i : Nat) (a : Act β) : Prop :=
  a = .read t ∧ ∃ k b l, s.mem.rd t = .run .protect k b l ∧ slot t l.off = i

section views
variable {cfg : Config} {s s' : Machine β} {base v v' : State β} {a : ListHp.Act β} {w : Store β} {l : List (Store β)} {t : Nat}

/-- Stores to the table, which only the updater makes. -/
def Store.listed : Store β → Bool
  | .hazard .. => false
  | _ => true

theorem apply_rd (w : Store β) (s : State β) : (w.apply s).rd = s.rd := by cases w <;> rfl

theorem apply_smr (hw : w.listed) (s : State β) : (w.apply s).smr = s.smr := by
  cases w with
  | hazard => cases hw
  | _ => rfl

theorem apply_upd (w : Store β) (s : State β) : (w.apply s).upd = s.upd := by cases w <;> rfl

/-- A store to the table and private data go together in either order. -/
theorem apply_behind (hw : w.listed) (s v' : State β) : w.apply (behind s v') = behind (w.apply s) v' := by
  cases w with
  | hazard => cases hw
  | link l p => cases l <;> rfl
  | key => rfl

theorem apply_read (w : Store β) (s : State β) (r : Nat → Searcher β) : w.apply { s with rd := r } = { w.apply s with rd := r } := by
  cases w <;> rfl

theorem apply_publish (hw : w.listed) (s : State β) (i : Nat) (p : Ptr) :
    w.apply ((Store.hazard i p).apply s) = (Store.hazard i p).apply (w.apply s) := by
  cases w with
  | hazard => cases hw
  | _ => rfl

omit [DecidableEq β] in
theorem stores_listed (w : Writer β Unit) : ∀ x ∈ stores w, x.listed := by
  cases w <;> simp [stores, Store.listed]

/-- What the updater's step leaves is what it sees, once the store is in its buffer. -/
theorem update_behind (ha : ListHp.step cfg v .update = some v') :
    Tso.after Store.apply (behind v v') (stores (v.upd ())) = v' := by
  simp only [ListHp.step] at ha
  split at ha
  case isFalse => contradiction
  unfold State.update at ha
  split at ha
  case h_1 op k b hu =>
    cases ha
    rw [hu]
    rfl
  case h_2 b res hu =>
    cases ha
    rw [hu]
    rfl
  case h_3 b n hu =>
    cases ha
    rw [hu]
    rfl
  case h_4 =>
    obtain ⟨⟨m', w'⟩, hw, rfl⟩ := Option.map_eq_some_iff.mp ha
    cases hu : v.upd () with
    | ready | wlock | freeNodeLater | initNewNode | handOver | wunlock | returned => simp [hu, Writer.step] at hw
    | loadKeyAgain op k b prev cur =>
      rw [hu] at hw
      cases op <;> cases hw <;> rfl
    | unlink k b prev cur next | link k b prev cur new =>
      rw [hu] at hw
      cases hw
      cases prev <;> rfl
    | _ =>
      rw [hu] at hw
      cases hw
      rfl

theorem own_behind (ha : ListHp.step cfg v a = some v') (hu : a ≠ .update) (hc : ∀ t k b l, a ≠ .call t k b l)
    (hr : ∀ t, a ≠ .read t) : behind v v' = v' := by
  cases a with
  | update => exact (hu rfl).elim
  | call t k b l => exact (hc t k b l rfl).elim
  | read t => exact (hr t rfl).elim
  | begin op k b =>
    obtain ⟨w, _, rfl⟩ := Option.map_eq_some_iff.mp ha
    rfl
  | alloc n =>
    obtain ⟨mw, hmw, rfl⟩ := Option.map_eq_some_iff.mp ha
    unfold Writer.alloc at hmw
    split at hmw
    · split at hmw <;> cases hmw
      rfl
    · cases hmw
  | scan =>
    obtain ⟨smr, _, rfl⟩ := Option.map_eq_some_iff.mp ha
    rfl
  | free junk =>
    obtain ⟨smr, _, rfl⟩ := Option.map_eq_some_iff.mp ha
    rfl

theorem update_eq (hs : update cfg s a = some s') : ∃ v', ListHp.step cfg (seen s cfg.updater) a = some v' ∧
    Tso.after Store.apply (behind (seen s cfg.updater) v') (issued ((seen s cfg.updater).upd ()) a) = v' ∧
    s' = { mem := behind s.mem v'
           buf := Function.update s.buf cfg.updater (s.buf cfg.updater ++ issued (s.mem.upd ()) a) } := by
  cases a with
  | call | read => cases hs
  | update =>
    obtain ⟨v', hv, rfl⟩ := Option.map_eq_some_iff.mp hs
    exact ⟨v', hv, update_behind hv, rfl⟩
  | begin | alloc | scan | free =>
    obtain ⟨v', hv, rfl⟩ := Option.map_eq_some_iff.mp hs
    exact ⟨v', hv, own_behind hv nofun nofun nofun, rfl⟩

/-- What the updater's step does to the memory of hp.c. -/
theorem smr_cases (hs : ListHp.step cfg v a = some v') (hc : ∀ t k b l, a ≠ .call t k b l) (hr : ∀ t, a ≠ .read t) :
    v'.smr = v.smr ∧ (a = .update → v.smr.call = none) ∨
      (∃ n, v'.smr = (v.smr.retire cfg.nbthreads cfg.updater n).logRetired n) ∨
      (a = .scan ∧ v.smr.scan = some v'.smr) ∨
      ∃ junk smr cur, a = .free junk ∧ v.smr.free junk = some (smr, cur) ∧ v'.smr = smr.logFreed cur := by
  cases a with
  | call t k b l => exact (hc t k b l rfl).elim
  | read t => exact (hr t rfl).elim
  | begin op k b =>
    obtain ⟨w, _, rfl⟩ := Option.map_eq_some_iff.mp hs
    exact .inl ⟨rfl, nofun⟩
  | alloc n =>
    obtain ⟨mw, _, rfl⟩ := Option.map_eq_some_iff.mp hs
    exact .inl ⟨rfl, nofun⟩
  | scan =>
    obtain ⟨smr, hsc, rfl⟩ := Option.map_eq_some_iff.mp hs
    exact .inr (.inr (.inl ⟨rfl, hsc⟩))
  | free junk =>
    obtain ⟨⟨smr, cur⟩, hf, rfl⟩ := Option.map_eq_some_iff.mp hs
    exact .inr (.inr (.inr ⟨junk, smr, cur, rfl, hf, rfl⟩))
  | update =>
    simp only [ListHp.step] at hs
    split at hs
    case isFalse => contradiction
    rename_i hcall
    have hnone : v.smr.call = none := Option.isNone_iff_eq_none.mp hcall
    unfold State.update at hs
    split at hs
    case h_1 | h_2 =>
      cases hs
      exact .inl ⟨rfl, fun _ => hnone⟩
    case h_3 b n hu =>
      cases hs
      exact .inr (.inl ⟨n, rfl⟩)
    case h_4 =>
      obtain ⟨mw, _, rfl⟩ := Option.map_eq_some_iff.mp hs
      exact .inl ⟨rfl, fun _ => hnone⟩

end views

section hoard
variable {cfg : Config} {v v' : State β} {h : Hoard} {a : ListHp.Act β} {n : Addr} {i : Nat}

theorem passed_retire (s : Smr) (nbthreads t : Nat) (x : Addr) :
    ((s.retire nbthreads t x).logRetired x).passed i = [] := by
  unfold Smr.passed Smr.logRetired Smr.retire
  by_cases hR : R nbthreads < (s.zlist t).number + 1 <;> simp [hR]

/-- A scan only begins to put nodes at stake. -/
theorem passed_step (hi : ListHp.Inv cfg v h) (hs : ListHp.step cfg v a = some v') (hc : ∀ t k b l, a ≠ .call t k b l)
    (hr : ∀ t, a ≠ .read t) (hiH : i < H) (hn : n ∈ v'.smr.passed i) :
    (n ∈ v.smr.passed i ∧ a ≠ .update) ∨
      a = .scan ∧ ∃ t plist, v.smr.call = some (t, .test i plist) ∧ n ∈ v.smr.zombies t := by
  rcases smr_cases hs hc hr with ⟨he, hnone⟩ | ⟨x, he⟩ | ⟨rfl, hsc⟩ | ⟨junk, smr, cur, rfl, hf, he⟩
  · rw [he] at hn
    refine .inl ⟨hn, fun hu => ?_⟩
    unfold Smr.passed at hn
    rw [hnone hu] at hn
    cases hn
  · rw [he, passed_retire] at hn
    cases hn
  · obtain ⟨h', hh, hrep, _⟩ := hi.rep.scan hi.hoard.toAccounts hsc
    rw [hrep.passed_eq] at hn
    rcases Hoard.passed_scan hiH hh hn with hn | ⟨t, plist, hcall, hz⟩
    · rw [← hi.rep.passed_eq] at hn
      exact .inl ⟨hn, nofun⟩
    · obtain ⟨t', sc, _, _, _, hcall', _⟩ := Smr.scan_eq hsc
      obtain ⟨l, hl, hsc'⟩ := hi.rep.call_some hcall'
      cases hl.symm.trans hcall
      cases sc with
      | test j plist' =>
        obtain ⟨rfl, rfl⟩ := hsc'
        exact .inr ⟨rfl, t, _, hcall', by rwa [hi.rep.zombies_eq]⟩
      | take | sweep | freeNode => exact hsc'.elim
  · obtain ⟨h', hh, hrep⟩ := hi.rep.free hi.hoard.toAccounts hf
    rw [he, (hrep.logFreed cur).passed_eq] at hn
    refine .inl ⟨?_, nofun⟩
    rw [hi.rep.passed_eq]
    exact Hoard.passed_free hh hn

/-- What a slot saves from the scan in progress, it saves after the next step. -/
theorem spares_step (hi : ListHp.Inv cfg v h) (hs : ListHp.step cfg v a = some v') (hc : ∀ t k b l, a ≠ .call t k b l)
    (hr : ∀ t, a ≠ .read t) (hiH : i < H) (hHP : v.smr.HP i = some n) (hsp : v.smr.Spares n i) :
    v'.smr.HP i = some n ∧ v'.smr.Spares n i := by
  rcases smr_cases hs hc hr with ⟨he, _⟩ | ⟨x, he⟩ | ⟨rfl, hsc⟩ | ⟨junk, smr, cur, rfl, hf, he⟩
  · rw [he]
    exact ⟨hHP, hsp⟩
  · rw [he]
    refine ⟨hHP, ?_⟩
    unfold Smr.Spares Smr.logRetired Smr.retire
    by_cases hR : R cfg.nbthreads < (v.smr.zlist cfg.updater).number + 1 <;> simp [hR]
  · obtain ⟨h', hh, hrep, _⟩ := hi.rep.scan hi.hoard.toAccounts hsc
    obtain ⟨t, sc, mr, zl, sc', _, _, he⟩ := Smr.scan_eq hsc
    rw [hi.rep.spares_iff] at hsp
    refine ⟨by rw [he]; exact hHP, hrep.spares_iff.mpr (hsp.scan hiH ?_ hh)⟩
    rw [← hi.rep.HP]
    exact hHP
  · obtain ⟨h', hh, hrep⟩ := hi.rep.free hi.hoard.toAccounts hf
    obtain ⟨t, plist, tmp, _, rfl⟩ := Smr.free_eq hf
    have hsp' := (hi.rep.spares_iff.mp hsp).free hh
    rw [he, (hrep.logFreed cur).spares_iff]
    exact ⟨hHP, hsp'⟩

end hoard

/-- The updater sees the table as one thread alone would; the nodes that a scan can no longer spare for a
reader are unlinked in memory. -/
structure Inv (cfg : Config) (s : Machine β) : Prop where
  seen : ∃ h, ListHp.Inv cfg (seen s cfg.updater) h
  updater : ∀ w ∈ s.buf cfg.updater, w.listed
  readers : ∀ t, t ≠ cfg.updater → ∀ w ∈ s.buf t, t < cfg.nbthreads ∧ ∃ off p, w = .hazard (slot t off) p
  running : ∀ t pc k b l, s.mem.rd t = .run pc k b l → t ≠ cfg.updater
  stake : ∀ t off, t < cfg.nbthreads → t ≠ cfg.updater → ∀ n ∈ s.mem.smr.passed (slot t off), Unlinked cfg s n

section inv
variable {bar : Barriers} {cfg : Config} {s s' : Machine β} {a : ListHp.Act β} {n : Addr} {i t : Nat} {l : List (Store β)}

theorem seen_rd (s : Machine β) (t : Nat) : (seen s t).rd = s.mem.rd := Tso.after_same State.rd (fun w _ => apply_rd w) _

theorem seen_upd (s : Machine β) (t : Nat) : (seen s t).upd = s.mem.upd := Tso.after_same State.upd (fun w _ => apply_upd w) _

theorem after_smr (hl : ∀ w ∈ l, w.listed) (v : State β) : (Tso.after Store.apply v l).smr = v.smr :=
  Tso.after_same State.smr (fun w hw => apply_smr (hl w hw)) _

theorem after_behind (hl : ∀ w ∈ l, w.listed) (v v' : State β) :
    Tso.after Store.apply (behind v v') l = behind (Tso.after Store.apply v l) v' :=
  Tso.after_comm (behind · v') (fun w hw s => apply_behind (hl w hw) s v') v

theorem after_read (v : State β) (r : Nat → Searcher β) :
    Tso.after Store.apply { v with rd := r } l = { Tso.after Store.apply v l with rd := r } :=
  Tso.after_comm (fun v => { v with rd := r }) (fun w _ s => apply_read w s r) v

theorem after_publish (hl : ∀ w ∈ l, w.listed) (v : State β) (p : Ptr) :
    Tso.after Store.apply ((Store.hazard i p).apply v) l = (Store.hazard i p).apply (Tso.after Store.apply v l) :=
  Tso.after_comm _ (fun w hw s => apply_publish (hl w hw) s i p) v

theorem Inv.seen_smr (hi : Inv cfg s) : (HazardTso.seen s cfg.updater).smr = s.mem.smr := after_smr hi.updater _

/-- A reader has no store to the table pending. -/
theorem Inv.reader_mem (hi : Inv cfg s) (ht : t ≠ cfg.updater) : (HazardTso.seen s t).mem = s.mem.mem := by
  apply Tso.after_same State.mem
  intro w hw v
  obtain ⟨_, off, p, rfl⟩ := hi.readers t ht w hw
  rfl

theorem slot_lt (ht : t < cfg.nbthreads) (off : Bool) : slot t off < H := by
  have := cfg.atMost
  unfold slot H K
  cases off <;> simp <;> omega

theorem slot_inj {t' : Nat} {off off' : Bool} (h : slot t off = slot t' off') : t = t' := by
  unfold slot K at h
  cases off <;> cases off' <;> simp at h <;> omega

/-- Steps after which memory and the updater's buffer lead to no other first nodes. -/
theorem Unlinked.mono (hu : Unlinked cfg s n)
    (hm : ∀ m', s'.Ahead Store.apply cfg.updater m' → ∃ m, s.Ahead Store.apply cfg.updater m ∧ m'.mem.heads = m.mem.heads) :
    Unlinked cfg s' n := by
  intro m' hm' b hb
  obtain ⟨m, ha, he⟩ := hm m' hm'
  exact hu m ha b (by rwa [← he])

theorem Inv.init (cfg : Config) : Inv cfg (HazardTso.init β) where
  seen := ⟨.init, .init cfg⟩
  updater _ hw := (nomatch hw)
  readers _ _ _ hw := (nomatch hw)
  running _ _ _ _ _ hr := (nomatch hr)
  stake _ _ _ _ _ hn := (nomatch hn)

/-- The updater's step in its own view is its step on one memory. -/
theorem Inv.update_seen (hi : Inv cfg s) (hs : update cfg s a = some s') :
    ListHp.step cfg (HazardTso.seen s cfg.updater) a = some (HazardTso.seen s' cfg.updater) := by
  obtain ⟨v', hv, hb, rfl⟩ := update_eq hs
  have hseen : Tso.view Store.apply { mem := behind s.mem v'
                                      buf := Function.update s.buf cfg.updater (s.buf cfg.updater ++ issued (s.mem.upd ()) a) }
      cfg.updater = v' := by
    rw [seen_upd] at hb
    simp only [Tso.view, Function.update_self, Tso.after_append, after_behind hi.updater]
    exact hb
  rw [hv]
  exact congrArg some hseen.symm

omit [DecidableEq β] in
theorem issued_listed (w : Writer β Unit) (a : ListHp.Act β) : ∀ x ∈ issued w a, x.listed := by
  cases a with
  | update => exact stores_listed w
  | _ => simp [issued]

omit [DecidableEq β] in
theorem issued_nil (w : Writer β Unit) (ha : a ≠ .update) : issued w a = [] := by
  cases a with
  | update => exact (ha rfl).elim
  | _ => rfl

theorem update_own (hs : update cfg s a = some s') : (∀ t k b l, a ≠ .call t k b l) ∧ ∀ t, a ≠ .read t := by
  cases a with
  | call | read => cases hs
  | _ => exact ⟨nofun, nofun⟩

theorem Inv.update (hi : Inv cfg s) (hs : HazardTso.update cfg s a = some s') (hm : Meets cfg s (.updater a)) :
    Inv cfg s' := by
  obtain ⟨h, hv⟩ := hi.seen
  have hstep := hi.update_seen hs
  obtain ⟨h', hv', _⟩ := hv.step hstep
  obtain ⟨hc, hr⟩ := update_own hs
  obtain ⟨v', _, _, he⟩ := update_eq hs
  have hlisted : ∀ w ∈ s'.buf cfg.updater, w.listed := by
    rw [he]
    simp only [Function.update_self]
    intro w hw
    rcases List.mem_append.mp hw with hw | hw
    · exact hi.updater w hw
    · exact issued_listed _ _ w hw
  refine ⟨⟨h', hv'⟩, hlisted, fun t ht w hw => ?_, fun t pc k b l hrd => ?_, fun t off ht htu n hn => ?_⟩
  · rw [he] at hw
    simp only [Function.update_of_ne ht] at hw
    exact hi.readers t ht w hw
  · rw [he] at hrd
    exact hi.running t pc k b l hrd
  · rw [← after_smr hlisted s'.mem] at hn
    have hold : n ∈ s.mem.smr.passed (slot t off) → a ≠ .update → Unlinked cfg s n := fun hn _ => hi.stake t off ht htu n hn
    -- without a new store the memories ahead have the same links
    have hmono (ha : a ≠ .update) (hu : Unlinked cfg s n) : Unlinked cfg s' n := by
      apply hu.mono
      rintro m' ⟨l, hl, rfl⟩
      rw [he] at hl ⊢
      simp only [issued_nil _ ha, List.append_nil, Function.update_eq_self] at hl ⊢
      refine ⟨_, ⟨l, hl, rfl⟩, ?_⟩
      rw [after_behind fun w hw => hi.updater w (hl.subset hw)]
      rfl
    rcases passed_step hv hstep hc hr (slot_lt ht off) hn with ⟨hn, ha⟩ | ⟨rfl, t', plist, hcall, hz⟩
    · rw [hi.seen_smr] at hn
      exact hmono ha (hold hn ha)
    · rw [hi.seen_smr] at hcall hz
      exact hmono nofun (hm t' _ plist hcall ⟨t, off, ht, htu, rfl⟩ n hz)

theorem Inv.threads (hi : Inv cfg s) {pc : Pc} {k : Int} {b : β} {l : Locals β} (hr : s.mem.rd t = .run pc k b l) :
    t < cfg.nbthreads ∧ t ≠ cfg.updater := by
  obtain ⟨h, hv⟩ := hi.seen
  exact ⟨hv.threads t pc k b l (by rw [seen_rd]; exact hr), hi.running t pc k b l hr⟩

/-- Steps of the readers, which store to their hazard slots only. -/
theorem Inv.reader (hi : Inv cfg s) {r : Nat → Searcher β} {buf : Nat → List (Store β)}
    (hu : buf cfg.updater = s.buf cfg.updater)
    (hb : ∀ t, t ≠ cfg.updater → ∀ w ∈ buf t, t < cfg.nbthreads ∧ ∃ off p, w = .hazard (slot t off) p)
    (hr : ∀ t pc k b l, r t = .run pc k b l → t < cfg.nbthreads ∧ t ≠ cfg.updater) :
    Inv cfg { mem := { s.mem with rd := r }, buf := buf } := by
  obtain ⟨h, hv⟩ := hi.seen
  have hseen : HazardTso.seen { mem := { s.mem with rd := r }, buf := buf } cfg.updater =
      { HazardTso.seen s cfg.updater with rd := r } := by
    simp only [HazardTso.seen, Tso.view, hu]
    exact after_read _ r
  refine ⟨⟨h, ?_⟩, fun w hw => hi.updater w (hu ▸ hw), hb, fun t pc k b l h => (hr t pc k b l h).2, fun t off ht htu n hn => ?_⟩
  · rw [hseen]
    exact ⟨hv.rep, hv.hoard, hv.writers, hv.waiting, fun t pc k b l h => (hr t pc k b l h).1⟩
  · apply (hi.stake t off ht htu n hn).mono
    rintro m' ⟨l, hl, rfl⟩
    refine ⟨_, ⟨l, hu ▸ hl, rfl⟩, ?_⟩
    rw [after_read]

theorem Inv.call (hi : Inv cfg s) {k : Int} {b : β} {l : Locals β} (ht : t < cfg.nbthreads ∧ t ≠ cfg.updater) :
    Inv cfg { s with mem := { s.mem with rd := Function.update s.mem.rd t (.run .head k b l) } } := by
  refine hi.reader rfl hi.readers fun u pc k' b' l' hr => ?_
  by_cases hu : u = t
  · exact hu ▸ ht
  · rw [Function.update_of_ne hu] at hr
    exact hi.threads hr

theorem read_eq (hs : read s t = some s') : ∃ x, (s.mem.rd t).step (HazardTso.seen s t).mem = some x ∧
    s'.mem = { s.mem with rd := Function.update s.mem.rd t x } ∧ (∃ pc k b l, s.mem.rd t = .run pc k b l) ∧
    ((∃ k b l, s.mem.rd t = .run .protect k b l ∧
        s'.buf = Function.update s.buf t (s.buf t ++ [.hazard (slot t l.off) (some l.cur)])) ∨ s'.buf = s.buf) := by
  obtain ⟨x, hx, rfl⟩ := Option.map_eq_some_iff.mp hs
  cases hrd : s.mem.rd t with
  | idle | returned => simp [hrd, Searcher.step] at hx
  | run pc k b l =>
    rw [hrd] at hx
    refine ⟨x, hx, ?_⟩
    cases pc with
    | protect => exact ⟨rfl, ⟨_, k, b, l, rfl⟩, .inl ⟨k, b, l, rfl, rfl⟩⟩
    | _ => exact ⟨rfl, ⟨_, k, b, l, rfl⟩, .inr rfl⟩

theorem Inv.read (hi : Inv cfg s) (hs : HazardTso.read s t = some s') : Inv cfg s' := by
  obtain ⟨x, _, hmem, ⟨pc, k, b, l, hrd⟩, hbuf⟩ := read_eq hs
  obtain ⟨ht, htu⟩ := hi.threads hrd
  have hu : s'.buf cfg.updater = s.buf cfg.updater := by
    rcases hbuf with ⟨_, _, _, _, he⟩ | he
    · rw [he, Function.update_of_ne htu.symm]
    · rw [he]
  have hb : ∀ u, u ≠ cfg.updater → ∀ w ∈ s'.buf u, u < cfg.nbthreads ∧ ∃ off p, w = .hazard (slot u off) p := by
    intro u hu w hw
    rcases hbuf with ⟨_, _, l, _, he⟩ | he
    · rw [he] at hw
      by_cases hut : u = t
      · subst hut
        rw [Function.update_self] at hw
        rcases List.mem_append.mp hw with hw | hw
        · exact hi.readers u hu w hw
        · exact ⟨ht, l.off, _, List.mem_singleton.mp hw⟩
      · rw [Function.update_of_ne hut] at hw
        exact hi.readers u hu w hw
    · rw [he] at hw
      exact hi.readers u hu w hw
  have hnext : Inv cfg { mem := { s.mem with rd := Function.update s.mem.rd t x }, buf := s'.buf } := by
    refine hi.reader hu hb fun u pc k b l hr => ?_
    by_cases hut : u = t
    · exact hut ▸ ⟨ht, htu⟩
    · rw [Function.update_of_ne hut] at hr
      exact hi.threads hr
  rwa [← hmem] at hnext

/-- A hazard slot changes in memory. -/
theorem Inv.publish (hi : Inv cfg s) {w : Store β} {rest : List (Store β)} (ht : t ≠ cfg.updater) (hb : s.buf t = w :: rest) :
    Inv cfg { mem := w.apply s.mem, buf := Function.update s.buf t rest } := by
  obtain ⟨htn, off, p, rfl⟩ := hi.readers t ht w (by rw [hb]; simp)
  obtain ⟨h, hv⟩ := hi.seen
  have hseen : HazardTso.seen { mem := (Store.hazard (slot t off) p).apply s.mem, buf := Function.update s.buf t rest } cfg.updater =
      (Store.hazard (slot t off) p).apply (HazardTso.seen s cfg.updater) := by
    simp only [HazardTso.seen, Tso.view, Function.update_of_ne ht.symm]
    exact after_publish hi.updater _ p
  refine ⟨⟨h.publish (slot t off) p, ?_⟩, fun w hw => ?_, fun u hu w hw => ?_, hi.running, fun u off' hu huu n hn => ?_⟩
  · rw [hseen]
    exact ⟨hv.rep.publish _, hv.hoard.publish (slot_writable htn off), hv.writers, hv.waiting, hv.threads⟩
  · simp only [Function.update_of_ne ht.symm] at hw
    exact hi.updater w hw
  · by_cases hut : u = t
    · subst hut
      simp only [Function.update_self] at hw
      exact hi.readers u hu w (by rw [hb]; simp [hw])
    · simp only [Function.update_of_ne hut] at hw
      exact hi.readers u hu w hw
  · apply (hi.stake u off' hu huu n hn).mono
    rintro m' ⟨l, hl, rfl⟩
    simp only [Function.update_of_ne ht.symm] at hl
    refine ⟨_, ⟨l, hl, rfl⟩, ?_⟩
    rw [after_publish fun w hw => hi.updater w (hl.subset hw)]
    rfl

/-- A store of the updater reaches memory. -/
theorem Inv.written (hi : Inv cfg s) (hs : s.drain Store.apply cfg.updater = some s') : Inv cfg s' := by
  have hview := Tso.view_drain hs
  obtain ⟨w, rest, hb, he⟩ := Tso.drain_eq hs
  have hw := hi.updater w (by rw [hb]; simp)
  have hsmr : s'.mem.smr = s.mem.smr := by rw [he]; exact apply_smr hw _
  refine ⟨by rw [HazardTso.seen, hview]; exact hi.seen, fun x hx => ?_, fun t ht x hx => ?_, fun t pc k b l hr => ?_,
    fun t off ht htu n hn => ?_⟩
  · rw [he] at hx
    simp only [Function.update_self] at hx
    exact hi.updater x (by rw [hb]; simp [hx])
  · rw [he] at hx
    simp only [Function.update_of_ne ht] at hx
    exact hi.readers t ht x hx
  · rw [he] at hr
    simp only [apply_rd] at hr
    exact hi.running t pc k b l hr
  · rw [hsmr] at hn
    apply (hi.stake t off ht htu n hn).mono
    exact fun m' hm' => ⟨m', hm'.of_drain hs, rfl⟩

theorem Inv.drain (hi : Inv cfg s) (hs : s.drain Store.apply t = some s') : Inv cfg s' := by
  by_cases ht : t = cfg.updater
  · subst ht
    exact hi.written hs
  · obtain ⟨w, rest, hb, rfl⟩ := Tso.drain_eq hs
    exact hi.publish ht hb

theorem Inv.step {a : Act β} (hi : Inv cfg s) (hs : OrderedStep bar cfg s a s') : Inv cfg s' := by
  obtain ⟨hs, hm⟩ := hs
  simp only [HazardTso.step, Option.ite_none_right_eq_some] at hs
  obtain ⟨_, hs⟩ := hs
  cases a with
  | updater a => exact hi.update hs hm
  | read t => exact hi.read hs
  | drain t => exact hi.drain hs
  | call t k b l =>
    simp only [Option.ite_none_right_eq_some] at hs
    obtain ⟨ht, hs⟩ := hs
    split at hs <;> cases hs <;> exact hi.call ht

/-- The slot holds the node and will keep it, and the scan in progress spares the node for it. -/
structure Guarded (s : Machine β) (t i : Nat) (n : Addr) : Prop where
  shown : Shown s t i n
  spared : s.mem.smr.Spares n i

theorem Guarded.update (hg : Guarded s t i n) (hi : Inv cfg s) (hiH : i < H) (ht : t ≠ cfg.updater)
    (hs : HazardTso.update cfg s a = some s') : Guarded s' t i n := by
  obtain ⟨h, hv⟩ := hi.seen
  obtain ⟨hc, hr⟩ := update_own hs
  obtain ⟨v', hstep, _, rfl⟩ := update_eq hs
  obtain ⟨hHP, hsp⟩ := spares_step hv hstep hc hr hiH (by rw [hi.seen_smr]; exact hg.shown.1) (by rw [hi.seen_smr]; exact hg.spared)
  refine ⟨⟨hHP, fun p hp => ?_⟩, hsp⟩
  simp only [Function.update_of_ne ht] at hp
  exact hg.shown.2 p hp

omit [DecidableEq β] in
/-- Steps that leave the memory of hp.c alone, and store nothing to the slot. -/
theorem Guarded.mono (hg : Guarded s t i n) (hsmr : s'.mem.smr = s.mem.smr)
    (hb : ∀ p, .hazard i p ∈ s'.buf t → .hazard i p ∈ s.buf t) : Guarded s' t i n :=
  ⟨⟨by rw [hsmr]; exact hg.shown.1, fun p hp => hg.shown.2 p (hb p hp)⟩, by rw [hsmr]; exact hg.spared⟩

theorem Guarded.read {u : Nat} {off : Bool} (hg : Guarded s t (slot t off) n) (hs : HazardTso.read s u = some s')
    (ho : ¬ Overwrites s t (slot t off) (.read u)) : Guarded s' t (slot t off) n := by
  obtain ⟨x, _, hmem, _, hbuf⟩ := read_eq hs
  refine hg.mono (by rw [hmem]) fun p hp => ?_
  rcases hbuf with ⟨k, b, l, hrd, he⟩ | he
  · rw [he] at hp
    by_cases hut : t = u
    · subst hut
      rw [Function.update_self] at hp
      rcases List.mem_append.mp hp with hp | hp
      · exact hp
      · have hslot := (Store.hazard.inj (List.mem_singleton.mp hp)).1
        exact (ho ⟨rfl, k, b, l, hrd, hslot.symm⟩).elim
    · rwa [Function.update_of_ne hut] at hp
  · rwa [he] at hp

/-- What reaches memory is the node again, or something for another slot. -/
theorem Guarded.drain {u : Nat} {off : Bool} (hg : Guarded s t (slot t off) n) (hi : Inv cfg s)
    (hs : s.drain Store.apply u = some s') : Guarded s' t (slot t off) n := by
  obtain ⟨w, rest, hb, rfl⟩ := Tso.drain_eq hs
  have hsub (p : Ptr) (hp : .hazard (slot t off) p ∈ Function.update s.buf u rest t) : .hazard (slot t off) p ∈ s.buf t := by
    by_cases hut : t = u
    · subst hut
      rw [Function.update_self] at hp
      rw [hb]
      exact List.mem_cons_of_mem _ hp
    · rwa [Function.update_of_ne hut] at hp
  by_cases hu : u = cfg.updater
  · subst hu
    exact hg.mono (apply_smr (hi.updater w (by rw [hb]; simp)) _) hsub
  · obtain ⟨_, off', p, rfl⟩ := hi.readers u hu w (by rw [hb]; simp)
    refine ⟨⟨?_, fun p hp => hg.shown.2 p (hsub p hp)⟩, hg.spared⟩
    change Function.update s.mem.smr.HP (slot u off') p (slot t off) = some n
    by_cases hslot : slot t off = slot u off'
    · obtain rfl := slot_inj hslot
      rw [← hslot, Function.update_self]
      exact hg.shown.2 p (by rw [hb, hslot]; simp)
    · rw [Function.update_of_ne hslot]
      exact hg.shown.1

theorem Guarded.step {a : Act β} {off : Bool} (hg : Guarded s t (slot t off) n) (hi : Inv cfg s) (ht : t < cfg.nbthreads)
    (htu : t ≠ cfg.updater) (hs : HazardTso.step bar cfg s a = some s') (ho : ¬ Overwrites s t (slot t off) a) :
    Guarded s' t (slot t off) n := by
  simp only [HazardTso.step, Option.ite_none_right_eq_some] at hs
  obtain ⟨_, hs⟩ := hs
  cases a with
  | updater a => exact hg.update hi (slot_lt ht off) htu hs
  | read u => exact hg.read hs ho
  | drain u => exact hg.drain hi hs
  | call u k b l =>
    simp only [Option.ite_none_right_eq_some] at hs
    obtain ⟨_, hs⟩ := hs
    split at hs <;> cases hs <;> exact hg.mono rfl fun p hp => hp

theorem inv_reachable (hs : Reachable (OrderedStep bar cfg) (HazardTso.init β) s) : Inv cfg s :=
  hs.invariant (Inv.init cfg) fun _ _ _ hi hr => hi.step hr

/-- A node that a reader finds first in its bucket is not at stake in the scan in progress. -/
theorem Inv.guards {b : β} {off : Bool} (hi : Inv cfg s) (ht : t < cfg.nbthreads) (htu : t ≠ cfg.updater)
    (hhead : s.mem.mem.heads b = some n) (hsh : Shown s t (slot t off) n) : Guarded s t (slot t off) n := by
  obtain ⟨h, hv⟩ := hi.seen
  refine ⟨hsh, ?_⟩
  have hnot : n ∉ h.passed (slot t off) := by
    intro hm
    rw [← hv.rep.passed_eq, hi.seen_smr] at hm
    exact hi.stake t off ht htu n hm s.mem (Tso.ahead_mem s _) b hhead
  rw [← hi.seen_smr]
  exact hv.rep.spares_iff.mpr (Hoard.spares_of_passed hnot)

end inv

/-- Where stores reach memory in time, a hazard pointer that was validated on the first node of a bucket
protects it: no scan hands the node to `free_node` before the reader stores to the slot again. -/
theorem ordered_protects (cfg : Config) {s s' u : Machine β} {t i : Nat} {n : Addr}
    (hs : Reachable (OrderedStep atomicH cfg) (init β) s) (hval : Validates atomicH cfg s t n i s') (hm : Meets cfg s (.read t))
    (hrun : Reachable (fun s a s' => OrderedStep atomicH cfg s a s' ∧ ¬ Overwrites s t i a) s' u) :
    ∀ t' plist tmplist, u.mem.smr.call ≠ some (t', .freeNode plist tmplist n) := by
  obtain ⟨k, b, b', l, hrd, hprev, hhead, rfl, rfl, hread⟩ := hval
  have hi := inv_reachable hs
  obtain ⟨ht, htu⟩ := hi.threads hrd
  have hg : Guarded s t (slot t l.off) l.cur :=
    hi.guards ht htu (by rwa [← hi.reader_mem htu]) (hm k b b' l hrd hprev hhead)
  have hno : ¬ Overwrites s t (slot t l.off) (.read t) := by
    rintro ⟨_, k', b', l', hrd', _⟩
    cases hrd.symm.trans hrd'
  obtain ⟨_, hgu⟩ : Inv cfg u ∧ Guarded u t (slot t l.off) l.cur :=
    hrun.invariant (P := fun v => Inv cfg v ∧ Guarded v t (slot t l.off) l.cur)
      ⟨hi.step ⟨hread, hm⟩, hg.step hi ht htu hread hno⟩
      fun v a v' ⟨hiv, hgv⟩ ⟨hr, ho⟩ => ⟨hiv.step hr, hgv.step hiv ht htu hr.1 ho⟩
  intro t' plist tmp hc
  have hsp := hgu.spared
  unfold Smr.Spares at hsp
  rw [hc] at hsp
  exact hsp.1 rfl

section runs

/-- One access of the updater, whose store reaches memory at once. -/
abbrev stored : List (Act Unit) := [.updater .update, .drain 0]

/-- `insert(k)` into the empty bucket. -/
abbrev insertFirst (k : Int) (n : Addr) : List (Act Unit) :=
  [Act.updater (.begin .insert k ()), .updater .update, .updater .update, .updater (.alloc n)] ++ stored ++ stored ++ stored ++
    [Act.updater .update]

/-- `delete(k)` of the first node, up to its store. -/
abbrev deleteFirst (k : Int) : List (Act Unit) := .updater (.begin .delete k ()) :: List.replicate 7 (.updater .update)

/-- A search that finds node 0, stores it to its slot and gets to the test. -/
abbrev findFirst : List (Act Unit) := [.call 1 3 () ⟨.head (), 0, none, false⟩, .read 1, .read 1]

/-- The reader on thread 1 is to test `*head == cur`, which holds, with `cur = 0`. -/
def atTest (s : Machine Unit) : Bool :=
  decide (s.mem.rd 1 = .run .check 3 () ⟨.head (), 0, none, false⟩) && decide ((seen s 1).mem.heads () = some 0)

theorem validates {s s' : Machine Unit} (h : atTest s) (hs : step atomicH twoThreads s (.read 1) = some s') :
    Validates atomicH twoThreads s 1 0 3 s' := by
  simp only [atTest, Bool.and_eq_true, decide_eq_true_eq] at h
  exact ⟨3, (), (), _, h.1, rfl, h.2, rfl, rfl, hs⟩

/-- No test of a reader, and a scan only while nothing is linked and no store of the updater is pending. -/
def calm (s : Machine Unit) : Act Unit → Bool
  | .updater .scan => (s.buf 0).isEmpty && (s.mem.mem.heads ()).isNone
  | .read t => match s.mem.rd t with
    | .run .check _ _ _ => false
    | _ => true
  | _ => true

theorem calm_meets {s : Machine Unit} {a : Act Unit} (h : calm s a) : Meets twoThreads s a := by
  cases a with
  | updater a =>
    cases a with
    | scan =>
      intro t i plist _ _ n _ m hm b
      simp only [calm, Bool.and_eq_true, List.isEmpty_iff, Option.isNone_iff_eq_none] at h
      obtain ⟨l, hl, rfl⟩ := hm
      obtain rfl : l = [] := by simpa [h.1] using hl
      simp [h.2]
    | _ => trivial
  | call | drain => trivial
  | read t =>
    intro k b b' l hrd
    simp [calm, hrd] at h

/-- The calm steps. -/
def calmStep : Machine Unit → Act Unit → Option (Machine Unit) := checked (step atomicH twoThreads) calm

theorem calmStep_ordered {s s' : Machine Unit} {a : Act Unit} (h : calmStep s a = some s') :
    OrderedStep atomicH twoThreads s a s' :=
  (checked_iff.mp h).imp_right calm_meets

def reads : Act Unit → Bool
  | .read _ => true
  | _ => false

/-- 112 nodes come and go. -/
abbrev passing : List (Act Unit) :=
  ((List.range 112).map fun i => insertFirst 3 (i + 1) ++ deleteFirst 3 ++ Act.drain 0 :: List.replicate 2 (.updater .update)).flatten

/-- `free_node_later` of the deleted node, and the slots that its scan loads. -/
abbrev scanSlots : List (Act Unit) := .updater .update :: List.replicate (H + 1) (.updater .scan)

/-- Node 0 is deleted, and 112 further nodes come and go, until a scan starts, which frees these. -/
abbrev deletedRun : List (Act Unit) :=
  deleteFirst 3 ++ Act.drain 0 :: List.replicate 2 (.updater .update) ++ passing.dropLast.dropLast ++ scanSlots ++
    Act.updater .scan :: (List.replicate 112 [Act.updater .scan, .updater (.free none)]).flatten ++
    [Act.updater .scan, .updater .scan, .updater .update]

/-- The reader finds a node that was inserted, and its hazard pointer is in memory in time: when the node has
been deleted, the scan spares it. -/
theorem ordered_protects_found : ∃ (s s' u : Machine Unit) (tr : List (Act Unit × Machine Unit)),
    Validates atomicH twoThreads s 1 0 3 s' ∧ Run (OrderedStep atomicH twoThreads) s' tr u ∧
    u.mem.mem.heads () = none ∧ u.mem.smr.freed.length = 112 ∧ (u.mem.smr.zlist 0).p = some 0 ∧
    ∀ v ∈ states s' tr, ∀ t plist tmplist, v.mem.smr.call ≠ some (t, .freeNode plist tmplist 0) := by
  have h : (exec calmStep (init Unit) (insertFirst 3 0 ++ findFirst ++ [Act.drain 1])).any fun s =>
      atTest s && decide (s.mem.smr.HP 3 = some 0) && (s.buf 1).isEmpty &&
      (step atomicH twoThreads s (.read 1)).any fun s' => (exec calmStep s' deletedRun).any fun u =>
        decide (u.mem.mem.heads () = none) && decide (u.mem.smr.freed.length = 112) &&
        decide ((u.mem.smr.zlist 0).p = some 0) := by
    decide +kernel
  obtain ⟨s, hs, hp⟩ := (Option.any_eq_true _ _).mp h
  simp only [Bool.and_eq_true, decide_eq_true_eq, List.isEmpty_iff] at hp
  obtain ⟨⟨⟨htest, hHP⟩, hbuf⟩, hp⟩ := hp
  obtain ⟨s', hs', hp⟩ := (Option.any_eq_true _ _).mp hp
  obtain ⟨u, hu, hp⟩ := (Option.any_eq_true _ _).mp hp
  simp only [Bool.and_eq_true, decide_eq_true_eq] at hp
  have hval := validates htest hs'
  have hm : Meets twoThreads s (.read 1) := by
    intro k b b' l hrd _ _
    simp only [atTest, Bool.and_eq_true, decide_eq_true_eq] at htest
    cases hrd.symm.trans htest.1
    exact ⟨hHP, fun p hp => by rw [hbuf] at hp; cases hp⟩
  refine ⟨s, s', u, _, hval, (exec_run hu).mono fun _ _ _ => calmStep_ordered, hp.1.1, hp.1.2, hp.2, fun v hv => ?_⟩
  -- none of the steps is the reader's
  have hquiet := (exec_run hu).guarded (G := fun a => reads a = false) fun e he => by
    simpa using List.all_eq_true.mp (show deletedRun.all (!reads ·) by decide +kernel) e.1 (execTrace_label he)
  obtain ⟨tr, _, hrun⟩ := hquiet.upTo hv
  refine ordered_protects twoThreads ⟨_, (exec_run hs).mono fun _ _ _ => calmStep_ordered⟩ hval hm
    ⟨tr, hrun.mono fun v a w hr => ⟨calmStep_ordered hr.1, ?_⟩⟩
  rintro ⟨rfl, _⟩
  cases hr.2

/-- 112 nodes come and go, and node 0 comes. -/
abbrev manyNodes : List (Act Unit) := passing ++ insertFirst 3 0

/-- A scan hands node 0 to `free_node`. -/
def frees (s : Machine Unit) : Bool :=
  match s.mem.smr.call with
  | some (_, .freeNode _ _ cur) => decide (cur = 0)
  | _ => false

/-- From the test on, the steps `post` lead to where node 0 is freed. -/
def freedBy (post : List (Act Unit)) (s : Machine Unit) : Bool :=
  atTest s && (step atomicH twoThreads s (.read 1)).any fun s' => (exec (step atomicH twoThreads) s' post).any frees

/-- Node 0 is handed to `free_node` after the reader on thread 1 validated it, and before it stores to slot 3 again. -/
def Unprotected (s : Machine Unit) : Prop :=
  Reachable (Steps (step atomicH twoThreads)) (init Unit) s ∧ ∃ s' u, Validates atomicH twoThreads s 1 0 3 s' ∧
    Reachable (fun s a s' => step atomicH twoThreads s a = some s' ∧ ¬ Overwrites s 1 3 a) s' u ∧
    ∃ t plist tmplist, u.mem.smr.call = some (t, .freeNode plist tmplist 0)

theorem unprotected {pre post : List (Act Unit)} {s : Machine Unit} (hs : exec (step atomicH twoThreads) (init Unit) pre = some s)
    (hpost : post.all (!reads ·)) (h : freedBy post s) : Unprotected s := by
  simp only [freedBy, Bool.and_eq_true] at h
  obtain ⟨s', hs', h'⟩ := (Option.any_eq_true _ _).mp h.2
  obtain ⟨u, hu, hf⟩ := (Option.any_eq_true _ _).mp h'
  have hrun := (exec_run hu).guarded (G := fun a => reads a = false) fun e he => by
    simpa using List.all_eq_true.mp hpost e.1 (execTrace_label he)
  refine ⟨⟨_, exec_run hs⟩, s', u, validates h.1 hs', ⟨_, hrun.mono fun v a v' hr => ⟨hr.1, ?_⟩⟩, ?_⟩
  · rintro ⟨rfl, _⟩
    cases hr.2
  · unfold frees at hf
    split at hf
    · rename_i t plist tmp cur hcall
      exact ⟨t, plist, tmp, of_decide_eq_true hf ▸ hcall⟩
    · cases hf

/-- The barriers order neither side: the scan frees a node whose hazard pointer is still in the buffer of the
reader that validated it, and one that it took off the list with a store that is still in its own buffer. -/
theorem barriers_unordered : (∃ s, Unprotected s ∧ .hazard 3 (some 0) ∈ s.buf 1) ∧
    ∃ s, Unprotected s ∧ s.mem.smr.HP 3 = some 0 ∧ s.buf 1 = [] := by
  have h : (exec (step atomicH twoThreads) (init Unit) manyNodes).any fun s =>
      ((exec (step atomicH twoThreads) s findFirst).any fun s => decide (.hazard 3 (some 0) ∈ s.buf 1) &&
        freedBy (deleteFirst 3 ++ Act.drain 0 :: scanSlots ++ [Act.updater .scan]) s) &&
      (exec (step atomicH twoThreads) s (deleteFirst 3 ++ scanSlots ++ findFirst ++ [Act.drain 1])).any fun s =>
        decide (s.mem.smr.HP 3 = some 0) && decide (s.buf 1 = []) && freedBy [.updater .scan] s := by
    decide +kernel
  obtain ⟨s, hs, hp⟩ := (Option.any_eq_true _ _).mp h
  rw [Bool.and_eq_true] at hp
  obtain ⟨s₁, hs₁, h₁⟩ := (Option.any_eq_true _ _).mp hp.1
  obtain ⟨s₂, hs₂, h₂⟩ := (Option.any_eq_true _ _).mp hp.2
  simp only [Bool.and_eq_true, decide_eq_true_eq] at h₁ h₂
  rw [← exec_append hs] at hs₁ hs₂
  exact ⟨⟨s₁, unprotected hs₁ (by decide +kernel) h₁.2, h₁.1⟩,
    s₂, unprotected hs₂ (by decide +kernel) h₂.2, h₂.1.1, h₂.1.2⟩

end runs

end HazardTso
end Gecos
