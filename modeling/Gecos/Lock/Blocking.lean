import Gecos.Library.Run
import Gecos.Library.SharedLock
import Gecos.Table.Walk
import Gecos.Table.WriterStep

/-! list_lock.c over list_writer.c with the locks of pthreads, LSPIN and RWLOCK: readers and
updaters wait for the lock of a bucket, and no load is validated. -/
namespace Gecos.ListPthread
open Library

/-- The builds: `pthread_spin_lock` for everybody, or `pthread_rwlock_rdlock` for readers. -/
inductive Build where
  | lspin
  | rwlock
  deriving DecidableEq

def Build.sharing : Build → Sharing
  | .lspin => .exclusive
  | .rwlock => .shared

/-- A reader in `search(k, &heads[b], &locks[b])`. -/
inductive Searcher (β : Type) where
  | idle
  | rlock (k : Int) (b : β)
  | head (k : Int) (b : β)
  | key (k : Int) (b : β) (cur : Addr)
  | next (k : Int) (b : β) (cur : Addr)
  | runlock (k : Int) (b : β) (res : Nat)
  | returned (res : Nat)
  deriving DecidableEq

namespace Searcher
variable {β : Type}

def loop (k : Int) (b : β) : Ptr → Searcher β
  | some cur => .key k b cur
  | none => .runlock k b 0

/-- One load of `search` under the lock. -/
def step (m : Mem β) : Searcher β → Option (Searcher β)
  | .head k b => some (loop k b (m.heads b))
  | .key k b cur => some (if k ≤ m.key cur then .runlock k b (if m.key cur = k then 1 else 0) else .next k b cur)
  | .next k b cur => some (loop k b (m.next cur))
  | _ => none

/-- The bucket whose lock the reader holds. -/
def holds : Searcher β → Option β
  | .head _ b | .key _ b _ | .next _ b _ | .runlock _ b _ => some b
  | .idle | .rlock .. | .returned _ => none

/-- The key that the reader looks for. -/
def wanted : Searcher β → Option (Int × β)
  | .rlock k b | .head k b | .key k b _ | .next k b _ | .runlock k b _ => some (k, b)
  | .idle | .returned _ => none

/-- What the locals of a reader say about the bucket that it has locked. -/
def Facts (m : Mem β) : Searcher β → Prop
  | .key k b cur => cur ∈ m.chain b ∧ (k ≤ m.key cur → (m.key cur = k ↔ m.Member b k))
  | .next k b cur => cur ∈ m.chain b ∧ m.key cur < k
  | .runlock k b res => res ≤ 1 ∧ (res = 1 ↔ m.Member b k)
  | _ => True

end Searcher

structure State (β υ ρ : Type) where
  mem : Mem β
  locks : β → SharedLock
  upd : υ → Writer β Unit
  rd : ρ → Searcher β

inductive Act (β υ ρ : Type) where
  | begin (u : υ) (op : Op) (k : Int) (b : β)
  | update (u : υ)
  | alloc (u : υ) (n : Addr)
  | call (r : ρ) (k : Int) (b : β)
  | read (r : ρ)

def State.init (β υ ρ : Type) : State β υ ρ := ⟨.init β, fun _ => .free, fun _ => .ready, fun _ => .idle⟩

section step
variable {β υ ρ : Type} [DecidableEq β] [DecidableEq υ] [DecidableEq ρ]

/-- A step of updater `u`, none while it waits. `free_node_later` is `free_node`, before the unlock. -/
def State.update (s : State β υ ρ) (u : υ) : Option (State β υ ρ) :=
  match s.upd u with
  | .wlock op k b => (s.locks b).wrlock.map fun l =>
    { s with locks := Function.update s.locks b l, upd := Function.update s.upd u (.loadHead op k b) }
  | .freeNodeLater b n () => some
    { s with
      mem := { s.mem with avail := Function.update s.mem.avail n true }
      upd := Function.update s.upd u (.wunlock b 1) }
  | .wunlock b res => some
    { s with
      locks := Function.update s.locks b (s.locks b).wrunlock
      upd := Function.update s.upd u (.returned res) }
  | w => (w.step () s.mem).map fun mw => { s with mem := mw.1, upd := Function.update s.upd u mw.2 }

/-- A step of reader `r`, none while it waits. -/
def State.read (B : Build) (s : State β υ ρ) (r : ρ) : Option (State β υ ρ) :=
  match s.rd r with
  | .rlock k b => ((s.locks b).rdlock B.sharing).map fun l =>
    { s with locks := Function.update s.locks b l, rd := Function.update s.rd r (.head k b) }
  | .runlock _ b res => some
    { s with
      locks := Function.update s.locks b (s.locks b).rdunlock
      rd := Function.update s.rd r (.returned res) }
  | x => (x.step s.mem).map fun x' => { s with rd := Function.update s.rd r x' }

def step (B : Build) (s : State β υ ρ) : Act β υ ρ → Option (State β υ ρ)
  | .begin u op k b => ((s.upd u).begin op k b).map fun w => { s with upd := Function.update s.upd u w }
  | .update u => s.update u
  | .alloc u n => ((s.upd u).alloc s.mem n).map fun mw =>
    { s with mem := mw.1, upd := Function.update s.upd u mw.2 }
  | .call r k b => match s.rd r with
    | .idle | .returned _ => some { s with rd := Function.update s.rd r (.rlock k b) }
    | _ => none
  | .read r => s.read B r

end step

variable {β υ ρ : Type} {B : Build} {s s' : State β υ ρ} {u v : υ} {r : ρ} {m m' : Mem β}

/-- What a step of an updater does: an access outside the lock macros, or one of the calls. -/
inductive Updates [DecidableEq β] [DecidableEq υ] (s : State β υ ρ) (u : υ) : State β υ ρ → Prop where
  | access (m' : Mem β) (w' : Writer β Unit) : (s.upd u).step () s.mem = some (m', w') →
      Updates s u { s with mem := m', upd := Function.update s.upd u w' }
  | lock (op : Op) (k : Int) (b : β) (l : SharedLock) : s.upd u = .wlock op k b → (s.locks b).wrlock = some l →
      Updates s u { s with locks := Function.update s.locks b l, upd := Function.update s.upd u (.loadHead op k b) }
  | free (b : β) (n : Addr) : s.upd u = .freeNodeLater b n () →
      Updates s u { s with
        mem := { s.mem with avail := Function.update s.mem.avail n true }
        upd := Function.update s.upd u (.wunlock b 1) }
  | unlock (b : β) (res : Nat) : s.upd u = .wunlock b res →
      Updates s u { s with
        locks := Function.update s.locks b (s.locks b).wrunlock
        upd := Function.update s.upd u (.returned res) }

/-- What a step of a reader does. -/
inductive Reads [DecidableEq β] [DecidableEq ρ] (B : Build) (s : State β υ ρ) (r : ρ) : State β υ ρ → Prop where
  | access (x : Searcher β) : (s.rd r).step s.mem = some x → Reads B s r { s with rd := Function.update s.rd r x }
  | lock (k : Int) (b : β) (l : SharedLock) : s.rd r = .rlock k b → (s.locks b).rdlock B.sharing = some l →
      Reads B s r { s with locks := Function.update s.locks b l, rd := Function.update s.rd r (.head k b) }
  | unlock (k : Int) (b : β) (res : Nat) : s.rd r = .runlock k b res →
      Reads B s r { s with
        locks := Function.update s.locks b (s.locks b).rdunlock
        rd := Function.update s.rd r (.returned res) }

section updates
variable [DecidableEq β] [DecidableEq υ] [DecidableEq ρ]

omit [DecidableEq ρ] in
theorem update_cases (h : s.update u = some s') : Updates s u s' := by
  unfold State.update at h
  split at h
  case h_1 op k b hw =>
    obtain ⟨l, hl, rfl⟩ := Option.map_eq_some_iff.mp h
    exact .lock op k b l hw hl
  case h_2 b n hw =>
    cases h
    exact .free b n hw
  case h_3 b res hw =>
    cases h
    exact .unlock b res hw
  case h_4 =>
    obtain ⟨⟨m', w'⟩, hs, rfl⟩ := Option.map_eq_some_iff.mp h
    exact .access m' w' hs

omit [DecidableEq υ] in
theorem read_cases (h : s.read B r = some s') : Reads B s r s' := by
  unfold State.read at h
  split at h
  case h_1 k b hr =>
    obtain ⟨l, hl, rfl⟩ := Option.map_eq_some_iff.mp h
    exact .lock k b l hr hl
  case h_2 k b res hr =>
    cases h
    exact .unlock k b res hr
  case h_3 =>
    obtain ⟨x, hs, rfl⟩ := Option.map_eq_some_iff.mp h
    exact .access x hs

end updates

/-- The table is well formed, a lock says who is in its bucket, and a reader's locals are right. -/
structure Inv [DecidableEq β] [Fintype ρ] (B : Build) (s : State β υ ρ) : Prop where
  writers : Writers s.mem s.upd
  locked : Exclusion B.sharing s.locks (fun u => (s.upd u).inside) fun r => (s.rd r).holds
  facts : ∀ r, (s.rd r).Facts s.mem

namespace Searcher
variable {x x' : Searcher β} {k : Int} {b : β}

/-- A reader's facts depend on nothing but the bucket that it has locked. -/
theorem Facts.agree (h : x.Facts m) (ht : m.Table) (ht' : m'.Table) (ha : ∀ b, x.holds = some b → m.Agree m' b) :
    x.Facts m' := by
  cases x with
  | idle | rlock | head | returned => trivial
  | key k b cur =>
    obtain ⟨hc, hk⟩ := h
    have hag := ha b rfl
    refine ⟨by rwa [hag.chain], ?_⟩
    rwa [hag.key cur hc, hag.member ht ht']
  | next k b cur =>
    obtain ⟨hc, hk⟩ := h
    have hag := ha b rfl
    exact ⟨by rwa [hag.chain], by rwa [hag.key cur hc]⟩
  | runlock k b res =>
    obtain ⟨hle, hk⟩ := h
    exact ⟨hle, by rwa [(ha b rfl).member ht ht']⟩

/-- A load keeps the lock, the request and the facts. -/
theorem step_facts (h : x.Facts m) (ht : m.Table) (hs : x.step m = some x') :
    x'.Facts m ∧ x'.holds = x.holds ∧ x'.wanted = x.wanted := by
  cases x with
  | idle | rlock | runlock | returned => cases hs
  | head k b =>
    cases hs
    cases hh : m.heads b with
    | none => exact ⟨⟨by simp, by simp [ht.head_none hh]⟩, rfl, rfl⟩
    | some n => exact ⟨ht.head_some hh, rfl, rfl⟩
  | key k b cur =>
    obtain ⟨hc, hk⟩ := h
    cases hs
    split
    · rename_i hle
      refine ⟨?_, rfl, rfl⟩
      have hm := hk hle
      split
      · exact ⟨le_refl 1, by simp_all⟩
      · exact ⟨by simp, by simp_all⟩
    · exact ⟨⟨hc, by omega⟩, rfl, rfl⟩
  | next k b cur =>
    obtain ⟨hc, hk⟩ := h
    have ha := ht.around hc
    cases hs
    cases hx : m.next cur with
    | none => exact ⟨⟨by simp, by simp [ht.next_none ha hk hx]⟩, rfl, rfl⟩
    | some n => exact ⟨ht.next_some ha hk hx, rfl, rfl⟩

end Searcher

namespace Inv
variable [DecidableEq β] [Fintype ρ]

theorem init : Inv B (.init β υ ρ) where
  writers := .init
  locked := .init
  facts _ := trivial

/-- No updater is in a bucket that a reader has locked. -/
theorem reader_alone (h : Inv B s) {b : β} (hr : (s.rd r).holds = some b) (u : υ) : (s.upd u).inside ≠ some b :=
  fun hu => h.locked.apart hu hr

theorem wanted_answer (h : Inv B s) {k : Int} {b : β} {res : Nat} (hr : s.rd r = .runlock k b res) :
    res ≤ 1 ∧ (res = 1 ↔ s.mem.Member b k) := by
  have hf := h.facts r
  rwa [hr] at hf

variable [DecidableEq υ]

/-- Updater `u` moves while the locks stay as they are, and its bucket is all that it changes. -/
private theorem keep (h : Inv B s) {w' : Writer β Unit} (hw : Writers m' (Function.update s.upd u w'))
    (hin : w'.inside = (s.upd u).inside) (ha : ∀ b, (s.upd u).inside ≠ some b → s.mem.Agree m' b) :
    Inv B { s with mem := m', upd := Function.update s.upd u w' } := by
  refine ⟨hw, ?_, fun r => ?_⟩
  · have hsame : (fun v => (Function.update s.upd u w' v).inside) = fun v => (s.upd v).inside := by
      funext v
      by_cases hne : v = u
      · rw [hne, Function.update_self, hin]
      · rw [Function.update_of_ne hne]
    change Exclusion B.sharing s.locks (fun v => (Function.update s.upd u w' v).inside) fun r => (s.rd r).holds
    rw [hsame]
    exact h.locked
  · exact (h.facts r).agree h.writers.table hw.table fun b hb => ha b (h.reader_alone hb u)

omit [DecidableEq β] [Fintype ρ] in
private theorem inside_update (w : Writer β Unit) :
    (fun v => (Function.update s.upd u w v).inside) = Function.update (fun v => (s.upd v).inside) u w.inside :=
  Function.comp_update Writer.inside s.upd u w

omit [DecidableEq β] [Fintype ρ] [DecidableEq υ] in
private theorem agree_avail (m : Mem β) (b : β) (avail : Addr → Bool) : m.Agree { m with avail := avail } b :=
  ⟨rfl, fun _ _ => rfl, fun _ _ => rfl⟩

theorem update (h : Inv B s) (hs : Updates s u s') : Inv B s' := by
  cases hs with
  | access m' w' hw => exact h.keep (h.writers.step hw) (Writer.step_inside hw) fun b hb => h.writers.step_agree hw hb
  | free b n hw => exact h.keep (h.writers.giveUp hw rfl rfl rfl rfl) (by rw [hw]; rfl) fun b' _ => agree_avail s.mem b' _
  | lock op k b l hw hl =>
    have hout : (s.upd u).inside = none := by rw [hw]; rfl
    have hfree : ∀ v, (s.upd v).inside ≠ some b := by
      intro v hv
      have hheld := (h.locked b).writer v hv
      simp [SharedLock.wrlock, hheld] at hl
    refine ⟨h.writers.frame rfl rfl rfl (fun _ hn => .inl hn) (fun b' hb => .inr fun v => ?_) (by simp [Writer.inHand]) trivial,
      ?_, h.facts⟩
    · cases hb
      exact hfree v
    · change Exclusion B.sharing (Function.update s.locks b l)
        (fun v => (Function.update s.upd u (.loadHead op k b) v).inside) fun r => (s.rd r).holds
      rw [inside_update]
      exact h.locked.wrlock hout hl
  | unlock b res hw =>
    have hin : (s.upd u).inside = some b := by rw [hw]; rfl
    refine ⟨h.writers.stay (by simp [Writer.inside]) (by simp [Writer.inHand]) trivial, ?_, h.facts⟩
    change Exclusion B.sharing (Function.update s.locks b (s.locks b).wrunlock)
      (fun v => (Function.update s.upd u (.returned res) v).inside) fun r => (s.rd r).holds
    rw [inside_update]
    exact h.locked.wrunlock hin

theorem begin (h : Inv B s) {op : Op} {k : Int} {b : β} {w' : Writer β Unit} (hs : (s.upd u).begin op k b = some w') :
    Inv B { s with upd := Function.update s.upd u w' } := by
  have hout : (s.upd u).inside = none ∧ w'.inside = none ∧ w'.inHand = none ∧ w'.Facts s.mem := by
    unfold Writer.begin at hs
    split at hs
    case h_3 => cases hs
    all_goals
      rename_i hw
      rw [hw]
      cases op <;> cases hs <;> exact ⟨rfl, rfl, rfl, trivial⟩
  obtain ⟨hin, hin', hhand, hf⟩ := hout
  exact h.keep (h.writers.stay (by simp [hin']) (by simp [hhand]) hf) (hin'.trans hin.symm) fun b' _ =>
    agree_avail s.mem b' s.mem.avail

theorem alloc (h : Inv B s) {n : Addr} {w' : Writer β Unit} (hs : (s.upd u).alloc s.mem n = some (m', w')) :
    Inv B { s with mem := m', upd := Function.update s.upd u w' } := by
  unfold Writer.alloc at hs
  split at hs
  case h_2 => cases hs
  case h_1 k b prev cur hw =>
    split at hs
    case isFalse => cases hs
    case isTrue hav =>
      cases hs
      exact h.keep (h.writers.handOut hw hav rfl rfl id) (by rw [hw]; rfl) fun b' _ => agree_avail s.mem b' _

variable [DecidableEq ρ]

omit [DecidableEq υ] in
/-- Reader `r` moves on. -/
private theorem put {locks' : β → SharedLock} {x : Searcher β} (h : Inv B s)
    (hl : Exclusion B.sharing locks' (fun u => (s.upd u).inside) (Function.update (fun r => (s.rd r).holds) r x.holds))
    (hf : x.Facts s.mem) : Inv B { s with locks := locks', rd := Function.update s.rd r x } := by
  refine ⟨h.writers, ?_, fun r' => ?_⟩
  · have hupd : (fun r' => (Function.update s.rd r x r').holds) = Function.update (fun r => (s.rd r).holds) r x.holds :=
      Function.comp_update Searcher.holds s.rd r x
    change Exclusion B.sharing locks' (fun u => (s.upd u).inside) fun r' => (Function.update s.rd r x r').holds
    rwa [hupd]
  · change (Function.update s.rd r x r').Facts s.mem
    by_cases hne : r' = r
    · rwa [hne, Function.update_self]
    · rw [Function.update_of_ne hne]
      exact h.facts r'

omit [DecidableEq υ] in
theorem read (h : Inv B s) (hs : Reads B s r s') : Inv B s' := by
  cases hs with
  | access x hx =>
    obtain ⟨hf, hh, _⟩ := Searcher.step_facts (h.facts r) h.writers.table hx
    refine h.put ?_ hf
    rw [hh, Function.update_eq_self r fun r => (s.rd r).holds]
    exact h.locked
  | lock k b l hr hl =>
    have hout : (s.rd r).holds = none := by rw [hr]; rfl
    exact h.put (h.locked.rdlock hout hl) trivial
  | unlock k b res hr =>
    have hin : (s.rd r).holds = some b := by rw [hr]; rfl
    exact h.put (h.locked.rdunlock hin) trivial

theorem step {a : Act β υ ρ} (h : Inv B s) (hs : step B s a = some s') : Inv B s' := by
  cases a with
  | begin u op k b =>
    obtain ⟨w', hw, rfl⟩ := Option.map_eq_some_iff.mp hs
    exact h.begin hw
  | update u => exact h.update (update_cases hs)
  | alloc u n =>
    obtain ⟨⟨m', w'⟩, hw, rfl⟩ := Option.map_eq_some_iff.mp hs
    exact h.alloc hw
  | call r k b =>
    have hput (hout : (s.rd r).holds = none) : Inv B { s with rd := Function.update s.rd r (.rlock k b) } := by
      have hl := h.locked
      rw [← Function.update_eq_self r fun r => (s.rd r).holds, hout] at hl
      exact h.put hl trivial
    simp only [ListPthread.step] at hs
    split at hs <;> cases hs
    all_goals
      rename_i hr
      exact hput (by rw [hr]; rfl)
  | read r => exact h.read (read_cases hs)

end Inv

variable [DecidableEq β] [DecidableEq υ] [DecidableEq ρ] [Fintype ρ]

theorem inv_reachable (h : Reachable (Steps (step B)) (.init β υ ρ) s) : Inv B s :=
  h.invariant Inv.init fun _ _ _ hi hr => hi.step hr

end Gecos.ListPthread
