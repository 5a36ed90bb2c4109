import Gecos.Hazard.Accounts
import Gecos.Allocation.Allocator
import Gecos.Table.Sequential

/-! hp.c and list_writer.c over allocator_malloc.c, with one updater: retirement and the free
lists share the field `mr_next`. The hazard slots may change at any time. -/
namespace Gecos.Composed
open Library Hazard

/-- `pool` holds the only copy of the `mr_next` fields. Ghosts: the nodes retired and the nodes
freed so far, and the nodes that `calloc` returned. -/
structure State (β : Type) where
  mem : Mem β
  pool : Pool
  HP : Nat → Ptr
  zlist : Nat → ZombieList
  call : Option (Nat × Scan Ptr)
  retired : List Addr
  freed : List Addr
  obtained : List Addr

namespace State
variable {β : Type}

def init (β : Type) : State β := ⟨.init β, .init, fun _ => none, fun _ => ⟨none, 0⟩, none, [], [], []⟩

/-- What hp.c sees of the memory. -/
def smr (s : State β) : Smr := ⟨s.HP, s.pool.mrNext, s.zlist, s.call, s.retired, s.freed⟩

/-- What hp.c does to the memory. -/
def withSmr (s : State β) (m : Smr) : State β :=
  { s with
    pool := { s.pool with mrNext := m.mrNext }, HP := m.HP, zlist := m.zlist, call := m.call,
    retired := m.retired, freed := m.freed }

/-- The `tmplist` of a running scan. -/
def tmplist (s : State β) : Ptr :=
  match s.call with
  | some (_, .sweep _ tmplist) | some (_, .freeNode _ tmplist _) => tmplist
  | _ => none

variable [DecidableEq β]

/-- `insert(k, &heads[b], _)`, where `calloc`, if it is asked, returns `fresh`. -/
def insert (s : State β) (k : Int) (b : β) (fresh : Addr) : Option (State β) :=
  let (prev, cur) := s.mem.find s.obtained.length k b
  if cur.any (s.mem.key · = k) then some s
  else
    let (pool, new) := s.pool.newNode fresh
    let s' : State β := { s with pool, mem := s.mem.linkNew k prev cur new }
    if s.pool.getFree.2.isSome then some s'
    else if fresh ∈ s.obtained then none
    else some { s' with obtained := fresh :: s.obtained }

/-- `delete(k, &heads[b], _)` of the updater `thread`, up to the scan it may start, with the node that it
passes to `free_node_later`. -/
def delete (nbthreads thread : Nat) (s : State β) (k : Int) (b : β) : State β × Ptr :=
  if s.mem.heads b = none then (s, none)
  else match s.mem.find s.obtained.length k b with
    | (_, none) => (s, none)
    | (prev, some cur) =>
      if s.mem.key cur = k then
        ({ s with mem := s.mem.unlink prev cur }.withSmr (s.smr.retire nbthreads thread cur), some cur)
      else (s, none)

/-- `free_node(cur)` of the scan, and `cur`. -/
def free (s : State β) : Option (State β × Addr) :=
  match s.call with
  | some (t, .freeNode plist tmplist cur) => some ({ s with
      mem := { s.mem with avail := Function.update s.mem.avail cur true },
      pool := s.pool.freeNode cur, call := some (t, .sweep plist tmplist) }, cur)
  | _ => none

end State

inductive Act (β : Type) where
  | insert (k : Int) (b : β) (fresh : Addr)
  | delete (k : Int) (b : β)
  | scan
  | free
  | publish (i : Nat) (v : Ptr)
  deriving DecidableEq

section step
variable {β : Type} [DecidableEq β]

/-- A call of the updater begins when the one before has returned; whoever writes a hazard slot
may do so in between any two steps. What is retired and what is freed is logged here. -/
def step (nbthreads thread : Nat) (s : State β) : Act β → Option (State β)
  | .insert k b fresh => if s.call = none then s.insert k b fresh else none
  | .delete k b =>
    if s.call = none then
      let (s', cur) := s.delete nbthreads thread k b
      some { s' with retired := s'.retired ++ cur.toList }
    else none
  | .scan => s.smr.scan.map s.withSmr
  | .free => s.free.map fun (s', cur) => { s' with freed := s'.freed ++ [cur] }
  | .publish i v => some (s.withSmr (s.smr.publish i v))

/-- The chains of `mr_next` that end, and share no node. -/
def State.Separate (s : State β) (thread : Nat) : Prop :=
  ∃ lfl freelist zombies tmplist, Chain s.pool.mrNext s.pool.lfl lfl ∧
    Chain s.pool.mrNext s.pool.freelist freelist ∧ Chain s.pool.mrNext (s.zlist thread).p zombies ∧
    Chain s.pool.mrNext s.tmplist tmplist ∧ [lfl, freelist, zombies, tmplist].Pairwise List.Disjoint

/-- A node that was retired, as far as the chains tell. -/
def State.Retained (s : State β) (thread : Nat) (n : Addr) : Prop :=
  Reach s.pool.mrNext (s.zlist thread).p n ∨ Reach s.pool.mrNext s.tmplist n

/-- Neither chain of retired nodes gains or loses a node. -/
def SameRetained (thread : Nat) (s s' : State β) : Prop :=
  ∀ n, (Reach s'.pool.mrNext (s'.zlist thread).p n ↔ Reach s.pool.mrNext (s.zlist thread).p n) ∧
    (Reach s'.pool.mrNext s'.tmplist n ↔ Reach s.pool.mrNext s.tmplist n)

def Act.isCall : Act β → Bool
  | .insert .. | .delete .. => true
  | .scan | .free | .publish .. => false

/-- What the two modules owe each other in a run. -/
structure Undisturbed (nbthreads thread : Nat) (tr : List (Act β × State β)) : Prop where
  separate : ∀ s ∈ states (.init β) tr, s.Separate thread
  same : ∀ tr₁ s s', tr₁ ++ [(.free, s')] <+: tr → Run (Steps (step nbthreads thread)) (.init β) tr₁ s →
    SameRetained thread s s'
  /-- A scan keeps or frees each zombie that it finds. -/
  settled : ∀ tr₁ tr₂ s s', tr₁ ++ tr₂ <+: tr → Run (Steps (step nbthreads thread)) (.init β) tr₁ s →
    Run (Steps (step nbthreads thread)) s tr₂ s' → s.call = some (thread, .test 0 []) →
    (∀ e ∈ tr₂, e.1.isCall = false) → s'.call = none →
    ∃ fs, s'.freed = s.freed ++ fs ∧ ∀ n, Reach s.pool.mrNext (s.zlist thread).p n →
      (Reach s'.pool.mrNext (s'.zlist thread).p n ↔ n ∉ fs)

/-- The condition on the state before a call of `free_node`: if it flushes while `lfl_tail` is
among the retired nodes, then the flush writes to `lfl_tail->mr_next` what is there already. -/
def State.Clear (s : State β) (thread : Nat) : Act β → Prop
  | .free => ∀ t plist tmplist cur, s.call = some (t, .freeNode plist tmplist cur) →
      amortFreeOn ≤ s.pool.lcnt + 1 → s.Retained thread (s.pool.tail cur) →
      s.pool.mrNext (s.pool.tail cur) = s.pool.freelist
  | _ => True

/-- The steps that meet the condition. -/
def ClearStep (nbthreads thread : Nat) (s : State β) (a : Act β) (s' : State β) : Prop :=
  step nbthreads thread s a = some s' ∧ s.Clear thread a

/-- The lists behind the pointers: retired nodes, free nodes and linked nodes are apart. -/
structure Inv (thread : Nat) (s : State β) (h : Hoard) (l g : List Addr) : Prop where
  rep : Rep s.smr h
  accounts : h.Accounts
  caller : ∀ t sc, h.call = some (t, sc) → t = thread
  others : ∀ t, t ≠ thread → h.zombies t = []
  lists : s.pool.Lists l g
  table : s.mem.Table
  free : ∀ n, n ∈ l ∨ n ∈ g → ¬ h.Waits n
  linked : ∀ n b, n ∈ s.mem.chain b → ¬ h.Waits n ∧ n ∉ l ∧ n ∉ g
  obtained : ∀ n, (n ∈ l ∨ n ∈ g ∨ h.Waits n ∨ ∃ b, n ∈ s.mem.chain b) → n ∈ s.obtained

variable {nbthreads thread : Nat} {s s' : State β} {h : Hoard} {l g : List Addr} {k : Int} {b : β}
  {fresh : Addr}

omit [DecidableEq β] in
theorem Inv.init : Inv thread (.init β) .init [] [] where
  rep := .init
  accounts := .init
  caller t sc hc := by simp [Hoard.init] at hc
  others t _ := rfl
  lists := .init
  table := .init
  free n hn := by simp at hn
  linked n b hn := by
    have hc : (Mem.init β).chain b = [] := Mem.chain_eq rfl
    simp [State.init, hc] at hn
  obtained n hn := by
    have hc (b : β) : (Mem.init β).chain b = [] := Mem.chain_eq rfl
    have hw : ¬ Hoard.init.Waits n := Hoard.Accounts.init.not_waits rfl
    simp [State.init, hc, hw] at hn

omit [DecidableEq β] in
/-- The search of `insert` and `delete` never runs out of nodes to count. -/
theorem Inv.chain_length (hi : Inv thread s h l g) (b : β) : (s.mem.chain b).length ≤ s.obtained.length := by
  have hnd : (s.mem.chain b).Nodup := Chain.nodup (hi.table.ends b)
  have hsub : s.mem.chain b ⊆ s.obtained := fun n hn => hi.obtained n (.inr (.inr (.inr ⟨b, hn⟩)))
  exact (hnd.subperm hsub).length_le

omit [DecidableEq β] in
theorem Inv.zombies (hi : Inv thread s h l g) : Chain s.pool.mrNext (s.zlist thread).p (h.zombies thread) :=
  (hi.rep.zombies thread).chain

theorem Inv.insert (hi : Inv thread s h l g) (hs : s.insert k b fresh = some s') :
    ∃ l g, Inv thread s' h l g := by
  obtain ⟨l₁, l₂, hp, hcur, hge⟩ := hi.table.find k (hi.chain_length b)
  unfold State.insert at hs
  generalize hf : s.mem.find s.obtained.length k b = r at hs hp hcur
  obtain ⟨prev, cur⟩ := r
  obtain rfl : cur = l₂.head? := hcur
  simp only at hs
  split at hs
  · cases hs
    exact ⟨l, g, hi⟩
  rename_i hkey
  have habove : ∀ x ∈ l₂, k < s.mem.key x := by
    cases l₂ with
    | nil => simp
    | cons c l₂ =>
      have hc := hge c (by simp)
      have hne : s.mem.key c ≠ k := by simpa using hkey
      intro x hx
      rcases List.mem_cons.mp hx with rfl | hx
      · omega
      · have := (hi.table.below_above hp.split).2 x hx
        omega
  obtain ⟨l', g', hlists, hsub, hl', hg', hnew, hmr⟩ := hi.lists.newNode fresh
  generalize hr : s.pool.newNode fresh = r at hs hlists hl' hg' hnew hmr
  obtain ⟨pool, new⟩ := r
  simp only at hs hlists hl' hg' hnew hmr
  obtain ⟨obtained, rfl, hseen, hfresh⟩ : ∃ obtained, s' = { s with
      pool, mem := s.mem.linkNew k prev l₂.head? new, obtained } ∧ (∀ n ∈ s.obtained, n ∈ obtained) ∧
      (s.pool.getFree.2 = none → fresh ∉ s.obtained ∧ fresh ∈ obtained) := by
    cases hf : s.pool.getFree.2 with
    | some n =>
      simp only [hf, Option.isSome_some, if_true] at hs
      cases hs
      exact ⟨s.obtained, rfl, fun n hn => hn, by simp⟩
    | none =>
      simp only [hf, Option.isSome_none, Bool.false_eq_true, if_false] at hs
      split at hs <;> cases hs
      rename_i hno
      exact ⟨fresh :: s.obtained, rfl, fun n hn => by simp [hn], fun _ => ⟨hno, by simp⟩⟩
  -- the node comes from the free lists, or has never been seen
  have hoff : ¬ h.Waits new ∧ (∀ b, new ∉ s.mem.chain b) ∧ new ∈ obtained := by
    rcases hnew with hn | hn | ⟨hn, rfl⟩
    · exact ⟨hi.free new (.inl hn), fun b hb => (hi.linked new b hb).2.1 hn, hseen new (hi.obtained new (.inl hn))⟩
    · exact ⟨hi.free new (.inr hn), fun b hb => (hi.linked new b hb).2.2 hn,
        hseen new (hi.obtained new (.inr (.inl hn)))⟩
    · have hno := (hfresh hn).1
      exact ⟨fun hw => hno (hi.obtained new (.inr (.inr (.inl hw)))),
        fun b hb => hno (hi.obtained new (.inr (.inr (.inr ⟨b, hb⟩)))), (hfresh hn).2⟩
  obtain ⟨htable, hchain, hother⟩ := hi.table.linkNew hp habove hoff.2.1
  have hmem (n : Addr) (b' : β) (hn : n ∈ (s.mem.linkNew k prev l₂.head? new).chain b') :
      n = new ∨ n ∈ s.mem.chain b' := by
    by_cases hb : b' = b
    · subst hb
      rw [hchain] at hn
      rw [hp.split]
      simp only [List.mem_append, List.mem_cons] at hn ⊢
      tauto
    · rw [hother b' hb] at hn
      exact .inr hn
  refine ⟨l', g', ?_, hi.accounts, hi.caller, hi.others, hlists, htable, fun n hn => hi.free n (hsub n hn),
    fun n b' hn => ?_, fun n hn => ?_⟩
  · exact hi.rep.frame _ fun n hw => hmr n fun hf he =>
      (hfresh hf).1 (hi.obtained fresh (.inr (.inr (.inl (he ▸ hw)))))
  · rcases hmem n b' hn with rfl | hn
    · exact ⟨hoff.1, hl', hg'⟩
    · obtain ⟨hw, hl, hg⟩ := hi.linked n b' hn
      have := hsub n
      exact ⟨hw, by tauto, by tauto⟩
  · rcases hn with hn | hn | hn | ⟨b', hn⟩
    · exact hseen n (hi.obtained n (by have := hsub n (.inl hn); tauto))
    · exact hseen n (hi.obtained n (by have := hsub n (.inr hn); tauto))
    · exact hseen n (hi.obtained n (.inr (.inr (.inl hn))))
    · rcases hmem n b' hn with rfl | hn
      · exact hoff.2.2
      · exact hseen n (hi.obtained n (.inr (.inr (.inr ⟨b', hn⟩))))

omit [DecidableEq β] in
theorem Inv.nothing_retired (hi : Inv thread s h l g) :
    ∃ h, Inv thread { s with retired := s.retired ++ [] } h l g := by
  rw [List.append_nil]
  exact ⟨h, hi⟩

theorem Inv.delete (hi : Inv thread s h l g) (hs : step nbthreads thread s (.delete k b) = some s') :
    ∃ h, Inv thread s' h l g := by
  simp only [Composed.step] at hs
  split at hs <;> cases hs
  rename_i hcall
  obtain ⟨l₁, l₂, hp, hcur, hge⟩ := hi.table.find k (hi.chain_length b)
  unfold State.delete
  split
  · exact hi.nothing_retired
  split
  · exact hi.nothing_retired
  rename_i prev cur hf
  rw [hf] at hp hcur
  split
  swap
  · exact hi.nothing_retired
  obtain ⟨l₃, rfl⟩ : ∃ l₃, l₂ = cur :: l₃ := by
    cases l₂ with
    | nil => simp at hcur
    | cons c l₃ => cases hcur; exact ⟨l₃, rfl⟩
  have hc : cur ∈ s.mem.chain b := by simp [hp.split]
  obtain ⟨hw, hl, hg⟩ := hi.linked cur b hc
  obtain ⟨htable, hchain, hother⟩ := hi.table.unlink hp
  have hnone : h.call = none := hi.rep.call_none.mp hcall
  have hwaits := @Hoard.retire_waits nbthreads h thread cur hnone
  have hmem (n : Addr) (b' : β) (hn : n ∈ (s.mem.unlink prev cur).chain b') : n ∈ s.mem.chain b' ∧ n ≠ cur := by
    by_cases hb : b' = b
    · subst hb
      have hnd : (s.mem.chain b').Nodup := Chain.nodup (hi.table.ends b')
      rw [hchain] at hn
      rw [hp.split] at hnd ⊢
      grind
    · rw [hother b' hb] at hn
      exact ⟨hn, fun he => hb (hi.table.apart b' b cur (he ▸ hn) hc)⟩
  refine ⟨(h.retire nbthreads thread cur).logRetired cur, (hi.rep.retire hw).logRetired cur,
    hi.accounts.retire hnone hw, fun t sc hsc => ?_, fun t ht => ?_, hi.lists.frame fun n hn => Function.update_of_ne (by rintro rfl; tauto) _ _, htable,
    fun n hn => ?_, fun n b' hn => ?_, fun n hn => ?_⟩
  · simp only [Hoard.retire, Hoard.logRetired] at hsc
    split at hsc <;> cases hsc
    rfl
  · simpa [Hoard.retire, Hoard.logRetired, Function.update_of_ne ht] using hi.others t ht
  · rw [Hoard.logRetired_waits, hwaits, not_or]
    exact ⟨by rintro rfl; tauto, hi.free n hn⟩
  · obtain ⟨hn, hne⟩ := hmem n b' hn
    rw [Hoard.logRetired_waits, hwaits, not_or]
    obtain ⟨hw', hl', hg'⟩ := hi.linked n b' hn
    exact ⟨⟨hne, hw'⟩, hl', hg'⟩
  · rw [Hoard.logRetired_waits, hwaits] at hn
    rcases hn with hn | hn | (rfl | hn) | ⟨b', hn⟩
    · exact hi.obtained n (.inl hn)
    · exact hi.obtained n (.inr (.inl hn))
    · exact hi.obtained n (.inr (.inr (.inr ⟨b, hc⟩)))
    · exact hi.obtained n (.inr (.inr (.inl hn)))
    · exact hi.obtained n (.inr (.inr (.inr ⟨b', (hmem n b' hn).1⟩)))

omit [DecidableEq β] in
theorem Inv.scan {m : Smr} (hi : Inv thread s h l g) (hs : s.smr.scan = some m) :
    ∃ h, Inv thread (s.withSmr m) h l g := by
  obtain ⟨h', hh, hrep, hframe⟩ := hi.rep.scan hi.accounts hs
  obtain ⟨_, _, hw⟩ := hi.accounts.scan_places hh
  have hacc := hi.accounts.scan hh
  obtain ⟨t, sc, zs, sc', hc, hl, rfl⟩ := Hoard.scan_eq hh
  obtain ⟨_, _, _, _, _, _, _, rfl⟩ := Smr.scan_eq hs
  obtain rfl := hi.caller t sc hc
  refine ⟨_, hrep, hacc, ?_, fun u hu => ?_, hi.lists.frame fun n hn => hframe n (hi.free n hn), hi.table,
    fun n hn => ?_, fun n b hn => ?_, fun n hn => ?_⟩
  · intro u sc₁ hsc
    obtain ⟨_, _, he⟩ := Option.map_eq_some_iff.mp hsc
    cases he
    rfl
  · simpa [Function.update_of_ne hu] using hi.others u hu
  · rw [hw]
    exact hi.free n hn
  · rw [hw]
    exact hi.linked n b hn
  · rw [hw] at hn
    exact hi.obtained n hn

omit [DecidableEq β] in
theorem Inv.tmplist (hi : Inv thread s h l g) :
    ∃ w, Chain s.pool.mrNext s.tmplist w ∧ ∀ n ∈ w, n ∈ h.places none := by
  unfold State.tmplist
  cases hc : s.call with
  | none => exact ⟨[], rfl, by simp⟩
  | some x =>
    obtain ⟨t, sc⟩ := x
    obtain ⟨y, hy, hsc⟩ := hi.rep.call_some hc
    have hcust : h.places none = y.custody := by simp [Hoard.places, Hoard.custody, hy]
    rw [hcust]
    cases sc <;> cases y <;> try contradiction
    case test.test | take.take => exact ⟨[], rfl, by simp⟩
    case sweep.sweep => exact ⟨_, hsc.2, by simp [Scan.custody]⟩
    case freeNode.freeNode => exact ⟨_, hsc.2.1, by simp +contextual [Scan.custody]⟩

omit [DecidableEq β] in
theorem Inv.separate (hi : Inv thread s h l g) : s.Separate thread := by
  obtain ⟨w, hw, hcust⟩ := hi.tmplist
  have hz (n : Addr) (hn : n ∈ h.zombies thread) : h.Waits n := ⟨some thread, hn⟩
  have ht (n : Addr) (hn : n ∈ w) : h.Waits n := ⟨none, hcust n hn⟩
  refine ⟨l, g, h.zombies thread, w, hi.lists.lfl, hi.lists.freelist, hi.zombies, hw, ?_⟩
  simp only [List.pairwise_cons, List.mem_cons, List.not_mem_nil, or_false, forall_eq_or_imp, forall_eq,
    List.Pairwise.nil, and_true, IsEmpty.forall_iff, implies_true]
  refine ⟨⟨fun n hl hg => hi.lists.apart n hl hg, fun n hl hn => hi.free n (.inl hl) (hz n hn),
    fun n hl hn => hi.free n (.inl hl) (ht n hn)⟩, ⟨fun n hg hn => hi.free n (.inr hg) (hz n hn),
    fun n hg hn => hi.free n (.inr hg) (ht n hn)⟩, fun n hn hn' => ?_⟩
  cases hi.accounts.apart (some thread) none n hn (hcust n hn')

/-- Where `scan` is about to free a node. -/
structure Freeing (thread : Nat) (s : State β) (h : Hoard) (plist : List Ptr) (p : Ptr) (tmp : List Addr)
    (cur : Addr) : Prop where
  call : s.call = some (thread, .freeNode plist p cur)
  hoard : h.call = some (thread, .freeNode plist tmp cur)
  tmplist : Chain s.pool.mrNext p tmp
  waits : ∀ n, h.Waits n ↔ n = cur ∨ n ∈ h.zombies thread ∨ n ∈ tmp
  gone : cur ∉ h.zombies thread ∧ cur ∉ tmp

theorem Inv.freeing (hi : Inv thread s h l g) (hs : step nbthreads thread s .free = some s') : ∃ plist p tmp cur,
    Freeing thread s h plist p tmp cur ∧ s' = { s with
      mem := { s.mem with avail := Function.update s.mem.avail cur true },
      pool := s.pool.freeNode cur, call := some (thread, .sweep plist p), freed := s.freed ++ [cur] } := by
  obtain ⟨⟨s₁, cur⟩, hf, rfl⟩ := Option.map_eq_some_iff.mp hs
  unfold State.free at hf
  split at hf <;> cases hf
  rename_i t plist p hc
  obtain ⟨y, hy, hsc⟩ := hi.rep.call_some hc
  cases y with
  | test | take | sweep => exact hsc.elim
  | freeNode plist' tmp cur' =>
    obtain ⟨rfl, hchain, rfl⟩ := hsc
    obtain rfl := hi.caller t _ hy
    have hcust : h.places none = cur :: tmp := by simp [Hoard.places, Hoard.custody, hy, Scan.custody]
    have hnd := hi.accounts.nodup none
    rw [hcust, List.nodup_cons] at hnd
    refine ⟨plist, p, tmp, cur, ⟨hc, hy, hchain, fun n => ⟨?_, ?_⟩, fun hz => ?_, hnd.1⟩, rfl⟩
    · rintro ⟨i, hn⟩
      cases i with
      | none =>
        rw [hcust, List.mem_cons] at hn
        tauto
      | some u =>
        by_cases hu : u = t
        · exact .inr (.inl (hu ▸ hn))
        · simp [Hoard.places, hi.others u hu] at hn
    · rintro (rfl | hn | hn)
      · exact ⟨none, by simp [hcust]⟩
      · exact ⟨some t, hn⟩
      · exact ⟨none, by simp [hcust, hn]⟩
    · cases hi.accounts.apart none (some t) cur (by simp [hcust]) hz

variable {plist : List Ptr} {p : Ptr} {tmp : List Addr} {cur : Addr}

omit [DecidableEq β] in
theorem Freeing.retained (hf : Freeing thread s h plist p tmp cur) (hi : Inv thread s h l g) (n : Addr) :
    s.Retained thread n ↔ n ∈ h.zombies thread ∨ n ∈ tmp := by
  simp only [State.Retained, State.tmplist, hf.call, Chain.reach_iff hi.zombies, Chain.reach_iff hf.tmplist]

/-- A call of `free_node` that meets the condition takes the node from the scan's custody, and that is all. -/
theorem Inv.free_clear (hi : Inv thread s h l g) (hs : step nbthreads thread s .free = some s') (hclear : s.Clear thread .free) :
    (∃ h l g, Inv thread s' h l g) ∧ SameRetained thread s s' := by
  obtain ⟨plist, p, tmp, cur, hf, rfl⟩ := hi.freeing hs
  have hcur : h.Waits cur := (hf.waits cur).mpr (.inl rfl)
  have hnl : cur ∉ l := fun hn => hi.free cur (.inl hn) hcur
  have hng : cur ∉ g := fun hn => hi.free cur (.inr hn) hcur
  obtain ⟨l', g', hlists, hsub⟩ := hi.lists.freeNode hnl hng
  have hmr (n : Addr) (hn : n ≠ cur) (hw : h.Waits n) : (s.pool.freeNode cur).mrNext n = s.pool.mrNext n := by
    refine Pool.freeNode_mrNext hn fun hc ht => ?_
    subst ht
    exact hclear _ _ _ _ hf.call hc ((hf.retained hi _).mpr (((hf.waits _).mp hw).resolve_left hn))
  have hwaits := hi.accounts.free_waits hf.hoard
  have hfree : s.smr.free ((s.pool.freeNode cur).mrNext cur) = some ({ s.smr with
      mrNext := Function.update s.pool.mrNext cur ((s.pool.freeNode cur).mrNext cur),
      call := some (thread, .sweep plist p) }, cur) := by
    simp [Smr.free, State.smr, hf.call]
  obtain ⟨h', hh, hrep⟩ := hi.rep.free hi.accounts hfree
  have hacc := hi.accounts.free hh
  rw [Hoard.free_some hf.hoard] at hh
  cases hh
  have hrep' := (hrep.logFreed cur).frame (s.pool.freeNode cur).mrNext fun n hn => by
    by_cases he : n = cur
    · simp [he, Smr.logFreed]
    · simpa [Smr.logFreed, Function.update_of_ne he] using hmr n he ((hwaits n).mp hn).2
  obtain ⟨htable, hag⟩ : Mem.Table { s.mem with avail := Function.update s.mem.avail cur true } ∧
      ∀ b, s.mem.Agree { s.mem with avail := Function.update s.mem.avail cur true } b :=
    hi.table.write_off (fun b hb => (hi.linked cur b hb).1 hcur) rfl (fun _ _ => rfl) (fun _ _ => rfl)
      fun n hn => Function.update_of_ne hn _ _
  refine ⟨⟨_, l', g', hrep', hacc, ?_, hi.others, hlists, htable, fun n hn => ?_, fun n b hb => ?_, fun n hn => ?_⟩, ?_⟩
  · rintro t sc ⟨⟩
    rfl
  · rw [Hoard.logFreed_waits, hwaits]
    rintro ⟨hne, hw⟩
    rcases hsub n hn with rfl | hn
    · exact hne rfl
    · exact hi.free n hn hw
  · rw [(hag b).chain] at hb
    obtain ⟨hw, hl, hg⟩ := hi.linked n b hb
    have hne : n ≠ cur := by rintro rfl; exact hw hcur
    have := hsub n
    exact ⟨fun hw' => hw ((hwaits n).mp hw').2, by tauto, by tauto⟩
  · rw [Hoard.logFreed_waits, hwaits] at hn
    rcases hn with hn | hn | hn | ⟨b, hn⟩
    · rcases hsub n (.inl hn) with rfl | hn
      · exact hi.obtained n (.inr (.inr (.inl hcur)))
      · exact hi.obtained n (by tauto)
    · rcases hsub n (.inr hn) with rfl | hn
      · exact hi.obtained n (.inr (.inr (.inl hcur)))
      · exact hi.obtained n (by tauto)
    · exact hi.obtained n (.inr (.inr (.inl hn.2)))
    · rw [(hag b).chain] at hn
      exact hi.obtained n (.inr (.inr (.inr ⟨b, hn⟩)))
  · have hz : Chain (s.pool.freeNode cur).mrNext (s.zlist thread).p (h.zombies thread) := (hrep'.zombies thread).chain
    have ht : Chain (s.pool.freeNode cur).mrNext p tmp := hf.tmplist.congr fun n hn =>
      hmr n (by rintro rfl; exact hf.gone.2 hn) ((hf.waits n).mpr (.inr (.inr hn)))
    intro n
    simp only [State.tmplist, hf.call, Chain.reach_iff hz, Chain.reach_iff ht, Chain.reach_iff hi.zombies,
      Chain.reach_iff hf.tmplist, and_self]

omit [DecidableEq β] in
/-- A flush through a retained node puts the global free list in place of the nodes behind it. -/
theorem Inv.flush_disturbs {q : Ptr} {z : List Addr} (hi : Inv thread s h l g)
    (hf : Freeing thread s h plist p tmp cur) (hc : amortFreeOn ≤ s.pool.lcnt + 1)
    (hz : Chain s.pool.mrNext q z) (hw : ∀ n ∈ z, h.Waits n) (hcur : cur ∉ z) (ht : s.pool.tail cur ∈ z)
    (hne : s.pool.mrNext (s.pool.tail cur) ≠ s.pool.freelist) :
    ¬ ∀ n, Reach (s.pool.freeNode cur).mrNext q n ↔ Reach s.pool.mrNext q n := by
  intro hsame
  have hwcur : h.Waits cur := (hf.waits cur).mpr (.inl rfl)
  have hpush := hi.lists.push (fun hn => hi.free cur (.inl hn) hwcur) fun hn => hi.free cur (.inr hn) hwcur
  obtain ⟨z₁, z₂, rfl⟩ := List.append_of_mem ht
  have hz' : Chain (s.pool.push cur).mrNext q (z₁ ++ s.pool.tail cur :: z₂) := hz.update hcur
  have hoff (n : Addr) (hn : n ∈ z₁ ++ s.pool.tail cur :: z₂) : n ∉ g := fun hg => hi.free n (.inr hg) (hw n hn)
  have hflush := hpush.flush_foreign hz' (hoff _ ht)
  simp only [Pool.freeNode, Pool.addFree, Pool.push_lcnt, hc, if_true, Chain.reach_iff hflush, Chain.reach_iff hz]
    at hsame
  have hnd := Chain.nodup hflush
  have hnd' := Chain.nodup hz
  have hz₂ : z₂ = [] := by
    apply List.eq_nil_iff_forall_not_mem.mpr
    intro n hn
    have := (hsame n).mpr (by simp [hn])
    have := hoff n (by simp [hn])
    grind
  have hg : g = [] := by
    apply List.eq_nil_iff_forall_not_mem.mpr
    intro n hn
    have := (hsame n).mp (by simp [hn])
    have := hoff n this
    contradiction
  apply hne
  rw [Seg.next_eq hz, hz₂, Seg.head hi.lists.freelist, hg]

theorem Inv.free_disturbs (hi : Inv thread s h l g) (hs : step nbthreads thread s .free = some s') (hclear : ¬ s.Clear thread .free) :
    ¬ SameRetained thread s s' := by
  obtain ⟨plist, p, tmp, cur, hf, rfl⟩ := hi.freeing hs
  simp only [State.Clear, not_forall] at hclear
  obtain ⟨t, plist', p', cur', hcall, hc, hret, hne⟩ := hclear
  cases hcall.symm.trans hf.call
  intro hsame
  rcases (hf.retained hi _).mp hret with ht | ht
  · exact hi.flush_disturbs hf hc hi.zombies (fun n hn => (hf.waits n).mpr (.inr (.inl hn))) hf.gone.1 ht hne
      fun n => (hsame n).1
  · apply hi.flush_disturbs hf hc hf.tmplist (fun n hn => (hf.waits n).mpr (.inr (.inr hn))) hf.gone.2 ht hne
    intro n
    have := (hsame n).2
    simpa only [State.tmplist, hf.call] using this

theorem Inv.step {a : Act β} (hi : Inv thread s h l g) (hs : step nbthreads thread s a = some s')
    (hclear : s.Clear thread a) : ∃ h l g, Inv thread s' h l g := by
  cases a with
  | insert k b fresh =>
    simp only [Composed.step] at hs
    split at hs
    · exact ⟨h, hi.insert hs⟩
    · cases hs
  | delete k b =>
    obtain ⟨h', hi'⟩ := hi.delete hs
    exact ⟨h', l, g, hi'⟩
  | scan =>
    obtain ⟨m, hm, rfl⟩ := Option.map_eq_some_iff.mp hs
    obtain ⟨h', hi'⟩ := hi.scan hm
    exact ⟨h', l, g, hi'⟩
  | free => exact (hi.free_clear hs hclear).1
  | publish i v =>
    cases hs
    exact ⟨h.publish i v, l, g, hi.rep.publish i, hi.accounts.publish, hi.caller, hi.others, hi.lists, hi.table,
      hi.free, hi.linked, hi.obtained⟩

theorem inv_of_clear {tr : List (Act β × State β)} (hrun : Run (ClearStep nbthreads thread) (.init β) tr s) :
    ∃ h l g, Inv thread s h l g :=
  hrun.invariant (P := fun s => ∃ h l g, Inv thread s h l g) ⟨.init, [], [], .init⟩
    fun _ _ _ ⟨_, _, _, hi⟩ hr => hi.step hr.1 hr.2

/-- Outside of `free_node_later`, nodes are only freed, one after the other. -/
theorem logs_grow {a : Act β} (hs : step nbthreads thread s a = some s') (ha : a.isCall = false) :
    s'.retired = s.retired ∧ ∃ fs, s'.freed = s.freed ++ fs := by
  cases a with
  | insert | delete => cases ha
  | scan =>
    obtain ⟨m, hm, rfl⟩ := Option.map_eq_some_iff.mp hs
    obtain ⟨_, _, _, _, _, _, _, rfl⟩ := Smr.scan_eq hm
    exact ⟨rfl, [], (List.append_nil _).symm⟩
  | free =>
    obtain ⟨⟨s₁, cur⟩, hf, rfl⟩ := Option.map_eq_some_iff.mp hs
    unfold State.free at hf
    split at hf <;> cases hf
    exact ⟨rfl, _, rfl⟩
  | publish i v =>
    cases hs
    exact ⟨rfl, [], (List.append_nil _).symm⟩

theorem logs_grow_run {tr : List (Act β × State β)} (hrun : Run (Steps (step nbthreads thread)) s tr s')
    (ha : ∀ e ∈ tr, e.1.isCall = false) : s'.retired = s.retired ∧ ∃ fs, s'.freed = s.freed ++ fs := by
  induction hrun with
  | nil => exact ⟨rfl, [], (List.append_nil _).symm⟩
  | @snoc tr t a u _ hs ih =>
    obtain ⟨hr, fs, hf⟩ := ih fun e he => ha e (by simp [he])
    obtain ⟨hr', fs', hf'⟩ := logs_grow hs (ha (a, u) (by simp))
    exact ⟨hr'.trans hr, fs ++ fs', by rw [hf', hf, List.append_assoc]⟩

omit [DecidableEq β] in
/-- Between two states with orderly lists, a node that has left the zombie list was freed. -/
theorem Inv.settled {h' : Hoard} {l' g' fs : List Addr} {n : Addr} (hi : Inv thread s h l g)
    (hi' : Inv thread s' h' l' g') (hr : s'.retired = s.retired) (hf : s'.freed = s.freed ++ fs)
    (hc : s'.call = none) (hn : n ∈ h.zombies thread) : n ∈ h'.zombies thread ↔ n ∉ fs := by
  have hbefore : s.retired.count n = s.freed.count n + 1 := by
    have hw := hi.accounts.waits n ⟨some thread, hn⟩
    rwa [← hi.rep.retired, ← hi.rep.freed] at hw
  have hcount : s'.freed.count n = s.freed.count n + fs.count n := by rw [hf, List.count_append]
  constructor
  · intro hz hfs
    have hw := hi'.accounts.waits n ⟨some thread, hz⟩
    rw [← hi'.rep.retired, ← hi'.rep.freed] at hw
    change s'.retired.count n = s'.freed.count n + 1 at hw
    have := List.count_pos_iff.mpr hfs
    rw [hr] at hw
    omega
  · intro hfs
    by_contra hz
    have hnot : ¬ h'.Waits n := by
      rintro ⟨i, hi₁⟩
      cases i with
      | none => simp [Hoard.places, Hoard.custody, hi'.rep.call_none.mp hc] at hi₁
      | some t =>
        by_cases ht : t = thread
        · exact hz (ht ▸ hi₁)
        · simp [Hoard.places, hi'.others t ht] at hi₁
    have hw := hi'.accounts.reclaimed n hnot
    rw [← hi'.rep.retired, ← hi'.rep.freed] at hw
    change s'.retired.count n = s'.freed.count n at hw
    have := List.count_eq_zero.mpr hfs
    rw [hr] at hw
    omega

theorem undisturbed_of_clear {tr : List (Act β × State β)}
    (hrun : Run (ClearStep nbthreads thread) (.init β) tr s) : Undisturbed nbthreads thread tr := by
  have hstart {tr' : List (Act β × State β)} {t : State β} (hp : tr' <+: tr)
      (ht : Run (Steps (step nbthreads thread)) (.init β) tr' t) :
      Run (ClearStep nbthreads thread) (.init β) tr' t := by
    obtain ⟨tr'', rfl⟩ := hp
    obtain ⟨t', ht', _⟩ := hrun.split
    exact ht.end_unique ht' ▸ ht'
  constructor
  · intro s' hs'
    obtain ⟨tr', _, hrun'⟩ := hrun.upTo hs'
    obtain ⟨h, l, g, hi⟩ := inv_of_clear hrun'
    exact hi.separate
  · intro tr₁ t t' hp ht
    obtain ⟨tr'', rfl⟩ := hp
    obtain ⟨t'', ht'', _⟩ := hrun.split
    obtain ⟨rfl, v, hv, hstep, hclear⟩ := ht''.snoc_inv
    obtain rfl := ht.end_unique hv
    obtain ⟨h, l, g, hi⟩ := inv_of_clear hv
    exact (hi.free_clear hstep hclear).2
  · intro tr₁ tr₂ t t' hp ht ht' _ hno hc
    obtain ⟨h, l, g, hi⟩ := inv_of_clear (hstart ((List.prefix_append _ _).trans hp) ht)
    obtain ⟨h', l', g', hi'⟩ := inv_of_clear (hstart hp (ht.append ht'))
    obtain ⟨hr, fs, hf⟩ := logs_grow_run ht' hno
    refine ⟨fs, hf, fun n hn => ?_⟩
    rw [Chain.reach_iff hi'.zombies]
    exact hi.settled hi' hr hf hc ((Chain.reach_iff hi.zombies).mp hn)

theorem Undisturbed.upTo {tr tr' : List (Act β × State β)} (hu : Undisturbed nbthreads thread tr)
    (hp : tr' <+: tr) : Undisturbed nbthreads thread tr' where
  separate t ht := hu.separate t (states_upTo hp ht)
  same tr₁ t t' h := hu.same tr₁ t t' (h.trans hp)
  settled tr₁ tr₂ t t' h := hu.settled tr₁ tr₂ t t' (h.trans hp)

/-- The lists stay apart and no retired node is lost in a run exactly if every flush of the run
spares the retired nodes. -/
theorem composition_undisturbed_iff (nbthreads thread : Nat) {tr : List (Act β × State β)}
    (hrun : Run (Steps (step nbthreads thread)) (.init β) tr s) :
    Undisturbed nbthreads thread tr ↔ Run (ClearStep nbthreads thread) (.init β) tr s := by
  refine ⟨fun hu => ?_, undisturbed_of_clear⟩
  induction hrun with
  | nil => exact .nil
  | @snoc tr t a u htr hstep ih =>
    have hclear := ih (hu.upTo (List.prefix_append _ _))
    obtain ⟨h, l, g, hi⟩ := inv_of_clear hclear
    by_cases hc : t.Clear thread a
    · exact .snoc hclear ⟨hstep, hc⟩
    · cases a with
      | free => exact absurd (hu.same tr t u List.prefix_rfl htr) (hi.free_disturbs hstep hc)
      | insert | delete | scan | publish => exact absurd trivial hc

end step

/-- Nodes come and go until a scan begins, and the scan frees `n` of them. -/
def cycle (n : Nat) : List (Act Unit) :=
  let rounds : List (Act Unit) := (List.range 107).flatMap fun i => [.insert 0 () (i + 1), .delete 0 ()]
  rounds ++ List.replicate (H + 1) Act.scan ++ (List.replicate n [Act.scan, .free]).flatten ++ [Act.scan]

/-- A flush writes to `lfl_tail->mr_next` what is there already. -/
def idleFlush (s : State Unit) : Act Unit → Bool
  | .free => match s.call with
    | some (_, .freeNode _ _ cur) =>
      decide (amortFreeOn ≤ s.pool.lcnt + 1 → s.pool.mrNext (s.pool.tail cur) = s.pool.freelist)
    | _ => true
  | _ => true

theorem clear_of_idleFlush {s : State Unit} {a : Act Unit} (h : idleFlush s a) : s.Clear 0 a := by
  cases a with
  | free =>
    intro t plist tmplist cur hc hle _
    simp only [idleFlush, hc, decide_eq_true_eq] at h
    exact h hle
  | _ => trivial

/-- A scan frees nodes 1 to 107, and the 100th of them comes with a flush. -/
theorem composition_undisturbed_iff_first : ∃ tr s, Run (Steps (step 1 0)) (.init Unit) tr s ∧
    s.freed.length = 107 ∧ s.pool.freelist ≠ none ∧ s.pool.lfl = some 1 ∧ Undisturbed 1 0 tr := by
  have h : (exec (checked (step 1 0) idleFlush) (.init Unit) (cycle 107)).any fun s => decide (s.freed.length = 107) &&
      decide (s.pool.freelist ≠ none) && decide (s.pool.lfl = some 1) := by decide +kernel
  obtain ⟨s, hs, hp⟩ := (Option.any_eq_true _ _).mp h
  simp only [Bool.and_eq_true, decide_eq_true_eq] at hp
  have hclear : Run (ClearStep 1 0) (.init Unit) _ s := (exec_run hs).mono fun _ _ _ hr =>
    (checked_iff.mp hr).imp_right clear_of_idleFlush
  have hrun := hclear.mono fun _ _ _ hr => hr.1
  exact ⟨_, s, hrun, hp.1.1, hp.1.2, hp.2, (composition_undisturbed_iff 1 0 hrun).mpr hclear⟩

/-- Nodes 1 to 107 come and go, and a scan frees them all: the flush leaves 7 to 1 on the local
list, with 7 in `lfl_tail`. These are then the first to be used and retired again, in the order
1 to 7; the next scan flushes while it holds the nodes 14 to 1. -/
def disturbingCalls : List (Act Unit) := cycle 107 ++ cycle 92

theorem flush_truncates_tmplist : ∃ s s', exec (step 1 0) (.init Unit) disturbingCalls = some s ∧
    step 1 0 s .free = some s' ∧ ¬ SameRetained 0 s s' := by
  have h : (exec (step 1 0) (.init Unit) disturbingCalls).any fun s =>
      decide (Chain s.pool.mrNext s.tmplist [14, 13, 12, 11, 10, 9, 8, 7, 6, 5, 4, 3, 2, 1]) &&
      (step 1 0 s .free).any fun s' => decide (Chain s'.pool.mrNext s'.tmplist [14, 13, 12, 11, 10, 9, 8, 7]) := by
    decide +kernel
  obtain ⟨s, hs, hp⟩ := (Option.any_eq_true _ _).mp h
  rw [Bool.and_eq_true, Option.any_eq_true] at hp
  obtain ⟨hbefore, s', hstep, hafter⟩ := hp
  refine ⟨s, s', hs, hstep, fun hsame => ?_⟩
  have h₁ := (hsame 1).2
  rw [Chain.reach_iff (of_decide_eq_true hbefore), Chain.reach_iff (of_decide_eq_true hafter)] at h₁
  simp at h₁

theorem composition_disturbed : ∃ tr s, Run (Steps (step 1 0)) (.init Unit) tr s ∧ ¬ Undisturbed 1 0 tr := by
  obtain ⟨s, s', hs, hstep, hnot⟩ := flush_truncates_tmplist
  exact ⟨_, s', .snoc (exec_run hs) hstep, fun hu => hnot (hu.same _ s s' List.prefix_rfl (exec_run hs))⟩

end Gecos.Composed
