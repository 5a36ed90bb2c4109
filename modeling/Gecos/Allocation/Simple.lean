import Gecos.Library.Run
import Gecos.Table.Memory

/-! The allocator of allocator_malloc.c with `SIMPLE_ALLOC`: each thread has a free list of its own, and nothing
is shared. -/
namespace Gecos
open Library

/-- The allocator that `SIMPLE_ALLOC` selects: the `mr_next` fields, and `lfl` of each thread. -/
structure SimplePool (τ : Type) where
  mrNext : Addr → Ptr
  lfl : τ → Ptr

namespace SimplePool
variable {τ : Type}

def init (τ : Type) : SimplePool τ := ⟨fun _ => none, fun _ => none⟩

variable [DecidableEq τ]

def getFree (a : SimplePool τ) (t : τ) : SimplePool τ × Ptr :=
  match a.lfl t with
  | none => (a, none)
  | some node => ({ a with lfl := Function.update a.lfl t (a.mrNext node) }, some node)

def addFree (a : SimplePool τ) (t : τ) (p : Addr) : SimplePool τ :=
  ⟨Function.update a.mrNext p (a.lfl t), Function.update a.lfl t (some p)⟩

def newNode (a : SimplePool τ) (t : τ) (fresh : Addr) : SimplePool τ × Addr :=
  match a.getFree t with
  | (a, some node) => (a, node)
  | (a, none) => ({ a with mrNext := Function.update a.mrNext fresh none }, fresh)

def freeNode (a : SimplePool τ) (t : τ) (n : Addr) : SimplePool τ := a.addFree t n

/-- `own t` is the list of thread `t`, and the lists share no node. -/
structure Lists (a : SimplePool τ) (own : τ → List Addr) : Prop where
  chain : ∀ t, Chain a.mrNext (a.lfl t) (own t)
  apart : ∀ t u n, n ∈ own t → n ∈ own u → t = u

variable {a : SimplePool τ} {own : τ → List Addr} {t : τ} {n p fresh : Addr} {l : List Addr}

omit [DecidableEq τ] in
theorem Lists.init : Lists (.init τ) fun _ => [] where
  chain _ := rfl
  apart := by simp

theorem mem_push {u : τ} : n ∈ Function.update own t (p :: own t) u ↔ (u = t ∧ n = p) ∨ n ∈ own u := by
  by_cases he : u = t
  · simp [he]
  · simp [he]

theorem Lists.pop (h : a.Lists own) (hl : own t = n :: l) (fresh : Addr) :
    a.newNode t fresh = (⟨a.mrNext, Function.update a.lfl t (a.mrNext n)⟩, n) ∧
      Lists ⟨a.mrNext, Function.update a.lfl t (a.mrNext n)⟩ (Function.update own t l) := by
  have hc := h.chain t
  rw [hl] at hc
  obtain ⟨hlfl, hc⟩ := hc
  refine ⟨by simp [newNode, getFree, hlfl], fun u => ?_, fun u v x hu hv => h.apart u v x ?_ ?_⟩
  · by_cases he : u = t
    · rw [he]
      simpa using hc
    · simpa [Function.update_of_ne he] using h.chain u
  · by_cases he : u = t
    · rw [he] at hu ⊢
      rw [hl]
      exact List.mem_cons_of_mem _ (by simpa using hu)
    · simpa [Function.update_of_ne he] using hu
  · by_cases he : v = t
    · rw [he] at hv ⊢
      rw [hl]
      exact List.mem_cons_of_mem _ (by simpa using hv)
    · simpa [Function.update_of_ne he] using hv

/-- A thread without free nodes gets one from `calloc`. -/
theorem Lists.grow (h : a.Lists own) (hl : own t = []) (hf : ∀ u, fresh ∉ own u) :
    a.newNode t fresh = (⟨Function.update a.mrNext fresh none, a.lfl⟩, fresh) ∧
      Lists ⟨Function.update a.mrNext fresh none, a.lfl⟩ own := by
  have hc := h.chain t
  rw [hl] at hc
  have hlfl : a.lfl t = none := hc
  exact ⟨by simp [newNode, getFree, hlfl], fun u => (h.chain u).update (hf u), h.apart⟩

theorem Lists.push (h : a.Lists own) (hp : ∀ u, p ∉ own u) : (a.freeNode t p).Lists (Function.update own t (p :: own t)) := by
  refine ⟨fun u => ?_, fun u v x hu hv => ?_⟩
  · by_cases he : u = t
    · rw [he]
      simpa [freeNode, addFree] using (h.chain t).update (hp t)
    · simpa [freeNode, addFree, Function.update_of_ne he] using (h.chain u).update (hp u)
  · rcases mem_push.mp hu with ⟨hu, hx⟩ | hu <;> rcases mem_push.mp hv with ⟨hv, hx'⟩ | hv
    · rw [hu, hv]
    · exact (hp v (hx ▸ hv)).elim
    · exact (hp u (hx' ▸ hu)).elim
    · exact h.apart u v x hu hv

/-- `new_node` takes from the thread's own list, if this is not empty. -/
theorem Lists.newNode (h : a.Lists own) (t : τ) (hf : ∀ u, fresh ∉ own u) :
    ∃ own', (a.newNode t fresh).1.Lists own' ∧
      (own t = [] ∧ (a.newNode t fresh).2 = fresh ∧ own' = own ∨
        ∃ l, own t = (a.newNode t fresh).2 :: l ∧ own' = Function.update own t l) := by
  cases hl : own t with
  | nil =>
    obtain ⟨he, hg⟩ := h.grow hl hf
    rw [he]
    exact ⟨own, hg, .inl ⟨rfl, rfl, rfl⟩⟩
  | cons n l =>
    obtain ⟨he, hp⟩ := h.pop hl fresh
    rw [he]
    exact ⟨_, hp, .inr ⟨l, rfl, rfl⟩⟩

theorem mem_pop {u : τ} {l : List Addr} (hl : own t = n :: l) (hu : p ∈ Function.update own t l u) : p ∈ own u := by
  by_cases he : u = t
  · rw [he, Function.update_self] at hu
    rw [he, hl]
    exact List.mem_cons_of_mem _ hu
  · rwa [Function.update_of_ne he] at hu

theorem Lists.pop_notMem {u : τ} (h : a.Lists own) (hl : own t = n :: l) : n ∉ Function.update own t l u := by
  intro hu
  by_cases he : u = t
  · have hnd := (h.chain t).nodup
    rw [hl, List.nodup_cons] at hnd
    rw [he, Function.update_self] at hu
    exact hnd.1 hu
  · rw [Function.update_of_ne he] at hu
    exact he (h.apart u t n hu (by simp [hl]))

/-- Ghosts: the nodes that callers have and those that `calloc` returned. -/
structure State (τ : Type) where
  pool : SimplePool τ
  allocated : Addr → Bool
  obtained : Addr → Bool

/-- A call of thread `t`; no other thread can see what it accesses. -/
inductive Act (τ : Type) where
  | newNode (t : τ) (fresh : Addr)
  | freeNode (t : τ) (n : Addr)

def State.init (τ : Type) : State τ := ⟨.init τ, fun _ => false, fun _ => false⟩

/-- Threads free what is allocated, whoever allocated it, and `calloc` returns what it has not returned. -/
def step (s : State τ) : Act τ → Option (State τ)
  | .newNode t fresh => if s.obtained fresh then none else
    let (pool, n) := s.pool.newNode t fresh
    some ⟨pool, Function.update s.allocated n true, Function.update s.obtained n true⟩
  | .freeNode t n => if s.allocated n then
    some { s with pool := s.pool.freeNode t n, allocated := Function.update s.allocated n false } else none

/-- The lists have what `calloc` returned and no caller has. -/
structure Inv (s : State τ) (own : τ → List Addr) : Prop where
  lists : s.pool.Lists own
  places : ∀ n, s.obtained n = true ↔ s.allocated n = true ∨ ∃ t, n ∈ own t
  free : ∀ t, ∀ n ∈ own t, s.allocated n = false

variable {s s' : State τ}

theorem Inv.newNode_fresh (h : Inv s own) (hf : s.obtained fresh = false) (t : τ) :
    s.allocated (s.pool.newNode t fresh).2 = false := by
  have hno (u : τ) : fresh ∉ own u := fun hu => by
    rw [(h.places fresh).mpr (.inr ⟨u, hu⟩)] at hf
    cases hf
  obtain ⟨_, _, ⟨_, hn, _⟩ | ⟨l, hl, _⟩⟩ := h.lists.newNode t hno
  · rw [hn]
    by_contra hne
    rw [(h.places fresh).mpr (.inl (by simpa using hne))] at hf
    cases hf
  · exact h.free t _ (by simp [hl])

theorem Inv.step {b : Act τ} (h : Inv s own) (hs : SimplePool.step s b = some s') : ∃ own', Inv s' own' := by
  cases b with
  | newNode t fresh =>
    simp only [SimplePool.step] at hs
    split at hs <;> cases hs
    rename_i hobt
    have hf : s.obtained fresh = false := by simpa using hobt
    have hno (u : τ) : fresh ∉ own u := fun hu => hobt ((h.places fresh).mpr (.inr ⟨u, hu⟩))
    obtain ⟨own', hl', hcase⟩ := h.lists.newNode t hno
    have hmem (n : Addr) : (∃ u, n ∈ own' u) ↔ (∃ u, n ∈ own u) ∧ n ≠ (s.pool.newNode t fresh).2 := by
      rcases hcase with ⟨_, hn, rfl⟩ | ⟨l, hl, rfl⟩
      · refine ⟨fun hex => ⟨hex, ?_⟩, And.left⟩
        rintro rfl
        obtain ⟨u, hu⟩ := hex
        rw [hn] at hu
        exact hno u hu
      · constructor
        · intro hex
          obtain ⟨u, hu⟩ := hex
          refine ⟨⟨u, mem_pop hl hu⟩, ?_⟩
          rintro rfl
          exact h.lists.pop_notMem hl hu
        · intro hex
          obtain ⟨⟨u, hu⟩, hne⟩ := hex
          refine ⟨u, ?_⟩
          by_cases he : u = t
          · rw [he, hl] at hu
            rw [he, Function.update_self]
            exact (List.mem_cons.mp hu).resolve_left hne
          · rwa [Function.update_of_ne he]
    refine ⟨own', hl', fun n => ?_, fun u n hu => ?_⟩
    · rw [hmem]
      by_cases he : n = (s.pool.newNode t fresh).2
      · simp [he]
      · simp [h.places n, he]
    · obtain ⟨⟨u', hu'⟩, hne⟩ := (hmem n).mp ⟨u, hu⟩
      exact (Function.update_of_ne hne ..).trans (h.free u' n hu')
  | freeNode t n =>
    simp only [SimplePool.step] at hs
    split at hs <;> cases hs
    rename_i hall
    have hno (u : τ) : n ∉ own u := fun hu => by
      rw [h.free u n hu] at hall
      cases hall
    refine ⟨_, h.lists.push hno, fun x => ?_, fun u x hu => ?_⟩
    · simp only [mem_push]
      by_cases he : x = n
      · simp only [he, Function.update_self, Bool.false_eq_true, false_or]
        exact ⟨fun _ => ⟨t, .inl ⟨rfl, trivial⟩⟩, fun _ => (h.places n).mpr (.inl hall)⟩
      · simp [h.places x, he]
    · rcases mem_push.mp hu with ⟨_, rfl⟩ | hold
      · exact Function.update_self ..
      · have hne : x ≠ n := by
          rintro rfl
          exact hno u hold
        exact (Function.update_of_ne hne ..).trans (h.free u x hold)

theorem inv_reachable (h : Reachable (Steps SimplePool.step) (.init τ) s) : ∃ own, Inv s own :=
  h.invariant (P := fun s => ∃ own, Inv s own) ⟨_, .init, by simp [State.init], by simp⟩ fun _ _ _ hi hr => hi.elim fun _ hi => hi.step hr

/-- Whichever threads allocate and free, in whatever order: a node that `calloc` returned is either a caller's
or on the list of one thread, and `new_node` returns none that a caller has. -/
theorem simple_conserves (h : Reachable (Steps SimplePool.step) (.init τ) s) :
    (∀ n, s.obtained n = true → ∃! i : Option τ, i.elim (s.allocated n = true) fun t => Reach s.pool.mrNext (s.pool.lfl t) n) ∧
      ∀ t fresh, s.obtained fresh = false → s.allocated (s.pool.newNode t fresh).2 = false := by
  obtain ⟨own, hi⟩ := inv_reachable h
  refine ⟨fun n hn => ?_, fun t fresh hf => hi.newNode_fresh hf t⟩
  have hon (t : τ) : Reach s.pool.mrNext (s.pool.lfl t) n ↔ n ∈ own t := Chain.reach_iff (hi.lists.chain t)
  rcases (hi.places n).mp hn with hall | ⟨t, ht⟩
  · refine ⟨none, hall, fun i hi' => ?_⟩
    cases i with
    | none => rfl
    | some u =>
      rw [hi.free u n ((hon u).mp hi')] at hall
      cases hall
  · refine ⟨some t, (hon t).mpr ht, fun i hi' => ?_⟩
    cases i with
    | none =>
      have hall : s.allocated n = true := hi'
      rw [hi.free t n ht] at hall
      cases hall
    | some u => rw [hi.lists.apart u t n ((hon u).mp hi') ht]

/-- Thread 0 frees what thread 1 allocated, and gets it back. -/
theorem simple_conserves_freed : ∃ s : State Nat,
    exec step (.init Nat) [.newNode 1 7, .freeNode 0 7, .newNode 0 8] = some s ∧
      ∃! i : Option Nat, i.elim (s.allocated 7 = true) fun t => Reach s.pool.mrNext (s.pool.lfl t) 7 := by
  have h : (exec step (.init Nat) [.newNode 1 7, .freeNode 0 7, .newNode 0 8]).any fun s => s.obtained 7 := by decide
  obtain ⟨s, hs, ho⟩ := (Option.any_eq_true _ _).mp h
  exact ⟨s, hs, (simple_conserves ⟨_, exec_run hs⟩).1 7 ho⟩

end SimplePool
end Gecos
