import Gecos.Library.Chain
import Gecos.Table.Memory

/-! The default allocator of allocator_malloc.c, as the calls of one thread run it. -/
namespace Gecos
open Library

/-- `AMORT_FREE_ON` -/
def amortFreeOn : Nat := 100

/-- The `mr_next` fields, the global free list, and the `__thread` variables of the caller. -/
structure Pool where
  mrNext : Addr → Ptr
  freelist : Ptr
  lfl : Ptr
  lflTail : Ptr
  lcnt : Nat

namespace Pool

def init : Pool := ⟨fun _ => none, none, none, none, 0⟩

/-- Nobody else touches `freelist`, so the compare-and-swap succeeds at once. -/
def getFree (a : Pool) : Pool × Ptr :=
  let a := if a.lfl = none then { a with lfl := a.freelist, freelist := none } else a
  match a.lfl with
  | none => (a, none)
  | some node => ({ a with lfl := a.mrNext node }, some node)

/-- The node that `lfl_tail` points to while `add_free(p)` runs. -/
def tail (a : Pool) (p : Addr) : Addr := a.lflTail.getD p

/-- `add_free` up to its test of `lcnt`. -/
def push (a : Pool) (p : Addr) : Pool :=
  { a with
    lflTail := some (a.tail p), mrNext := Function.update a.mrNext p a.lfl, lfl := some p,
    lcnt := a.lcnt + 1 }

/-- The rest of `add_free` once `lcnt` has reached its bound, `t` being `lfl_tail`. -/
def flush (a : Pool) (t : Addr) : Pool :=
  { a with
    mrNext := Function.update a.mrNext t a.freelist, freelist := a.lfl, lflTail := none, lfl := none,
    lcnt := 0 }

def addFree (a : Pool) (p : Addr) : Pool :=
  if amortFreeOn ≤ (a.push p).lcnt then (a.push p).flush (a.tail p) else a.push p

/-- `calloc` clears the node that it returns, here `fresh`. -/
def newNode (a : Pool) (fresh : Addr) : Pool × Addr :=
  match a.getFree with
  | (a, some node) => (a, node)
  | (a, none) => ({ a with mrNext := Function.update a.mrNext fresh none }, fresh)

def freeNode (a : Pool) (n : Addr) : Pool := a.addFree n

/-- The chains from `lfl` and from `freelist` end, and share no node. -/
structure Lists (a : Pool) (l g : List Addr) : Prop where
  lfl : Chain a.mrNext a.lfl l
  freelist : Chain a.mrNext a.freelist g
  apart : ∀ n ∈ l, n ∉ g

/-- The flush hangs `freelist` behind `lfl_tail`: that loses no node where `lfl_tail` ends the
local list, or is off it while there is nothing to hang on. -/
def Joins (a : Pool) (t : Addr) (l : List Addr) : Prop :=
  l.getLast? = some t ∨ t ∉ l ∧ a.freelist = none

variable {a : Pool} {l g : List Addr} {n p t : Addr}

@[simp] theorem push_freelist : (a.push p).freelist = a.freelist := rfl
@[simp] theorem push_lcnt : (a.push p).lcnt = a.lcnt + 1 := rfl
@[simp] theorem flush_freelist : (a.flush t).freelist = a.lfl := rfl
@[simp] theorem flush_lfl : (a.flush t).lfl = none := rfl

theorem Lists.init : Lists .init [] [] where
  lfl := rfl
  freelist := rfl
  apart := by simp

/-- Links of other nodes do not matter. -/
theorem Lists.frame {mr : Addr → Ptr} (h : a.Lists l g) (hm : ∀ n, n ∈ l ∨ n ∈ g → mr n = a.mrNext n) :
    Lists { a with mrNext := mr } l g where
  lfl := h.lfl.congr fun n hn => hm n (.inl hn)
  freelist := h.freelist.congr fun n hn => hm n (.inr hn)
  apart := h.apart

/-- `get_free` pops the local list, after it took over the global one if need be. -/
theorem Lists.getFree (h : a.Lists l g) :
    (l = [] ∧ g = [] ∧ a.getFree = (a, none)) ∨
    ∃ n a' l' g', a.getFree = (a', some n) ∧ a'.Lists l' g' ∧ a'.mrNext = a.mrNext ∧
      (l = n :: l' ∧ g' = g ∨ l = [] ∧ g = n :: l' ∧ g' = []) := by
  obtain ⟨mr, fl, p, t, c⟩ := a
  obtain ⟨hl, hg, hap⟩ := h
  cases l with
  | cons n l =>
    obtain ⟨rfl, hl⟩ := hl
    exact .inr ⟨n, ⟨mr, fl, mr n, t, c⟩, l, g, by simp [Pool.getFree], ⟨hl, hg, fun x hx => hap x (by simp [hx])⟩,
      rfl, .inl ⟨rfl, rfl⟩⟩
  | nil =>
    obtain rfl : p = none := hl
    cases g with
    | nil =>
      obtain rfl : fl = none := hg
      exact .inl ⟨rfl, rfl, by simp [Pool.getFree]⟩
    | cons n g =>
      obtain ⟨rfl, hg⟩ := hg
      exact .inr ⟨n, ⟨mr, none, mr n, t, c⟩, g, [], by simp [Pool.getFree], ⟨hg, rfl, by simp⟩, rfl,
        .inr ⟨rfl, rfl, rfl⟩⟩

theorem Lists.push (h : a.Lists l g) (hl : p ∉ l) (hg : p ∉ g) : (a.push p).Lists (p :: l) g where
  lfl := ⟨rfl, by simpa [Pool.push] using h.lfl.update hl⟩
  freelist := h.freelist.update hg
  apart n hn := by
    rcases List.mem_cons.mp hn with rfl | hn
    · exact hg
    · exact h.apart n hn

/-- A flush with `lfl_tail` on the local list cuts the list there and hangs the global one on. -/
theorem Lists.flush_on {l₁ l₂ : List Addr} (h : a.Lists (l₁ ++ t :: l₂) g) :
    (a.flush t).Lists [] (l₁ ++ t :: g) := by
  obtain ⟨r, h₁, h₂⟩ := seg_append.mp h.lfl
  have hseg : Seg a.mrNext a.lfl (l₁ ++ [t]) (a.mrNext t) := seg_append.mpr ⟨r, h₁, h₂.1, rfl⟩
  have hl₁ : t ∉ l₁ := fun hm => (List.nodup_append.mp (Chain.nodup h.lfl)).2.2 t hm t (by simp) rfl
  exact ⟨rfl, hseg.redirect hl₁ h.freelist (h.apart t (by simp)), by simp⟩

/-- A flush with `lfl_tail` elsewhere replaces the global list by the local one. -/
theorem Lists.flush_off (h : a.Lists l g) (ht : t ∉ l) : (a.flush t).Lists [] l :=
  ⟨rfl, h.lfl.update ht, by simp⟩

theorem Lists.flush_sub (h : a.Lists l g) (t : Addr) :
    ∃ g', (a.flush t).Lists [] g' ∧ ∀ n ∈ g', n ∈ l ∨ n ∈ g := by
  by_cases ht : t ∈ l
  · obtain ⟨l₁, l₂, rfl⟩ := List.append_of_mem ht
    exact ⟨l₁ ++ t :: g, h.flush_on, by simp; grind⟩
  · exact ⟨l, h.flush_off ht, fun n hn => .inl hn⟩

/-- A node is on the global list after a flush iff it was on one of the two. -/
theorem Lists.flush (h : a.Lists l g) (ht : a.Joins t l) :
    ∃ g', (a.flush t).Lists [] g' ∧ ∀ n, n ∈ g' ↔ n ∈ l ∨ n ∈ g := by
  rcases ht with ht | ⟨ht, hf⟩
  · obtain ⟨l₁, rfl⟩ := List.getLast?_eq_some_iff.mp ht
    exact ⟨l₁ ++ t :: g, h.flush_on, by simp [or_assoc]⟩
  · have hg : g = [] := by
      have := h.freelist
      rw [hf] at this
      exact Chain.unique this rfl
    subst hg
    exact ⟨l, h.flush_off ht, by simp⟩

/-- Any other flush drops a node from both chains. -/
theorem Lists.flush_drops (h : a.Lists l g) (ht : ¬ a.Joins t l) :
    ∃ n, (n ∈ l ∨ n ∈ g) ∧ ¬ Reach (a.flush t).mrNext (a.flush t).lfl n ∧
      ¬ Reach (a.flush t).mrNext (a.flush t).freelist n := by
  by_cases hm : t ∈ l
  · obtain ⟨l₁, l₂, rfl⟩ := List.append_of_mem hm
    obtain ⟨x, hx⟩ : ∃ x, x ∈ l₂ := by
      apply List.exists_mem_of_ne_nil
      rintro rfl
      exact ht (.inl (by simp))
    have hnd := Chain.nodup h.lfl
    have hfl := h.flush_on
    have hxg := h.apart x (by simp [hx])
    refine ⟨x, .inl (by simp [hx]), (Chain.reach_iff hfl.lfl).not.mpr (by simp), ?_⟩
    rw [Chain.reach_iff hfl.freelist]
    grind
  · obtain ⟨x, hx⟩ : ∃ x, x ∈ g := by
      apply List.exists_mem_of_ne_nil
      rintro rfl
      exact ht (.inr ⟨hm, h.freelist⟩)
    have hfl := h.flush_off hm
    refine ⟨x, .inr hx, (Chain.reach_iff hfl.lfl).not.mpr (by simp), ?_⟩
    rw [Chain.reach_iff hfl.freelist]
    exact fun hl => h.apart x hl hx

/-- What a flush does to any other chain that `lfl_tail` is on. -/
theorem Lists.flush_foreign {q : Ptr} {z₁ z₂ : List Addr} (h : a.Lists l g) (hz : Chain a.mrNext q (z₁ ++ t :: z₂))
    (ht : t ∉ g) : Chain (a.flush t).mrNext q (z₁ ++ t :: g) := by
  obtain ⟨r, h₁, h₂⟩ := seg_append.mp hz
  have hseg : Seg a.mrNext q (z₁ ++ [t]) (a.mrNext t) := seg_append.mpr ⟨r, h₁, h₂.1, rfl⟩
  have hz₁ : t ∉ z₁ := fun hm => (List.nodup_append.mp (Chain.nodup hz)).2.2 t hm t (by simp) rfl
  exact hseg.redirect hz₁ h.freelist ht

/-- `free_node` writes the `mr_next` of its node, and in a flush that of `lfl_tail`. -/
theorem freeNode_mrNext {x : Addr} (hx : x ≠ p)
    (ht : amortFreeOn ≤ a.lcnt + 1 → x = a.tail p → a.mrNext x = a.freelist) :
    (a.freeNode p).mrNext x = a.mrNext x := by
  have hpush : (a.push p).mrNext x = a.mrNext x := Function.update_of_ne hx _ _
  unfold Pool.freeNode Pool.addFree
  split
  · rename_i hc
    by_cases he : x = a.tail p
    · rw [ht hc he, he]
      simp [Pool.flush]
    · exact (Function.update_of_ne he _ _).trans hpush
  · exact hpush

theorem Lists.freeNode (h : a.Lists l g) (hl : p ∉ l) (hg : p ∉ g) :
    ∃ l' g', (a.freeNode p).Lists l' g' ∧ ∀ n, n ∈ l' ∨ n ∈ g' → n = p ∨ n ∈ l ∨ n ∈ g := by
  have hpush := h.push hl hg
  unfold Pool.freeNode Pool.addFree
  split
  · obtain ⟨g', hfl, hsub⟩ := hpush.flush_sub (a.tail p)
    refine ⟨[], g', hfl, fun n hn => ?_⟩
    have := hsub n (by simpa using hn)
    simpa [or_assoc] using this
  · exact ⟨p :: l, g, hpush, by simp [or_assoc]⟩

/-- `free_node` puts its node before all others, and keeps the order of those that are left. -/
theorem Lists.freeNode_sublist (h : a.Lists l g) (hl : p ∉ l) (hg : p ∉ g) :
    ∃ l' g', (a.freeNode p).Lists l' g' ∧ (l' ++ g').Sublist (p :: (l ++ g)) ∧
      ((a.freeNode p).lflTail = none ∨ g' = g ∧ (a.freeNode p).lflTail = some (a.tail p)) := by
  have hpush := h.push hl hg
  unfold Pool.freeNode Pool.addFree
  split
  · by_cases ht : a.tail p ∈ p :: l
    · obtain ⟨l₁, l₂, hsplit⟩ := List.append_of_mem ht
      rw [hsplit] at hpush
      refine ⟨[], _, hpush.flush_on, ?_, .inl rfl⟩
      rw [List.nil_append, ← List.cons_append, hsplit, List.append_assoc, List.cons_append]
      exact (List.Sublist.refl l₁).append ((List.sublist_append_right l₂ g).cons_cons _)
    · refine ⟨[], _, hpush.flush_off ht, ?_, .inl rfl⟩
      rw [List.nil_append, ← List.cons_append]
      exact List.sublist_append_left _ _
  · exact ⟨p :: l, g, hpush, List.Sublist.refl _, .inr ⟨rfl, rfl⟩⟩

@[simp] theorem newNode_lflTail (a : Pool) (fresh : Addr) : (a.newNode fresh).1.lflTail = a.lflTail := by
  obtain ⟨mr, fl, p, t, c⟩ := a
  cases p <;> cases fl <;> rfl

/-- `new_node` returns a node of the lists, or the fresh one where they are empty. -/
theorem Lists.newNode (h : a.Lists l g) (fresh : Addr) :
    ∃ l' g', (a.newNode fresh).1.Lists l' g' ∧ (∀ n, n ∈ l' ∨ n ∈ g' → n ∈ l ∨ n ∈ g) ∧
      (a.newNode fresh).2 ∉ l' ∧ (a.newNode fresh).2 ∉ g' ∧
      ((a.newNode fresh).2 ∈ l ∨ (a.newNode fresh).2 ∈ g ∨ a.getFree.2 = none ∧ (a.newNode fresh).2 = fresh) ∧
      ∀ n, (a.getFree.2 = none → n ≠ fresh) → (a.newNode fresh).1.mrNext n = a.mrNext n := by
  rcases h.getFree with ⟨rfl, rfl, he⟩ | ⟨n, a', l', g', he, hlists, hmr, hcase⟩
  · simp only [Pool.newNode, he]
    exact ⟨[], [], ⟨h.lfl, h.freelist, by simp⟩, by simp, by simp, by simp, by simp,
      fun n hn => Function.update_of_ne (by simpa using hn) _ _⟩
  · simp only [Pool.newNode, he]
    have hnd := Chain.nodup h.lfl
    have hnd' := Chain.nodup h.freelist
    have hap := h.apart
    refine ⟨l', g', hlists, ?_, ?_, ?_, ?_, fun x _ => by rw [hmr]⟩
    · grind
    · grind
    · grind
    · grind

end Pool
end Gecos
