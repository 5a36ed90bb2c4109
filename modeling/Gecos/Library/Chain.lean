import Mathlib.Data.List.Nodup
import Mathlib.Logic.Function.Basic

/-! Singly linked chains: the lists that a successor function threads through memory. -/
namespace Gecos.Library
variable {α : Type*}

/-- `Seg nx p l q`: following `nx` from `p` visits exactly `l` and arrives at `q`. -/
def Seg (nx : α → Option α) : Option α → List α → Option α → Prop
  | p, [], q => p = q
  | p, a :: l, q => p = some a ∧ Seg nx (nx a) l q

instance Seg.decidable [DecidableEq α] (nx : α → Option α) : ∀ p l q, Decidable (Seg nx p l q)
  | p, [], q => inferInstanceAs (Decidable (p = q))
  | p, a :: l, q => @instDecidableAnd (p = some a) (Seg nx (nx a) l q) _ (Seg.decidable nx (nx a) l q)

/-- A segment that runs to the null pointer. -/
abbrev Chain (nx : α → Option α) (p : Option α) (l : List α) : Prop := Seg nx p l none

/-- Some number of successor steps leads from `p` to `a`. -/
def Reach (nx : α → Option α) (p : Option α) (a : α) : Prop := ∃ l, Seg nx p l (some a)

open Classical in
/-- The chain from `p`; empty where following `nx` never ends. -/
noncomputable def chainOf (nx : α → Option α) (p : Option α) : List α :=
  if h : ∃ l, Chain nx p l then h.choose else []

/-- Every chain ends. -/
def Ends (nx : α → Option α) : Prop := ∀ a, ∃ l, Chain nx (some a) l

variable {nx nx' : α → Option α} {p q r : Option α} {l l₁ l₂ l₃ : List α} {a b : α}

@[simp] theorem seg_nil : Seg nx p [] q ↔ p = q := Iff.rfl
@[simp] theorem seg_cons : Seg nx p (a :: l) q ↔ p = some a ∧ Seg nx (nx a) l q := Iff.rfl

theorem seg_append : Seg nx p (l₁ ++ l₂) q ↔ ∃ r, Seg nx p l₁ r ∧ Seg nx r l₂ q := by
  induction l₁ generalizing p with
  | nil => simp
  | cons a l₁ ih => simp [ih, and_assoc]

theorem Seg.congr (h : Seg nx p l q) (ha : ∀ a ∈ l, nx' a = nx a) : Seg nx' p l q := by
  induction l generalizing p with
  | nil => exact h
  | cons a l ih =>
    refine ⟨h.1, ?_⟩
    rw [ha a (by simp)]
    exact ih h.2 fun b hb => ha b (by simp [hb])

theorem Seg.head (h : Chain nx p l) : p = l.head? := by
  cases l with
  | nil => exact h
  | cons a l => exact h.1

/-- Only one list of cells runs from a given pointer to null. -/
theorem Chain.unique (h : Chain nx p l₁) (h' : Chain nx p l₂) : l₁ = l₂ := by
  induction l₁ generalizing p l₂ with
  | nil =>
    cases l₂ with
    | nil => rfl
    | cons b l₂ => cases (seg_nil.mp h).symm.trans h'.1
  | cons a l₁ ih =>
    obtain ⟨rfl, h⟩ := h
    cases l₂ with
    | nil => simp at h'
    | cons b l₂ =>
      obtain ⟨hb, h'⟩ := h'
      cases hb
      rw [ih h h']

theorem chainOf_eq (h : Chain nx p l) : chainOf nx p = l := by
  have hex : ∃ l, Chain nx p l := ⟨l, h⟩
  unfold chainOf
  rw [dif_pos hex]
  exact Chain.unique hex.choose_spec h

theorem Seg.suffix (h : Chain nx p (l₁ ++ l₂)) : ∃ q, Chain nx q l₂ := by
  obtain ⟨q, _, h⟩ := seg_append.mp h
  exact ⟨q, h⟩

theorem Seg.next_eq (h : Chain nx p (l₁ ++ a :: l₂)) : nx a = l₂.head? := by
  obtain ⟨_, _, _, h⟩ := seg_append.mp h
  exact Seg.head h

/-- A chain that ends passes no cell twice. -/
theorem Chain.nodup (h : Chain nx p l) : l.Nodup := by
  induction l generalizing p with
  | nil => simp
  | cons a l ih =>
    refine List.nodup_cons.mpr ⟨fun ha => ?_, ih h.2⟩
    obtain ⟨l₁, l₂, rfl⟩ := List.append_of_mem ha
    obtain ⟨r, _, hr⟩ := seg_append.mp h.2
    have hlen := congrArg List.length (Chain.unique h.2 hr.2)
    simp at hlen
    omega

theorem Seg.reach (h : Seg nx p (l₁ ++ a :: l₂) q) : Reach nx p a := by
  obtain ⟨r, h₁, h₂⟩ := seg_append.mp h
  exact ⟨l₁, h₂.1 ▸ h₁⟩

/-- Along a chain that ends, reachable means listed. -/
theorem Chain.reach_iff (h : Chain nx p l) : Reach nx p a ↔ a ∈ l := by
  constructor
  · rintro ⟨k, hk⟩
    induction k generalizing p l with
    | nil =>
      rw [seg_nil] at hk
      subst hk
      cases l with
      | nil => simp at h
      | cons b l => cases h.1; simp
    | cons c k ih =>
      obtain ⟨rfl, hk⟩ := hk
      cases l with
      | nil => simp at h
      | cons b l => cases h.1; exact List.mem_cons_of_mem _ (ih h.2 hk)
  · intro ha
    obtain ⟨l₁, l₂, rfl⟩ := List.append_of_mem ha
    exact Seg.reach h

theorem Ends.chain (h : Ends nx) (p : Option α) : ∃ l, Chain nx p l := by
  cases p with
  | none => exact ⟨[], rfl⟩
  | some a => exact h a

theorem Ends.chainOf_spec (h : Ends nx) (p : Option α) : Chain nx p (chainOf nx p) := by
  obtain ⟨l, hl⟩ := h.chain p
  rwa [chainOf_eq hl]

theorem Ends.chainOf_some (h : Ends nx) (a : α) : chainOf nx (some a) = a :: chainOf nx (nx a) :=
  chainOf_eq ⟨rfl, h.chainOf_spec _⟩

section update
variable [DecidableEq α]

theorem Seg.update (h : Seg nx p l q) (ha : a ∉ l) : Seg (Function.update nx a r) p l q :=
  h.congr fun _ hb => Function.update_of_ne (ne_of_mem_of_not_mem hb ha) _ _

/-- Redirecting the last cell of a segment replaces all that follows it. -/
theorem Seg.redirect (h : Seg nx p (l₁ ++ [a]) r) (ha : a ∉ l₁) (h₂ : Seg nx q l₂ none)
    (ha₂ : a ∉ l₂) : Chain (Function.update nx a q) p (l₁ ++ a :: l₂) := by
  obtain ⟨s, h₁, hs⟩ := seg_append.mp h
  refine seg_append.mpr ⟨s, h₁.update ha, hs.1, ?_⟩
  rw [Function.update_self]
  exact h₂.update ha₂

/-- The link of a cell may lead to any chain that the cell is not on. -/
theorem Ends.update (h : Ends nx) (hq : Chain nx q l) (ha : a ∉ l) : Ends (Function.update nx a q) := by
  intro b
  obtain ⟨l', hb⟩ := h b
  by_cases hab : a ∈ l'
  · obtain ⟨l₁, l₂, rfl⟩ := List.append_of_mem hab
    have hnd := Chain.nodup hb
    have hl₁ : a ∉ l₁ := fun hm => (List.nodup_append.mp hnd).2.2 a hm a (by simp) rfl
    obtain ⟨r, h₁, h₂⟩ := seg_append.mp hb
    have hseg : Seg nx (some b) (l₁ ++ [a]) (nx a) := seg_append.mpr ⟨r, h₁, h₂.1, rfl⟩
    exact ⟨l₁ ++ a :: l, hseg.redirect hl₁ hq ha⟩
  · exact ⟨l', Seg.update hb hab⟩

/-- Clearing the link of a cell keeps the chain up to there. -/
theorem Chain.cut (h : Chain nx p l) (a : α) : ∃ l', Chain (Function.update nx a none) p l' ∧ l' <+: l := by
  by_cases ha : a ∈ l
  · obtain ⟨l₁, l₂, rfl⟩ := List.append_of_mem ha
    have hnd := Chain.nodup h
    obtain ⟨r, h₁, h₂⟩ := seg_append.mp h
    have hseg : Seg nx p (l₁ ++ [a]) (nx a) := seg_append.mpr ⟨r, h₁, h₂.1, rfl⟩
    have hl₁ : a ∉ l₁ := fun hm => (List.nodup_append.mp hnd).2.2 a hm a (by simp) rfl
    have hnil : Chain nx none [] := rfl
    exact ⟨l₁ ++ [a], hseg.redirect hl₁ hnil (by simp), l₂, by simp⟩
  · exact ⟨l, Seg.update h ha, List.prefix_rfl⟩

/-- Where only the link of its cell `a` was cleared, the chain ends there and goes on without the change. -/
theorem Chain.join (h : Chain (Function.update nx a none) p l₁) (ha : a ∈ l₁) (h₂ : Chain nx (nx a) l₂) :
    Chain nx p (l₁ ++ l₂) := by
  have hnd := Chain.nodup h
  obtain ⟨k₁, k₂, rfl⟩ := List.append_of_mem ha
  have hend := Seg.next_eq h
  rw [Function.update_self, eq_comm, List.head?_eq_none_iff] at hend
  subst hend
  obtain ⟨r, hr, hs⟩ := seg_append.mp h
  have hk : a ∉ k₁ := fun hm => (List.nodup_append.mp hnd).2.2 a hm a (by simp) rfl
  rw [List.append_assoc]
  refine seg_append.mpr ⟨r, hr.congr fun b hb => ?_, hs.1, h₂⟩
  rw [Function.update_of_ne (ne_of_mem_of_not_mem hb hk)]

end update
end Gecos.Library
