import Gecos.Library.Run
import Mathlib.Data.Nat.Basic
import Mathlib.Order.Lattice

/-! Optimistic traversal of a sorted list that changes underfoot.
A walker saves a cell with a stamp. While the stamp is unchanged the cell has not
been recycled, and what the walker knows about it still answers the lookup. -/
namespace Gecos.Library

/-- What a lookup can observe of a bucket in a state: `live` cells are in the list, or
were taken out of it but not yet given up for reuse. -/
structure Traversal (S B α K : Type*) where
  first : S → B → Option α
  next : S → α → Option α
  key : S → α → K
  stamp : S → B → α → Nat
  live : S → B → α → Prop
  member : S → B → K → Prop

namespace Traversal
variable {S B α K : Type*} [LinearOrder K] (T : Traversal S B α K)

/-- The cell answers the lookup of `k` once its key is not below `k`. -/
def Settles (s : S) (b : B) (k κ : K) : Prop := k ≤ κ → (κ = k ↔ T.member s b k)

/-- A state in which live cells lead to live cells, and skipping smaller keys loses nothing. -/
structure Sound (s : S) : Prop where
  first_none : ∀ b k, T.first s b = none → ¬ T.member s b k
  first_some : ∀ b k n, T.first s b = some n → T.live s b n ∧ T.Settles s b k (T.key s n)
  next_none : ∀ b k n, T.live s b n → T.key s n < k → T.next s n = none → ¬ T.member s b k
  next_some : ∀ b k n q, T.live s b n → T.key s n < k → T.next s n = some q →
    T.live s b q ∧ T.Settles s b k (T.key s q)

/-- Stamps never go back, and a live cell keeps its key until its stamp moves. -/
def Evolves (s s' : S) : Prop := ∀ b n, T.stamp s b n ≤ T.stamp s' b n ∧
  (T.live s b n → T.stamp s' b n = T.stamp s b n → T.live s' b n ∧ T.key s' n = T.key s n)

/-- What is known of a saved cell as long as its stamp is the saved one: it is live, and `P` holds
of its key. -/
def Pinned (P : K → Prop) (s : S) (b : B) (n : α) (g : Nat) : Prop :=
  g ≤ T.stamp s b n ∧ (T.stamp s b n = g → T.live s b n ∧ P (T.key s n))

/-- The walker's knowledge of a saved cell: conditional on its stamp being unchanged. -/
def Held (hist : List S) (s : S) (b : B) (k : K) (n : α) (g : Nat) : Prop :=
  g ≤ T.stamp s b n ∧ (T.stamp s b n = g →
    T.live s b n ∧ ∃ m ∈ hist, T.Settles m b k (T.key s n))

/-- The same for a pointer: a null pointer settles that the key was absent. -/
def HeldPtr (hist : List S) (s : S) (b : B) (k : K) (g : Nat) : Option α → Prop
  | none => ∃ m ∈ hist, ¬ T.member m b k
  | some n => T.Held hist s b k n g

variable {T} {hist : List S} {s s' : S} {b : B} {k : K} {n : α} {g : Nat} {p : Option α}

omit [LinearOrder K] in
theorem Evolves.refl (s : S) : T.Evolves s s := fun _ _ => ⟨le_rfl, fun h _ => ⟨h, rfl⟩⟩

omit [LinearOrder K] in
theorem Pinned.evolve {P : K → Prop} (h : T.Pinned P s b n g) (he : T.Evolves s s') : T.Pinned P s' b n g := by
  obtain ⟨hle, hk⟩ := he b n
  refine ⟨le_trans h.1 hle, fun hg => ?_⟩
  have hs : T.stamp s b n = g := le_antisymm (le_trans hle (le_of_eq hg)) h.1
  obtain ⟨hl, hp⟩ := h.2 hs
  obtain ⟨hl', hkey⟩ := hk hl (hg.trans hs.symm)
  exact ⟨hl', hkey ▸ hp⟩

omit [LinearOrder K] in
theorem Pinned.mono {P Q : K → Prop} (h : T.Pinned P s b n g) (hpq : ∀ κ, P κ → Q κ) : T.Pinned Q s b n g :=
  ⟨h.1, fun hg => ⟨(h.2 hg).1, hpq _ (h.2 hg).2⟩⟩

theorem Held.evolve (h : T.Held hist s b k n g) (he : T.Evolves s s') :
    T.Held (hist ++ [s']) s' b k n g := by
  have hp : T.Pinned (fun κ => ∃ m ∈ hist, T.Settles m b k κ) s b n g := h
  exact (hp.evolve he).mono (Q := fun κ => ∃ m ∈ hist ++ [s'], T.Settles m b k κ)
    fun _ ⟨m, hm, hset⟩ => ⟨m, by simp [hm], hset⟩

omit [LinearOrder K] in
/-- A key read from a saved cell is still its key, if the stamp is still the one saved. -/
theorem Pinned.key_evolve {P : K → Prop} {κ : K} (h : T.Pinned P s b n g) (he : T.Evolves s s')
    (hκ : T.stamp s b n = g → κ = T.key s n) : T.stamp s' b n = g → κ = T.key s' n := by
  intro hg
  obtain ⟨hle, hk⟩ := he b n
  have hs : T.stamp s b n = g := le_antisymm (le_trans hle (le_of_eq hg)) h.1
  exact (hκ hs).trans (hk (h.2 hs).1 (hg.trans hs.symm)).2.symm

theorem Held.key_evolve {κ : K} (h : T.Held hist s b k n g) (he : T.Evolves s s')
    (hκ : T.stamp s b n = g → κ = T.key s n) : T.stamp s' b n = g → κ = T.key s' n :=
  Pinned.key_evolve (P := fun κ => ∃ m ∈ hist, T.Settles m b k κ) h he hκ

theorem HeldPtr.evolve (h : T.HeldPtr hist s b k g p) (he : T.Evolves s s') :
    T.HeldPtr (hist ++ [s']) s' b k g p := by
  cases p with
  | none => obtain ⟨m, hm, h⟩ := h; exact ⟨m, by simp [hm], h⟩
  | some n => exact Held.evolve h he

/-- A cell read as the first of the bucket in the current state is held. -/
theorem Held.first (hs : T.Sound s) (hm : s ∈ hist) (hf : T.first s b = some n)
    (hg : g ≤ T.stamp s b n) : T.Held hist s b k n g := by
  obtain ⟨hl, hset⟩ := hs.first_some b k n hf
  exact ⟨hg, fun _ => ⟨hl, s, hm, hset⟩⟩

/-- Stepping over a smaller live cell keeps the walker's knowledge. -/
theorem HeldPtr.advance (hs : T.Sound s) (hm : s ∈ hist) (hl : T.live s b n)
    (hk : T.key s n < k) (hp : T.next s n = p) (hg : ∀ q ∈ p, g ≤ T.stamp s b q) :
    T.HeldPtr hist s b k g p := by
  cases p with
  | none => exact ⟨s, hm, hs.next_none b k n hl hk hp⟩
  | some q =>
    obtain ⟨hl', hset⟩ := hs.next_some b k n q hl hk hp
    exact ⟨hg q rfl, fun _ => ⟨hl', s, hm, hset⟩⟩

/-- Validating the stamp of a held cell whose key is large enough answers the lookup. -/
theorem Held.answer (h : T.Held hist s b k n g) (hg : T.stamp s b n = g) (hk : k ≤ T.key s n) :
    ∃ m ∈ hist, (T.key s n = k ↔ T.member m b k) := by
  obtain ⟨_, m, hm, hset⟩ := h.2 hg
  exact ⟨m, hm, hset hk⟩

end Traversal
end Gecos.Library
