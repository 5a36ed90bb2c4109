import Gecos.Library.Traversal

/-! Traversal of a sorted list without validation: the walker may follow links of cells that left
the list during the walk, as long as what it can reach is not recycled meanwhile. -/
namespace Gecos.Library
namespace Traversal
variable {S B α K : Type*} [LinearOrder K] (T : Traversal S B α K)

/-- `L` are cells that were in the list at some state of the walk and have left it since: their links
lead to further such cells or into the list, and skipped no key that was there all the time. -/
def Trail (hist : List S) (s : S) (b : B) (k : K) (L : α → Prop) : Prop :=
  ∀ x, L x → T.key s x < k →
    (T.next s x = none → ∃ m ∈ hist, ¬ T.member m b k) ∧
    ∀ q, T.next s x = some q → (T.live s b q ∨ L q) ∧ ∃ m ∈ hist, T.Settles m b k (T.key s q)

/-- The walker stands on a cell that is in the list, or on the trail. -/
def At (hist : List S) (s : S) (b : B) (k : K) (L : α → Prop) (n : α) : Prop :=
  (T.live s b n ∨ L n) ∧ ∃ m ∈ hist, T.Settles m b k (T.key s n)

/-- The same for a pointer: a null pointer settles that the key was absent. -/
def AtPtr (hist : List S) (s : S) (b : B) (k : K) (L : α → Prop) : Option α → Prop
  | none => ∃ m ∈ hist, ¬ T.member m b k
  | some n => T.At hist s b k L n

variable {T} {hist : List S} {s s' : S} {b : B} {k : K} {L L' : α → Prop} {n q : α} {p : Option α}

theorem Trail.empty : T.Trail hist s b k fun _ => False := fun _ h => h.elim

/-- A step of the system adds to the trail what it takes out of the list, and drops from it only
cells that lead on to none that the walker can still reach. -/
theorem Trail.evolve (h : T.Trail hist s b k L) (hs : T.Sound s) (hm : s ∈ hist)
    (hkeep : ∀ x, L' x → (T.live s b x ∨ L x) ∧ T.next s' x = T.next s x ∧ T.key s' x = T.key s x)
    (hsucc : ∀ x q, L' x → T.next s x = some q → T.live s b q ∨ L q → (T.live s' b q ∨ L' q) ∧ T.key s' q = T.key s q) :
    T.Trail (hist ++ [s']) s' b k L' := by
  intro x hx hk
  obtain ⟨hold, hnext, hkey⟩ := hkeep x hx
  rw [hkey] at hk
  rw [hnext]
  have hedge : (T.next s x = none → ∃ m ∈ hist, ¬ T.member m b k) ∧
      ∀ q, T.next s x = some q → (T.live s b q ∨ L q) ∧ ∃ m ∈ hist, T.Settles m b k (T.key s q) := by
    rcases hold with hl | hl
    · refine ⟨fun hn => ⟨s, hm, hs.next_none b k x hl hk hn⟩, fun q hq => ?_⟩
      obtain ⟨hlq, hset⟩ := hs.next_some b k x q hl hk hq
      exact ⟨.inl hlq, s, hm, hset⟩
    · exact h x hl hk
  refine ⟨fun hn => ?_, fun q hq => ?_⟩
  · obtain ⟨m, hm, hmem⟩ := hedge.1 hn
    exact ⟨m, by simp [hm], hmem⟩
  · obtain ⟨hreach, m, hm, hset⟩ := hedge.2 q hq
    obtain ⟨hreach', hkq⟩ := hsucc x q hx hq hreach
    exact ⟨hreach', m, by simp [hm], by rwa [hkq]⟩

theorem At.evolve (h : T.At hist s b k L n) (hkeep : T.live s' b n ∨ L' n) (hkey : T.key s' n = T.key s n) :
    T.At (hist ++ [s']) s' b k L' n := by
  obtain ⟨_, m, hm, hset⟩ := h
  exact ⟨hkeep, m, by simp [hm], by rwa [hkey]⟩

/-- The walker enters at the first cell. -/
theorem AtPtr.first (hs : T.Sound s) (hm : s ∈ hist) (hp : T.first s b = p) : T.AtPtr hist s b k L p := by
  cases p with
  | none => exact ⟨s, hm, hs.first_none b k hp⟩
  | some n =>
    obtain ⟨hl, hset⟩ := hs.first_some b k n hp
    exact ⟨.inl hl, s, hm, hset⟩

/-- It moves on from a cell with a smaller key. -/
theorem At.advance (h : T.At hist s b k L n) (ht : T.Trail hist s b k L) (hs : T.Sound s) (hm : s ∈ hist)
    (hk : T.key s n < k) (hp : T.next s n = p) : T.AtPtr hist s b k L p := by
  rcases h.1 with hl | hl
  · cases p with
    | none => exact ⟨s, hm, hs.next_none b k n hl hk hp⟩
    | some q =>
      obtain ⟨hlq, hset⟩ := hs.next_some b k n q hl hk hp
      exact ⟨.inl hlq, s, hm, hset⟩
  · cases p with
    | none => exact (ht n hl hk).1 hp
    | some q => exact (ht n hl hk).2 q hp

/-- It answers by the first key that is not smaller. -/
theorem At.answer (h : T.At hist s b k L n) (hk : k ≤ T.key s n) : ∃ m ∈ hist, (T.key s n = k ↔ T.member m b k) := by
  obtain ⟨_, m, hm, hset⟩ := h
  exact ⟨m, hm, hset hk⟩

end Traversal
end Gecos.Library
