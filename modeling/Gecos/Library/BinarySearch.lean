import Mathlib.Data.Int.Order.Basic
import Mathlib.Data.List.Chain

/-! Binary search with a three-way comparator, which need not be an order on all values. -/
namespace Gecos.Library
variable {α : Type*} {cmp : α → α → Int} {l base : List α} {a b c key p : α} {lo up fuel : Nat}

/-- `cmp` is a total order of the elements of `l`. -/
structure Orders (cmp : α → α → Int) (l : List α) : Prop where
  zero : ∀ a ∈ l, ∀ b ∈ l, cmp a b = 0 ↔ a = b
  opposite : ∀ a ∈ l, ∀ b ∈ l, (cmp b a).sign = -(cmp a b).sign
  trans : ∀ a ∈ l, ∀ b ∈ l, ∀ c ∈ l, cmp a b < 0 → cmp b c < 0 → cmp a c < 0

/-- As `qsort` leaves an array: no element is above the next. -/
def Sorted (cmp : α → α → Int) (l : List α) : Prop := l.IsChain fun a b => cmp a b ≤ 0

instance (cmp : α → α → Int) (l : List α) : Decidable (Sorted cmp l) :=
  inferInstanceAs (Decidable (l.IsChain _))

/-- The loop of `bsearch` between `lo` and `hi`, with fuel for its passes. -/
def bsearchLoop (cmp : α → α → Int) (key : α) (base : List α) : Nat → Nat → Nat → Option α
  | 0, _, _ => none
  | fuel + 1, lo, hi =>
    if lo < hi then
      let idx := (lo + hi) / 2
      base[idx]?.bind fun p =>
        if cmp key p < 0 then bsearchLoop cmp key base fuel lo idx
        else if 0 < cmp key p then bsearchLoop cmp key base fuel (idx + 1) hi
        else some p
    else none

/-- `bsearch`: the element it points to, or none for `NULL`. -/
def bsearch (cmp : α → α → Int) (key : α) (base : List α) : Option α :=
  bsearchLoop cmp key base base.length 0 base.length

theorem Orders.mono {l' : List α} (h : Orders cmp l) (hl : l' ⊆ l) : Orders cmp l' where
  zero a ha b hb := h.zero a (hl ha) b (hl hb)
  opposite a ha b hb := h.opposite a (hl ha) b (hl hb)
  trans a ha b hb c hc := h.trans a (hl ha) b (hl hb) c (hl hc)

theorem Orders.pos_iff (h : Orders cmp l) (ha : a ∈ l) (hb : b ∈ l) : 0 < cmp b a ↔ cmp a b < 0 := by
  rw [← Int.sign_eq_one_iff_pos, h.opposite a ha b hb, ← Int.sign_eq_neg_one_iff_neg]
  omega

theorem Orders.lt_trichotomy (h : Orders cmp l) (ha : a ∈ l) (hb : b ∈ l) : cmp a b < 0 ∨ a = b ∨ cmp b a < 0 := by
  rcases Int.lt_trichotomy (cmp a b) 0 with hlt | heq | hgt
  · exact .inl hlt
  · exact .inr (.inl ((h.zero a ha b hb).mp heq))
  · exact .inr (.inr ((h.pos_iff hb ha).mp hgt))

theorem Orders.le_trans (h : Orders cmp l) (ha : a ∈ l) (hb : b ∈ l) (hc : c ∈ l) (hab : cmp a b ≤ 0)
    (hbc : cmp b c ≤ 0) : cmp a c ≤ 0 := by
  rcases hab.lt_or_eq with hab | hab
  · rcases hbc.lt_or_eq with hbc | hbc
    · exact (h.trans a ha b hb c hc hab hbc).le
    · obtain rfl := (h.zero b hb c hc).mp hbc
      exact hab.le
  · obtain rfl := (h.zero a ha b hb).mp hab
    exact hbc

/-- What is in order from one element to the next is in order throughout. -/
theorem Sorted.pairwise (hs : Sorted cmp l) (h : Orders cmp l) : l.Pairwise fun a b => cmp a b ≤ 0 := by
  induction l with
  | nil => exact .nil
  | cons a l ih =>
    have hrest := ih hs.tail (h.mono (List.subset_cons_self a l))
    refine .cons (fun x hx => ?_) hrest
    cases l with
    | nil => simp at hx
    | cons b l =>
      have hab : cmp a b ≤ 0 := (List.isChain_cons_cons.mp hs).1
      rcases List.mem_cons.mp hx with rfl | hx
      · exact hab
      · exact h.le_trans (by simp) (by simp) (by simp [hx]) hab ((List.pairwise_cons.mp hrest).1 x hx)

/-- A finite set has a least element. -/
theorem Orders.exists_least (h : Orders cmp l) (hl : l ≠ []) : ∃ s ∈ l, ∀ x ∈ l, cmp s x ≤ 0 := by
  induction l with
  | nil => exact absurd rfl hl
  | cons a l ih =>
    have haa : cmp a a = 0 := (h.zero a (by simp) a (by simp)).mpr rfl
    cases l with
    | nil => exact ⟨a, by simp, by simp [haa]⟩
    | cons b l =>
      obtain ⟨s, hs, hle⟩ := ih (h.mono (List.subset_cons_self a _)) (by simp)
      rcases h.lt_trichotomy (a := a) (b := s) (by simp) (by simp [hs]) with hlt | rfl | hgt
      · refine ⟨a, by simp, fun x hx => ?_⟩
        rcases List.mem_cons.mp hx with rfl | hx
        · exact haa.le
        · exact h.le_trans (by simp) (by simp [hs]) (by simp [hx]) hlt.le (hle x hx)
      · exact ⟨a, by simp, by simpa [haa] using hle⟩
      · refine ⟨s, by simp [hs], fun x hx => ?_⟩
        rcases List.mem_cons.mp hx with rfl | hx
        · exact hgt.le
        · exact hle x hx

/-- The loop finds an element that stands between its bounds. -/
theorem bsearchLoop_found {i : Nat} (h : Orders cmp base) (hs : Sorted cmp base) (hi : i < base.length)
    (hhi : up ≤ base.length) (hlo : lo ≤ i) (hlt : i < up) (hf : up - lo ≤ fuel) :
    bsearchLoop cmp base[i] base fuel lo up = some base[i] := by
  have hpair := List.pairwise_iff_getElem.mp (hs.pairwise h)
  induction fuel generalizing lo up with
  | zero => omega
  | succ fuel ih =>
    have hidx : (lo + up) / 2 < base.length := by omega
    generalize hj : (lo + up) / 2 = j at hidx
    have hp : base[i] ∈ base := List.getElem_mem hi
    have hq : base[j] ∈ base := List.getElem_mem hidx
    have hloop : bsearchLoop cmp base[i] base (fuel + 1) lo up =
        if cmp base[i] base[j] < 0 then bsearchLoop cmp base[i] base fuel lo j
        else if 0 < cmp base[i] base[j] then bsearchLoop cmp base[i] base fuel (j + 1) up else some base[j] := by
      rw [bsearchLoop, if_pos (by omega)]
      simp only [hj, List.getElem?_eq_getElem hidx, Option.bind_some]
    rw [hloop]
    split
    case isTrue hneg =>
      -- the key is before the element in the middle
      have hij : i < j := by
        by_contra hge
        rcases (Nat.le_of_not_lt hge).lt_or_eq with hji | rfl
        · have hle := hpair j i hidx hi hji
          have hpos := (h.pos_iff hp hq).mpr hneg
          omega
        · rw [(h.zero _ hp _ hp).mpr rfl] at hneg
          omega
      exact ih hidx.le hlo hij (by omega)
    case isFalse hneg =>
      split
      case isTrue hpos =>
        have hji : j < i := by
          by_contra hge
          rcases (Nat.le_of_not_lt hge).lt_or_eq with hij | rfl
          · have hle := hpair i j hi hidx hij
            omega
          · rw [(h.zero _ hp _ hp).mpr rfl] at hpos
            omega
        exact ih hhi hji hlt (by omega)
      case isFalse hpos =>
        have heq := (h.zero _ hp _ hq).mp (by omega)
        rw [heq]

theorem bsearch_found (h : Orders cmp base) (hs : Sorted cmp base) (hk : key ∈ base) :
    bsearch cmp key base = some key := by
  obtain ⟨i, hi, rfl⟩ := List.getElem_of_mem hk
  exact bsearchLoop_found h hs hi le_rfl (Nat.zero_le _) hi (by omega)

/-- It finds only elements that compare equal to the key. -/
theorem bsearchLoop_some (h : bsearchLoop cmp key base fuel lo up = some p) : p ∈ base ∧ cmp key p = 0 := by
  induction fuel generalizing lo up with
  | zero => cases h
  | succ fuel ih =>
    unfold bsearchLoop at h
    split at h
    case isFalse => cases h
    obtain ⟨q, hq, h⟩ := Option.bind_eq_some_iff.mp h
    split at h
    · exact ih h
    · split at h
      · exact ih h
      · cases h
        exact ⟨List.mem_of_getElem? hq, by omega⟩

/-- In a sorted array, `bsearch` decides membership. -/
theorem bsearch_isSome_iff (h : Orders cmp l) (hbase : base ⊆ l) (hk : key ∈ l) (hs : Sorted cmp base) :
    (bsearch cmp key base).isSome ↔ key ∈ base := by
  constructor
  · intro hsome
    obtain ⟨p, hp⟩ := Option.isSome_iff_exists.mp hsome
    obtain ⟨hmem, hzero⟩ := bsearchLoop_some hp
    rwa [(h.zero key hk p (hbase hmem)).mp hzero]
  · intro hmem
    rw [bsearch_found (h.mono hbase) hs hmem]
    rfl

end Gecos.Library
