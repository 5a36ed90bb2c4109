import Gecos.Hazard.Scan
import Gecos.Library.BinarySearch

/-! `compare` of hp.c, by which `scan` sorts and searches the hazard pointers. Here a node is the number of
its first byte. -/
namespace Gecos.Hazard
open Library
variable {a b : Int} {nodes plist : List Int} {cur : Int}

/-- The difference of two `node_t *`: an arithmetic shift of the bytes between them. -/
def nodeDiff (a b : Int) : Int := (a - b) / 64

/-- `compare`, whose `int` keeps the low 32 bits of the difference. -/
def compare (a b : Int) : Int := (nodeDiff a b).bmod (2 ^ 32)

/-- What `scan` relies on among these nodes: `compare` orders them, and finds every hazard pointer of
a sorted `plist`. -/
structure Sortable (nodes : List Int) : Prop where
  orders : Orders compare nodes
  found : ∀ plist ⊆ nodes, Sorted compare plist → ∀ p ∈ plist, bsearch compare p plist = some p

/-- How far a node is above `base`, modulo 2^32 nodes. -/
def offset (base a : Int) : Int := (a - base) % 2 ^ 38

/-- Modulo 2^32 nodes, the nodes lie within 2^31 nodes from some address on, and one node apart. -/
def Near (nodes : List Int) : Prop :=
  ∃ base, (∀ a ∈ nodes, offset base a < 2 ^ 37) ∧
    ∀ a ∈ nodes, ∀ b ∈ nodes, a ≠ b → 64 ≤ (offset base a - offset base b).natAbs

theorem compare_neg_iff : compare a b < 0 ↔ 2 ^ 37 ≤ (a - b) % 2 ^ 38 := by
  unfold compare nodeDiff
  rw [Int.bmod_def]
  split <;> omega

theorem compare_eq_zero_iff : compare a b = 0 ↔ (a - b) % 2 ^ 38 < 64 := by
  unfold compare nodeDiff
  rw [Int.bmod_def]
  split <;> omega

/-- Nodes that lie near compare as their offsets do. -/
theorem compare_of_near {base : Int} (ha : offset base a < 2 ^ 37) (hb : offset base b < 2 ^ 37)
    (hab : a ≠ b → 64 ≤ (offset base a - offset base b).natAbs) :
    (compare a b < 0 ↔ offset base a < offset base b) ∧ (compare a b = 0 ↔ a = b) := by
  rw [compare_neg_iff, compare_eq_zero_iff]
  unfold offset at *
  by_cases he : a = b
  · subst he
    simp
  · have h := hab he
    constructor <;> omega

theorem Near.orders (h : Near nodes) : Orders compare nodes := by
  obtain ⟨base, hoff, hapart⟩ := h
  have hcmp {a b : Int} (ha : a ∈ nodes) (hb : b ∈ nodes) :=
    compare_of_near (hoff a ha) (hoff b hb) (hapart a ha b hb)
  refine ⟨fun a ha b hb => (hcmp ha hb).2, fun a ha b hb => ?_, fun a ha b hb c hc hab hbc => ?_⟩
  · obtain ⟨hlt, heq⟩ := hcmp ha hb
    obtain ⟨hlt', heq'⟩ := hcmp hb ha
    rcases lt_trichotomy (compare a b) 0 with hneg | hzero | hpos
    · have hpos : 0 < compare b a := by
        have hne : ¬ b = a := fun he => hneg.ne (heq.mpr he.symm)
        rw [← heq'] at hne
        have hge : ¬ compare b a < 0 := by
          rw [hlt']
          exact (hlt.mp hneg).not_gt
        omega
      rw [Int.sign_eq_neg_one_of_neg hneg, Int.sign_eq_one_of_pos hpos]
      rfl
    · obtain rfl := heq.mp hzero
      rw [hzero]
      rfl
    · have hneg : compare b a < 0 := by
        have hne : a ≠ b := fun he => hpos.ne' (heq.mpr he)
        have hap := hapart a ha b hb hne
        rw [hlt']
        have hge := mt hlt.mpr hpos.not_gt
        omega
      rw [Int.sign_eq_neg_one_of_neg hneg, Int.sign_eq_one_of_pos hpos]
  · rw [(hcmp ha hb).1] at hab
    rw [(hcmp hb hc).1] at hbc
    rw [(hcmp ha hc).1]
    exact hab.trans hbc

/-- The least node is one from which on the others lie. -/
theorem near_of_orders (h : Orders compare nodes) : Near nodes := by
  cases nodes with
  | nil => exact ⟨0, by simp, by simp⟩
  | cons n rest =>
    obtain ⟨base, hbase, hle⟩ := h.exists_least (by simp)
    have hoff (a : Int) (ha : a ∈ n :: rest) : offset base a < 2 ^ 37 := by
      unfold offset
      rcases (hle a ha).lt_or_eq with hlt | heq
      · have hpos := (h.pos_iff hbase ha).mpr hlt
        have hne : ¬ compare a base < 0 := hpos.not_gt
        rw [compare_neg_iff] at hne
        omega
      · obtain rfl := (h.zero base hbase a ha).mp heq
        simp
    refine ⟨base, hoff, fun a ha b hb hab => ?_⟩
    have hab₀ := mt (h.zero a ha b hb).mp hab
    have hba₀ := mt (h.zero b hb a ha).mp hab.symm
    rw [compare_eq_zero_iff] at hab₀ hba₀
    have hoa := hoff a ha
    have hob := hoff b hb
    unfold offset at *
    omega

/-- It is enough that they lie within 2^37 bytes. -/
theorem near_of_span {base : Int} (hspan : ∀ a ∈ nodes, base ≤ a ∧ a < base + 2 ^ 37)
    (hapart : ∀ a ∈ nodes, ∀ b ∈ nodes, a ≠ b → 64 ≤ (a - b).natAbs) : Near nodes := by
  have hoff (a : Int) (ha : a ∈ nodes) : offset base a = a - base := by
    have h := hspan a ha
    exact Int.emod_eq_of_lt (by omega) (by omega)
  refine ⟨base, fun a ha => ?_, fun a ha b hb hab => ?_⟩
  · have h := hspan a ha
    rw [hoff a ha]
    omega
  · have h := hapart a ha b hb hab
    rw [hoff a ha, hoff b hb]
    omega

/-- Then the test of `scan` by `bsearch` is the test for membership in `plist`. -/
theorem Near.bsearch_isSome_iff (h : Near nodes) (hplist : plist ⊆ nodes) (hcur : cur ∈ nodes)
    (hs : Sorted compare plist) : (bsearch compare cur plist).isSome ↔ cur ∈ plist :=
  Library.bsearch_isSome_iff h.orders hplist hcur hs

/-- `compare` does what `scan` relies on exactly among nodes that lie near one another. -/
theorem sortable_iff (nodes : List Int) : Sortable nodes ↔ Near nodes := by
  constructor
  · intro h
    exact near_of_orders h.orders
  · intro h
    exact ⟨h.orders, fun plist hsub hs p hp => bsearch_found (h.orders.mono hsub) hs hp⟩

/-- Two nodes of the heap and of an arena that compare equal, and four hazard pointers in an order that
`compare` accepts, of which `bsearch` does not find the first. -/
theorem compare_not_order : ¬ Sortable [0x555500001000, 0x7f5500001000] ∧
    Sorted compare [0x555500001000, 0x556d00001000, 0x558500001000, 0x559d00001000] ∧
      bsearch compare 0x555500001000 [0x555500001000, 0x556d00001000, 0x558500001000, 0x559d00001000] = none := by
  refine ⟨fun h => ?_, by decide, by decide⟩
  have heq := (h.orders.zero 0x555500001000 (by simp) 0x7f5500001000 (by simp)).mp (by decide)
  exact absurd heq (by decide)

end Gecos.Hazard
