import Mathlib.Data.Nat.Log
import Mathlib.Tactic.Ring

/-! Natural numbers in a floating-point format: rounding to `p` significant bits, to the nearest number
of the format and in a tie to the even one. -/
namespace Gecos.Library

/-- The distance of the numbers of the format around `x`. -/
def ulp (p x : Nat) : Nat := 2 ^ (x.log2 + 1 - p)

def roundEven (p x : Nat) : Nat :=
  let u := ulp p x
  if 2 * (x % u) < u ∨ 2 * (x % u) = u ∧ x / u % 2 = 0 then x / u * u else (x / u + 1) * u

variable {p x : Nat}

theorem ulp_of_lt (hp : 0 < p) (h : x < 2 ^ p) : ulp p x = 1 := by
  have hl : x.log2 + 1 - p = 0 := by
    rcases Nat.eq_zero_or_pos x with rfl | hx
    · simp only [Nat.log2_zero]
      omega
    · have := (Nat.log2_lt (by omega)).mpr h
      omega
  rw [ulp, hl, Nat.pow_zero]

/-- From `2 ^ p` on only even numbers are in the format. -/
theorem ulp_of_le (h : 2 ^ p ≤ x) : ∃ e, ulp p x = 2 * 2 ^ e := by
  have hx : x ≠ 0 := by
    have := Nat.two_pow_pos p
    omega
  have hl : p ≤ x.log2 := (Nat.le_log2 hx).mpr h
  refine ⟨x.log2 - p, ?_⟩
  rw [ulp, ← Nat.pow_succ', show x.log2 + 1 - p = (x.log2 - p).succ by omega]

/-- Numbers with `p` bits are in the format. -/
theorem roundEven_of_lt (hp : 0 < p) (h : x < 2 ^ p) : roundEven p x = x := by
  simp [roundEven, ulp_of_lt hp h, Nat.mod_one]

/-- A number of the format rounds to itself. -/
theorem roundEven_of_mod (h : x % ulp p x = 0) : roundEven p x = x := by
  have hpos : 0 < ulp p x := Nat.two_pow_pos _
  have hdiv := Nat.div_add_mod' x (ulp p x)
  simp only [roundEven, h, Nat.mul_zero, hpos, true_or, if_true]
  omega

theorem ulp_eq_two (hle : 2 ^ p ≤ x) (hlt : x < 2 ^ (p + 1)) : ulp p x = 2 := by
  have hx : x ≠ 0 := by
    have := Nat.two_pow_pos p
    omega
  have hl : x.log2 = p := by
    apply le_antisymm
    · exact Nat.le_of_lt_succ ((Nat.log2_lt hx).mpr hlt)
    · exact (Nat.le_log2 hx).mpr hle
  rw [ulp, hl, show p + 1 - p = 1 by omega, Nat.pow_one]

/-- A counter of the format that is increased by one stops at `2 ^ p`. -/
theorem roundEven_succ (hp : 1 < p) (h : x ≤ 2 ^ p) : roundEven p (x + 1) = min (x + 1) (2 ^ p) := by
  obtain ⟨q, rfl⟩ : ∃ q, p = q + 2 := ⟨p - 2, by omega⟩
  have hpow : 2 ^ (q + 2) = 2 ^ q * 4 := Nat.pow_add 2 q 2
  have hpow' : 2 ^ (q + 2 + 1) = 2 ^ q * 8 := Nat.pow_add 2 q 3
  have hpos := Nat.two_pow_pos q
  rcases lt_trichotomy (x + 1) (2 ^ (q + 2)) with hlt | he | hlt
  · rw [roundEven_of_lt (by omega) hlt, Nat.min_eq_left hlt.le]
  · have hu : ulp (q + 2) (x + 1) = 2 := ulp_eq_two (by omega) (by omega)
    rw [roundEven_of_mod (by rw [hu]; omega), he, Nat.min_self]
  · have hu : ulp (q + 2) (x + 1) = 2 := ulp_eq_two (by omega) (by omega)
    have htie : 2 * ((x + 1) % 2) = 2 ∧ (x + 1) / 2 % 2 = 0 := by omega
    simp only [roundEven, hu, htie, and_self, or_true, if_true]
    omega

theorem roundEven_of_le (hp : 1 < p) (h : x ≤ 2 ^ p) : roundEven p x = x := by
  cases x with
  | zero => exact roundEven_of_lt (by omega) (Nat.two_pow_pos p)
  | succ x => rw [roundEven_succ hp (by omega), Nat.min_eq_left h]

/-- Where rounding adds one: the next number is in the format, and divisible by 4 as it may follow a tie. -/
theorem roundEven_eq_succ_iff (hp : 0 < p) :
    roundEven p x = x + 1 ↔ 2 ^ p ≤ x ∧ (x + 1) % 4 = 0 ∧ (x + 1) % ulp p x = 0 := by
  by_cases hlt : x < 2 ^ p
  · rw [roundEven_of_lt hp hlt]
    omega
  have hle : 2 ^ p ≤ x := by omega
  simp only [hle, true_and]
  obtain ⟨e, hu⟩ := ulp_of_le hle
  have hpos := Nat.two_pow_pos e
  have hdiv := Nat.div_add_mod' x (ulp p x)
  have hmod := Nat.mod_lt x (show 0 < ulp p x by omega)
  have hnext : (x + 1) % ulp p x = 0 ↔ x % ulp p x + 1 = ulp p x := by
    rw [Nat.add_mod, Nat.mod_eq_of_lt (show 1 < ulp p x by omega)]
    constructor
    · intro h
      by_contra hne
      rw [Nat.mod_eq_of_lt (by omega)] at h
      omega
    · intro h
      rw [h, Nat.mod_self]
  have hfour (h : x % ulp p x + 1 = ulp p x) : (x + 1) % 4 = 0 ↔ e ≠ 0 ∨ x / ulp p x % 2 = 1 := by
    cases e with
    | zero =>
      rw [hu] at h hdiv ⊢
      omega
    | succ e =>
      have hx : x + 1 = 4 * ((x / ulp p x + 1) * 2 ^ e) := by
        calc
          x + 1 = x / ulp p x * ulp p x + (x % ulp p x + 1) := by omega
          _ = (x / ulp p x + 1) * ulp p x := by rw [h, Nat.succ_mul]
          _ = _ := by rw [hu, Nat.pow_succ]; ring
      rw [hx]
      simp
  rw [hnext]
  simp only [roundEven]
  split
  case isTrue hdown =>
    refine ⟨fun h => by omega, fun ⟨h4, hr⟩ => ?_⟩
    -- the last number before one of the format is rounded down in a tie only
    obtain ⟨htie, heven⟩ : 2 * (x % ulp p x) = ulp p x ∧ x / ulp p x % 2 = 0 := hdown.resolve_left (by omega)
    have he : e = 0 := by
      have hone : 2 ^ e = 2 ^ 0 := by omega
      exact Nat.pow_right_injective le_rfl hone
    rcases (hfour hr).mp h4 with h | h
    · exact absurd he h
    · omega
  case isFalse hup =>
    have hval : (x / ulp p x + 1) * ulp p x = x + 1 ↔ x % ulp p x + 1 = ulp p x := by
      rw [Nat.succ_mul]
      omega
    rw [hval]
    refine ⟨fun hr => ⟨(hfour hr).mpr ?_, hr⟩, And.right⟩
    by_contra hno
    obtain ⟨rfl, heven⟩ : e = 0 ∧ x / ulp p x % 2 ≠ 1 := by
      rw [not_or, not_not] at hno
      exact hno
    exact hup (.inr (by omega))

end Gecos.Library
