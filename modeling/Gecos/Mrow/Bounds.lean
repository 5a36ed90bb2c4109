import Gecos.Hazard.Scan
import Gecos.Mrow.Config

/-! Which configurations keep every modulus and every array index of a test run in bounds. -/
namespace Gecos.Mrow
open Hazard

/-- The values of `i` in `for (int i = 0; i < bound; i++)` with an `unsigned long` bound; C defines none
for the increment past the largest `int`. -/
inductive Counter (bound : Nat) : Option Int → Prop where
  | start : Counter bound (some 0)
  | next {i : Int} : Counter bound (some i) → toUlong i < bound →
      Counter bound (if i + 1 < 2 ^ 31 then some (i + 1) else none)

/-- `myrand`: the seed that it leaves, and what it returns. -/
def myrand (seed : Nat) : Nat × Nat :=
  let seed := toUnsigned (seed * 1103515245 + 12345)
  (seed, seed / 65536 % 32768)

namespace Config
variable (c : Config)

/-- `percorekeys` of `hash_init`. -/
def percorekeys (nbcores : Nat) : Nat := toUnsigned (c.nbkeys / nbcores + 1)

/-- The key that `run` draws. -/
def draw (seed : Nat) : Int := toInt ((myrand seed).2 % c.nbkeys)

/-- `base + off` of `search` in list_hp.c. -/
def hazardIndex (t off : Nat) : Int := toInt (t * K) + off

/-- Each modulus is used only where it is not zero, and each index is in its array. -/
structure Safe (nbcores : Nat) : Prop where
  nbkeys : c.nbkeys ≠ 0
  percorekeys : 0 < c.nbkeys → c.percorekeys nbcores ≠ 0
  thread : ∀ t < c.nbthreads, t < maxThread
  hazard : ∀ t, c.nbupdaters ≤ t → t < c.nbthreads → ∀ off ≤ 1, 0 ≤ hazardIndex t off ∧ hazardIndex t off < H
  drawn : ∀ seed, 0 ≤ getBuckets c.nbbuckets (c.draw seed) ∧ getBuckets c.nbbuckets (c.draw seed) < c.nbbuckets
  lockInit : ∀ i, Counter c.nbbuckets i → i.isSome
  populate : ∀ i, Counter c.nbkeys i → ∃ key, i = some key ∧
    (toUlong key < c.nbkeys → 0 ≤ getBuckets c.nbbuckets key ∧ getBuckets c.nbbuckets key < c.nbbuckets)

end Config

variable {bound : Nat} {c : Config}

theorem Counter.reaches {j : Nat} (hj : j ≤ bound) (h : j < 2 ^ 31) : Counter bound (some j) := by
  induction j with
  | zero => exact .start
  | succ j ih =>
    have hn := (ih (by omega) (by omega)).next (by
      have := toUlong_of_nonneg (x := j) (by omega) (by omega)
      omega)
    rw [if_pos (by omega)] at hn
    exact_mod_cast hn

/-- Where the bound is an `int`, the counter runs up to it. -/
theorem Counter.defined {i : Option Int} (h : Counter bound i) (hb : bound < 2 ^ 31) :
    ∃ j : Nat, i = some (j : Int) ∧ j ≤ bound := by
  induction h with
  | start => exact ⟨0, rfl, Nat.zero_le _⟩
  | @next i _ hlt ih =>
    obtain ⟨j, hj, hle⟩ := ih
    cases hj
    have hj := toUlong_of_nonneg (x := (j : Int)) (by omega) (by omega)
    refine ⟨j + 1, ?_, by omega⟩
    rw [if_pos (by omega)]
    simp

/-- Past the largest `int` it is undefined. -/
theorem Counter.undefined (hb : 2 ^ 31 ≤ bound) : Counter bound none := by
  have hlast : Counter bound (some ((2 ^ 31 - 1 : Nat) : Int)) := .reaches (by omega) (by omega)
  have hn := hlast.next (by
    have := toUlong_of_nonneg (x := ((2 ^ 31 - 1 : Nat) : Int)) (by omega) (by omega)
    omega)
  rwa [if_neg (by omega)] at hn

theorem myrand_lt (seed : Nat) : (myrand seed).2 < 32768 := Nat.mod_lt _ (by decide)

/-- The index of a key that is not negative. -/
theorem getBuckets_bounds {nbbuckets : Nat} {key : Int} (hb : 1 ≤ nbbuckets) (h₀ : 0 ≤ key) (h : key < 2 ^ 31) :
    0 ≤ getBuckets nbbuckets key ∧ getBuckets nbbuckets key < nbbuckets := by
  rw [getBuckets_eq h₀ h]
  exact ⟨Int.emod_nonneg _ (by omega), Int.emod_lt_of_pos _ (by omega)⟩

theorem draw_bounds (seed : Nat) : 0 ≤ c.draw seed ∧ c.draw seed < 2 ^ 31 := by
  have hle := Nat.mod_le (myrand seed).2 c.nbkeys
  have hlt := myrand_lt seed
  unfold Config.draw
  rw [toInt_of_lt (by omega)]
  omega

theorem hazardIndex_bounds {t off : Nat} (ht : t < maxThread) (ho : off ≤ 1) :
    0 ≤ Config.hazardIndex t off ∧ Config.hazardIndex t off < H := by
  unfold maxThread at ht
  unfold Config.hazardIndex H K maxThread
  rw [toInt_of_lt (by omega)]
  omega

theorem percorekeys_ne_zero (nbcores : Nat) (h : c.nbkeys < 2 ^ 31) : c.percorekeys nbcores ≠ 0 := by
  have hle := Nat.div_le_self c.nbkeys nbcores
  unfold Config.percorekeys toUnsigned
  generalize c.nbkeys / nbcores = q at hle ⊢
  omega

/-- An accepted configuration is safe exactly if there are at most `MAX_THREAD` threads, some key, and
no more keys and buckets than an `int` counts. -/
theorem safe_iff {nbthreads nbupdaters nbbuckets pbnodes : Nat}
    (h : setupTest nbthreads nbupdaters nbbuckets pbnodes = some c) (nbcores : Nat) :
    c.Safe nbcores ↔ nbthreads ≤ maxThread ∧ 0 < c.nbkeys ∧ c.nbkeys < 2 ^ 31 ∧ c.nbbuckets < 2 ^ 31 := by
  obtain ⟨_, rfl, _, _, hb, _, _⟩ := setupTest_some h
  constructor
  · intro hs
    refine ⟨?_, Nat.pos_of_ne_zero hs.nbkeys, ?_, ?_⟩
    · by_contra ht
      exact lt_irrefl _ (hs.thread maxThread (by omega))
    · by_contra hk
      obtain ⟨key, hkey, _⟩ := hs.populate none (.undefined (by omega))
      cases hkey
    · by_contra hk
      cases hs.lockInit none (.undefined (by omega))
  · rintro ⟨ht, hpos, hk, hbb⟩
    refine ⟨by omega, fun _ => percorekeys_ne_zero nbcores hk, fun t h => by omega,
      fun t _ h off ho => hazardIndex_bounds (by omega) ho, fun seed => ?_, fun i hi => ?_, fun i hi => ?_⟩
    · exact getBuckets_bounds hb (draw_bounds seed).1 (draw_bounds seed).2
    · obtain ⟨j, rfl, _⟩ := hi.defined hbb
      rfl
    · obtain ⟨j, rfl, hj⟩ := hi.defined hk
      exact ⟨j, rfl, fun _ => getBuckets_bounds hb (by omega) (by omega)⟩

theorem safe_iff_small : (⟨2, 1, 1, 4, 3, 12⟩ : Config).Safe 8 :=
  (safe_iff (c := ⟨2, 1, 1, 4, 3, 12⟩) (show setupTest 2 1 4 3 = _ by decide) 8).mpr (by decide)

/-- 257 threads are accepted, and so are 2 buckets of 2^63 keys, whose product is 0. -/
theorem accepted_unsafe : (∃ c, setupTest 257 1 1 1 = some c ∧ ¬ c.Safe 1) ∧
    ∃ c, setupTest 2 1 2 (2 ^ 63) = some c ∧ ¬ c.Safe 1 := by
  refine ⟨⟨⟨257, 1, 256, 1, 1, 1⟩, by decide, fun h => ?_⟩, ⟨⟨2, 1, 1, 2, 2 ^ 63, 0⟩, by decide, fun h => ?_⟩⟩
  · exact absurd (h.thread 256 (by decide)) (by decide)
  · exact h.nbkeys rfl

end Gecos.Mrow
