import Mathlib.Algebra.Group.Int.Defs
import Mathlib.Algebra.Group.Nat.Defs
import Mathlib.Data.Int.Order.Basic

/-! The numbers that a test run is made of: `setup_test` and `get_buckets` of mrow.c, with the
conversions that C makes between `int`, `unsigned` and `unsigned long`. -/
namespace Gecos.Mrow

/-- A value converted to `unsigned long`. -/
def toUlong (x : Int) : Nat := (x % 2 ^ 64).toNat

/-- A value converted to `unsigned`. -/
def toUnsigned (x : Nat) : Nat := x % 2 ^ 32

/-- A value converted to `int`. -/
def toInt (x : Nat) : Int := Int.bmod x (2 ^ 32)

/-- What `setup_test` sets from the command line. -/
structure Config where
  nbthreads : Nat
  nbupdaters : Nat
  nbreaders : Nat
  nbbuckets : Nat
  pbnodes : Nat
  nbkeys : Nat
  deriving DecidableEq

/-- `setup_test` on the results of the four `strtoul`; `none` is its `exit(1)`. -/
def setupTest (nbthreads nbupdaters nbbuckets pbnodes : Nat) : Option Config :=
  if nbthreads ≤ nbupdaters then none
  else
    let nbbuckets := if nbbuckets = 0 then 1 else nbbuckets
    let pbnodes := if pbnodes = 0 then 1 else pbnodes
    some { nbthreads, nbupdaters, nbreaders := nbthreads - nbupdaters, nbbuckets, pbnodes,
           nbkeys := pbnodes * nbbuckets % 2 ^ 64 }

/-- The index that `get_buckets` computes. -/
def getBuckets (nbbuckets : Nat) (key : Int) : Int := toInt (toUlong key % nbbuckets)

theorem toUlong_of_nonneg {x : Int} (h₀ : 0 ≤ x) (h : x < 2 ^ 64) : (toUlong x : Int) = x := by
  unfold toUlong
  rw [Int.emod_eq_of_lt h₀ h, Int.toNat_of_nonneg h₀]

theorem toInt_of_lt {x : Nat} (h : x < 2 ^ 31) : toInt x = x := by
  unfold toInt
  apply Int.bmod_eq_of_le <;> omega

/-- For a key that an `int` holds and is not negative, the index is the remainder. -/
theorem getBuckets_eq {nbbuckets : Nat} {key : Int} (h₀ : 0 ≤ key) (h : key < 2 ^ 31) :
    getBuckets nbbuckets key = key % nbbuckets := by
  have hk := toUlong_of_nonneg h₀ (by omega)
  have hlt : toUlong key % nbbuckets < 2 ^ 31 := by
    have hle := Nat.mod_le (toUlong key) nbbuckets
    omega
  unfold getBuckets
  rw [toInt_of_lt hlt, Int.natCast_emod, hk]

theorem setupTest_some {nbthreads nbupdaters nbbuckets pbnodes : Nat} {c : Config}
    (h : setupTest nbthreads nbupdaters nbbuckets pbnodes = some c) :
    nbupdaters < nbthreads ∧ c.nbthreads = nbthreads ∧ c.nbupdaters = nbupdaters ∧
      c.nbreaders = nbthreads - nbupdaters ∧ 1 ≤ c.nbbuckets ∧ 1 ≤ c.pbnodes ∧
      c.nbkeys = c.pbnodes * c.nbbuckets % 2 ^ 64 := by
  unfold setupTest at h
  split at h
  case isTrue => contradiction
  cases h
  refine ⟨by omega, rfl, rfl, rfl, ?_, ?_, rfl⟩
  · change 1 ≤ if nbbuckets = 0 then 1 else nbbuckets
    split <;> omega
  · change 1 ≤ if pbnodes = 0 then 1 else pbnodes
    split <;> omega

end Gecos.Mrow
