import Mathlib.Algebra.BigOperators.Group.Finset.Basic
import Mathlib.Algebra.BigOperators.Group.Finset.Piecewise
import Mathlib.Algebra.Order.BigOperators.Group.Finset

/-! Locks that readers and writers take: how many readers or whether a writer holds each, and
which threads these are. -/
namespace Gecos.Library

/-- Whether readers share a lock, or take it like writers. -/
inductive Sharing where
  | exclusive
  | shared
  deriving DecidableEq

structure SharedLock where
  readers : Nat
  writer : Bool
  deriving DecidableEq

namespace SharedLock

def free : SharedLock := ⟨0, false⟩

/-- A reader takes the lock, or has to wait. -/
def rdlock (K : Sharing) (l : SharedLock) : Option SharedLock :=
  if l.writer = false ∧ (K = .shared ∨ l.readers = 0) then some { l with readers := l.readers + 1 } else none

def wrlock (l : SharedLock) : Option SharedLock :=
  if l.writer = false ∧ l.readers = 0 then some { l with writer := true } else none

def rdunlock (l : SharedLock) : SharedLock := { l with readers := l.readers - 1 }

def wrunlock (l : SharedLock) : SharedLock := { l with writer := false }

end SharedLock

variable {κ υ ρ : Type*} [DecidableEq κ] {K : Sharing} {locks : κ → SharedLock} {wr : υ → Option κ} {rd : ρ → Option κ}
  {u v : υ} {r r' : ρ} {b : κ} {l : SharedLock} {x : Option κ}

/-- How many threads hold `b`. -/
def holders [Fintype ρ] (rd : ρ → Option κ) (b : κ) : Nat := ∑ r, if rd r = some b then 1 else 0

section holders
variable [Fintype ρ]

theorem holders_pos (h : rd r = some b) : 0 < holders rd b := by
  have hle := Finset.single_le_sum (f := fun r => if rd r = some b then 1 else 0) (fun _ _ => Nat.zero_le _) (Finset.mem_univ r)
  simp only [h, if_true] at hle
  exact hle

theorem exists_holder (h : 0 < holders rd b) : ∃ r, rd r = some b := by
  by_contra hno
  have hzero : holders rd b = 0 := Finset.sum_eq_zero fun r _ => if_neg fun hr => hno ⟨r, hr⟩
  omega

/-- One thread takes or releases. -/
theorem holders_update [DecidableEq ρ] (rd : ρ → Option κ) (r : ρ) (x : Option κ) (b : κ) :
    holders (Function.update rd r x) b + (if rd r = some b then 1 else 0) =
      holders rd b + if x = some b then 1 else 0 := by
  have hnew : (fun r' => if Function.update rd r x r' = some b then 1 else 0) =
      Function.update (fun r' => if rd r' = some b then 1 else 0) r (if x = some b then 1 else 0) :=
    funext fun r' => Function.apply_update (fun _ y => if y = some b then 1 else 0) rd r x r'
  have hold := Finset.add_sum_erase Finset.univ (fun r' => if rd r' = some b then 1 else 0) (Finset.mem_univ r)
  unfold holders
  rw [hnew, Finset.sum_update_of_mem (Finset.mem_univ r), ← hold, Finset.sdiff_singleton_eq_erase]
  omega

end holders

/-- A lock that the writers `P` and `n` readers hold. -/
structure Guards (K : Sharing) (l : SharedLock) (P : υ → Prop) (n : Nat) : Prop where
  writer : ∀ u, P u → l.writer = true
  held : l.writer = true → ∃ u, P u
  serial : ∀ u v, P u → P v → u = v
  count : l.readers = n
  alone : l.writer = true → l.readers = 0
  single : K = .exclusive → l.readers ≤ 1

namespace Guards
variable {P : υ → Prop} {n : Nat} {l' : SharedLock}

theorem free : Guards K .free (fun _ : υ => False) 0 where
  writer := by simp
  held := by simp [SharedLock.free]
  serial := by simp
  count := rfl
  alone := by simp [SharedLock.free]
  single := by simp [SharedLock.free]

theorem rdlock (h : Guards K l P n) (hl : l.rdlock K = some l') : Guards K l' P (n + 1) := by
  unfold SharedLock.rdlock at hl
  split at hl
  case isFalse => cases hl
  case isTrue hfree =>
    cases hl
    obtain ⟨hw, hK⟩ := hfree
    refine ⟨h.writer, h.held, h.serial, congrArg (· + 1) h.count, fun ht => ?_, fun he => ?_⟩
    · rw [hw] at ht
      cases ht
    · rcases hK with hK | hzero
      · rw [he] at hK
        cases hK
      · simp [hzero]

theorem wrlock (h : Guards K l P n) (u : υ) (hl : l.wrlock = some l') : Guards K l' (· = u) n := by
  unfold SharedLock.wrlock at hl
  split at hl
  case isFalse => cases hl
  case isTrue hfree =>
    cases hl
    exact ⟨fun _ _ => rfl, fun _ => ⟨u, rfl⟩, fun v v' hv hv' => hv.trans hv'.symm, h.count, fun _ => hfree.2, h.single⟩

theorem rdunlock (h : Guards K l P (n + 1)) : Guards K l.rdunlock P n := by
  have hcount := h.count
  refine ⟨h.writer, h.held, h.serial, by simp [SharedLock.rdunlock, hcount], fun hw => ?_, fun hK => ?_⟩
  · have := h.alone hw
    omega
  · have := h.single hK
    simp only [SharedLock.rdunlock]
    omega

theorem wrunlock (h : Guards K l P n) : Guards K l.wrunlock (fun _ : υ => False) n where
  writer := by simp
  held := by simp [SharedLock.wrunlock]
  serial := by simp
  count := h.count
  alone := by simp [SharedLock.wrunlock]
  single := h.single

end Guards

/-- `wr` and `rd` say which lock each thread holds, and the locks say so too. -/
def Exclusion [Fintype ρ] (K : Sharing) (locks : κ → SharedLock) (wr : υ → Option κ) (rd : ρ → Option κ) : Prop :=
  ∀ b, Guards K (locks b) (fun u => wr u = some b) (holders rd b)

namespace Exclusion
variable [Fintype ρ]

theorem init : Exclusion K (fun _ : κ => .free) (fun _ : υ => none) fun _ : ρ => none := by
  intro b
  simpa [holders] using Guards.free

/-- No reader and no other writer holds what a writer holds. -/
theorem apart (h : Exclusion K locks wr rd) (hu : wr u = some b) : rd r ≠ some b := by
  intro hr
  have hpos := holders_pos hr
  have hzero := (h b).alone ((h b).writer u hu)
  rw [(h b).count] at hzero
  omega

theorem reader_unique [DecidableEq ρ] (h : Exclusion .exclusive locks wr rd) (hr : rd r = some b) (hr' : rd r' = some b) :
    r = r' := by
  by_contra hne
  have hrest : Function.update rd r none r' = some b := by rwa [Function.update_of_ne (Ne.symm hne)]
  have hpos := holders_pos hrest
  have hupd := holders_update rd r none b
  have hle := (h b).single rfl
  rw [(h b).count] at hle
  simp only [hr, if_true, reduceCtorEq, if_false] at hupd
  omega

/-- A lock that a reader cannot take is held. -/
theorem rdlock_waits (h : Exclusion K locks wr rd) (hw : (locks b).rdlock K = none) :
    (∃ u, wr u = some b) ∨ K = .exclusive ∧ ∃ r, rd r = some b := by
  unfold SharedLock.rdlock at hw
  split at hw
  case isTrue => cases hw
  case isFalse hheld =>
    by_cases hwr : (locks b).writer = true
    · exact .inl ((h b).held hwr)
    · simp only [hwr, true_and, not_or] at hheld
      refine .inr ⟨?_, exists_holder ?_⟩
      · cases K with
        | exclusive => rfl
        | shared => exact absurd rfl hheld.1
      · rw [← (h b).count]
        omega

theorem wrlock_waits (h : Exclusion K locks wr rd) (hw : (locks b).wrlock = none) :
    (∃ u, wr u = some b) ∨ ∃ r, rd r = some b := by
  unfold SharedLock.wrlock at hw
  split at hw
  case isTrue => cases hw
  case isFalse hheld =>
    by_cases hwr : (locks b).writer = true
    · exact .inl ((h b).held hwr)
    · simp only [hwr, true_and] at hheld
      refine .inr (exists_holder ?_)
      rw [← (h b).count]
      omega

/-- A step changes one lock, and what one thread holds of it. -/
private theorem of_other {locks' : κ → SharedLock} {wr' : υ → Option κ} {rd' : ρ → Option κ} (h : Exclusion K locks wr rd)
    (hb : Guards K (locks' b) (fun u => wr' u = some b) (holders rd' b)) (hl : ∀ b', b' ≠ b → locks' b' = locks b')
    (hwr : ∀ b', b' ≠ b → ∀ u, wr' u = some b' ↔ wr u = some b')
    (hrd : ∀ b', b' ≠ b → holders rd' b' = holders rd b') : Exclusion K locks' wr' rd' := by
  intro b'
  by_cases hne : b' = b
  · rwa [hne]
  · rw [hl b' hne, hrd b' hne]
    simpa only [hwr b' hne] using h b'

private theorem holders_other [DecidableEq ρ] {y : Option κ} {b' : κ} (hr : rd r ≠ some b') (hy : y ≠ some b') :
    holders (Function.update rd r y) b' = holders rd b' := by
  have hupd := holders_update rd r y b'
  simpa only [if_neg hr, if_neg hy, Nat.add_zero] using hupd

theorem rdlock [DecidableEq ρ] (h : Exclusion K locks wr rd) (hr : rd r = none) (hl : (locks b).rdlock K = some l) :
    Exclusion K (Function.update locks b l) wr (Function.update rd r (some b)) := by
  have hupd := holders_update rd r (some b) b
  simp only [hr, reduceCtorEq, if_false, if_true, Nat.add_zero] at hupd
  refine h.of_other (b := b) ?_ (fun b' hne => Function.update_of_ne hne _ _) (fun _ _ _ => Iff.rfl) fun b' hne => ?_
  · rw [Function.update_self, hupd]
    exact (h b).rdlock hl
  · exact holders_other (by simp [hr]) fun he => hne (Option.some.inj he).symm

theorem rdunlock [DecidableEq ρ] (h : Exclusion K locks wr rd) (hr : rd r = some b) :
    Exclusion K (Function.update locks b (locks b).rdunlock) wr (Function.update rd r none) := by
  have hupd := holders_update rd r none b
  simp only [hr, reduceCtorEq, if_false, if_true, Nat.add_zero] at hupd
  have hb := h b
  rw [← hupd] at hb
  refine h.of_other (b := b) ?_ (fun b' hne => Function.update_of_ne hne _ _) (fun _ _ _ => Iff.rfl) fun b' hne => ?_
  · rw [Function.update_self]
    exact hb.rdunlock
  · exact holders_other (fun he => hne (Option.some.inj (hr.symm.trans he)).symm) (by simp)

theorem wrlock [DecidableEq υ] (h : Exclusion K locks wr rd) (hu : wr u = none) (hl : (locks b).wrlock = some l) :
    Exclusion K (Function.update locks b l) (Function.update wr u (some b)) rd := by
  refine h.of_other (b := b) ?_ (fun b' hne => Function.update_of_ne hne _ _) (fun b' hne v => ?_) fun _ _ => rfl
  · have hfree : ∀ v, wr v ≠ some b := by
      intro v hv
      have hw := (h b).writer v hv
      simp [SharedLock.wrlock, hw] at hl
    have hiff (v : υ) : Function.update wr u (some b) v = some b ↔ v = u := by
      by_cases hne : v = u
      · simp [hne]
      · simp [hne, hfree v]
    rw [Function.update_self]
    simpa only [hiff] using (h b).wrlock u hl
  · by_cases he : v = u
    · simp [he, hu, Ne.symm hne]
    · rw [Function.update_of_ne he]

theorem wrunlock [DecidableEq υ] (h : Exclusion K locks wr rd) (hu : wr u = some b) :
    Exclusion K (Function.update locks b (locks b).wrunlock) (Function.update wr u none) rd := by
  refine h.of_other (b := b) ?_ (fun b' hne => Function.update_of_ne hne _ _) (fun b' hne v => ?_) fun _ _ => rfl
  · have hiff (v : υ) : ¬ Function.update wr u none v = some b := by
      by_cases hne : v = u
      · simp [hne]
      · rw [Function.update_of_ne hne]
        exact fun hv => hne ((h b).serial v u hv hu)
    rw [Function.update_self]
    simpa only [hiff] using (h b).wrunlock
  · by_cases he : v = u
    · simp [he, hu, Ne.symm hne]
    · rw [Function.update_of_ne he]

end Exclusion
end Gecos.Library
