import Gecos.Library.Tally
import Gecos.Lock.BlockingObject
import Gecos.Lock.Object
import Gecos.Rcu.Object
import Gecos.Refcount.Object
import Gecos.Versioned.Object
import Gecos.Versioned.SgecosObject
import Mathlib.Data.Set.Card

/-! No update is lost or done twice: what the calls of a run returned says which keys are in the table, and how
many. These are the numbers that `run` adds up in `thd_ins` and `thd_del`. -/
namespace Gecos
open Library
variable {β : Type}

namespace Request

def op : Request β → Option Op
  | .update op _ _ => some op
  | .search .. => none

/-- The calls that returned 1. -/
def succeeded (op : Op) (l : List (Request β × Nat)) : Nat := l.countP fun x => x.1.op = some op ∧ x.2 = 1

/-- Those for one key. -/
def succeededAt [DecidableEq β] (op : Op) (k : Int) (b : β) (l : List (Request β × Nat)) : Nat :=
  l.countP fun x => x.1 = .update op k b ∧ x.2 = 1

def gain (o : Request β) (v : Nat) : ℤ := succeeded .insert [(o, v)] - succeeded .delete [(o, v)]

def gainAt [DecidableEq β] (k : Int) (b : β) (o : Request β) (v : Nat) : ℤ :=
  succeededAt .insert k b [(o, v)] - succeededAt .delete k b [(o, v)]

theorem sum_sub_countP {α : Type} (p q : α → Bool) (l : List α) :
    (l.map fun x => ([x].countP p : ℤ) - [x].countP q).sum = l.countP p - l.countP q := by
  induction l with
  | nil => rfl
  | cons x l ih =>
    rw [List.map_cons, List.sum_cons, ih, List.countP_cons (l := l), List.countP_cons (l := l), List.countP_singleton,
      List.countP_singleton]
    push_cast
    split <;> split <;> simp <;> omega

variable {S : Set (β × Int)}

theorem apply_finite (h : S.Finite) (o : Request β) : (o.apply S).1.Finite := by
  cases o with
  | search => exact h
  | update op k b =>
    cases op with
    | insert => exact h.insert _
    | delete => exact h.sdiff

theorem ncard_apply (h : S.Finite) (o : Request β) : ((o.apply S).1.ncard : ℤ) = S.ncard + gain o (o.apply S).2 := by
  cases o with
  | search => simp [apply, gain, succeeded, op]
  | update op k b =>
    by_cases hm : (b, k) ∈ S <;> cases op
    · simp [insert_present hm, gain, succeeded, Request.op]
    · rw [delete_present hm]
      have hcard := Set.ncard_sdiff_singleton_add_one hm h
      simp [gain, succeeded, Request.op]
      omega
    · rw [insert_absent hm]
      simp [gain, succeeded, Request.op, Set.ncard_insert_of_notMem hm h]
    · simp [delete_absent hm, gain, succeeded, Request.op]

open Classical in
noncomputable def present (S : Set (β × Int)) (k : Int) (b : β) : ℤ := if (b, k) ∈ S then 1 else 0

theorem present_apply [DecidableEq β] (k : Int) (b : β) (o : Request β) :
    present (o.apply S).1 k b = present S k b + gainAt k b o (o.apply S).2 := by
  cases o with
  | search => simp [apply, gainAt, succeededAt]
  | update op k' b' =>
    by_cases hm : (b', k') ∈ S <;> cases op
    · simp [insert_present hm, gainAt, succeededAt]
    · rw [delete_present hm]
      by_cases hx : b' = b ∧ k' = k
      · obtain ⟨rfl, rfl⟩ := hx
        simp [present, gainAt, succeededAt, hm]
      · simp [present, gainAt, succeededAt]
        grind
    · rw [insert_absent hm]
      by_cases hx : b' = b ∧ k' = k
      · obtain ⟨rfl, rfl⟩ := hx
        simp [present, gainAt, succeededAt, hm]
      · simp [present, gainAt, succeededAt]
        grind
    · simp [delete_absent hm, gainAt, succeededAt]

end Request

namespace Client
variable {S L υ ρ : Type} [DecidableEq β] [DecidableEq υ] [DecidableEq ρ] {R : S → L → S → Prop} {s₀ : S}

/-- What the clients have seen of a run. -/
def tally (C : Client S L β υ ρ) (tr : List (L × S)) : Tally (υ ⊕ ρ) (Request β) Nat := .of (C.interface.history tr)

/-- As soon as no update of a key is pending, its inserts and deletes that returned 1 balance, up to the one insert
whose key is in the table; as soon as no update is, the table has as many keys as there are inserts without a delete. -/
structure Balanced (C : Client S L β υ ρ) (R : S → L → S → Prop) (s₀ : S) : Prop where
  key : ∀ tr t k b, Run R s₀ tr t → (∀ p op, (C.tally tr).pending p ≠ some (.update op k b)) →
    (C.mem t).Member b k ∧ Request.succeededAt .insert k b (C.tally tr).answered =
      Request.succeededAt .delete k b (C.tally tr).answered + 1 ∨
    ¬ (C.mem t).Member b k ∧ Request.succeededAt .insert k b (C.tally tr).answered =
      Request.succeededAt .delete k b (C.tally tr).answered
  size : ∀ tr t, Run R s₀ tr t → (∀ p op k b, (C.tally tr).pending p ≠ some (.update op k b)) →
    (C.mem t).keys.Finite ∧ Request.succeeded .insert (C.tally tr).answered =
      Request.succeeded .delete (C.tally tr).answered + (C.mem t).keys.ncard

theorem balanced {C : Client S L β υ ρ}
    (h : Linearizable R s₀ C.interface Request.apply fun s => (C.mem s).keys) (h0 : (C.mem s₀).keys = ∅) :
    C.Balanced R s₀ where
  key tr t k b hr hq := by
    have hfree : ∀ p o v, (C.tally tr).pending p = some o → Request.gainAt k b o v = 0 := by
      intro p o v ho
      have hne : ∀ op, o ≠ .update op k b := fun op he => hq p op (by rw [ho, he])
      simp [Request.gainAt, Request.succeededAt, hne]
    obtain ⟨_, hbal⟩ := h.balance (M := fun S => Request.present S k b) (G := fun _ => True) trivial (fun _ _ _ => trivial)
      (fun S o _ => Request.present_apply k b o) hr hfree
    have hsum : (C.tally tr).total (Request.gainAt k b) = _ := Request.sum_sub_countP ..
    have hmem : (b, k) ∈ (C.mem t).keys ↔ (C.mem t).Member b k := Iff.rfl
    rw [← tally, hsum, h0] at hbal
    by_cases hm : (C.mem t).Member b k
    · simp only [Request.present, hmem, hm, if_true, Set.mem_empty_iff_false, if_false] at hbal
      exact .inl ⟨hm, by unfold Request.succeededAt; omega⟩
    · simp only [Request.present, hmem, hm, Set.mem_empty_iff_false, if_false] at hbal
      exact .inr ⟨hm, by unfold Request.succeededAt; omega⟩
  size tr t hr hq := by
    have hfree : ∀ p o v, (C.tally tr).pending p = some o → Request.gain o v = 0 := by
      intro p o v ho
      cases o with
      | search => simp [Request.gain, Request.succeeded, Request.op]
      | update op k b => exact (hq p op k b ho).elim
    obtain ⟨hfin, hbal⟩ := h.balance (M := fun S => (S.ncard : ℤ)) (by rw [h0]; exact Set.finite_empty)
      (fun _ o hf => Request.apply_finite hf o) (fun _ o hf => Request.ncard_apply hf o) hr hfree
    have hsum : (C.tally tr).total Request.gain = _ := Request.sum_sub_countP ..
    rw [← tally, hsum, h0, Set.ncard_empty] at hbal
    exact ⟨hfin, by unfold Request.succeeded; omega⟩

end Client

theorem Mem.keys_init : (Mem.init β).keys = ∅ :=
  Set.eq_empty_of_forall_notMem fun _ => Table.init.head_none rfl

/-- In every build but those with hazard pointers, with `OSA_BEST` and with `GECOS_B`, the inserts and deletes that
returned 1 account for the table. -/
theorem updates_balanced (β υ ρ : Type) [DecidableEq β] [DecidableEq υ] [DecidableEq ρ] [Fintype ρ] (cfg : Locking υ)
    (lock : ListLock.Build υ) (pthread : ListPthread.Build) :
    (ListGecos.client β υ ρ).Balanced (Steps (ListGecos.step cfg .plain)) (.init β υ ρ) ∧
    (ListGecos.client β υ ρ).Balanced (Steps (ListGecos.step cfg .relink)) (.init β υ ρ) ∧
    (ListSgecos.client β ρ).Balanced (Steps ListSgecos.step) (.init β ρ) ∧
    (ListRcu.client β ρ).Balanced (Steps ListRcu.step) (.init β ρ) ∧
    (ListRc.client β ρ).Balanced (Steps ListRc.step) (.init β ρ) ∧
    (ListLock.client β υ ρ).Balanced (Steps (ListLock.step lock)) (.init β υ ρ) ∧
    (ListPthread.client β υ ρ).Balanced (Steps (ListPthread.step pthread)) (.init β υ ρ) :=
  ⟨Client.balanced (ListGecos.table_points cfg (by decide)).linearizable Mem.keys_init,
    Client.balanced (ListGecos.table_points cfg (by decide)).linearizable Mem.keys_init,
    Client.balanced ListSgecos.table_points.linearizable Mem.keys_init,
    Client.balanced (ListRcu.table_points β ρ).linearizable Mem.keys_init,
    Client.balanced (ListRc.table_points β ρ).linearizable Mem.keys_init,
    Client.balanced (ListLock.table_points lock).linearizable Mem.keys_init,
    Client.balanced (ListPthread.table_points pthread).linearizable Mem.keys_init⟩

end Gecos
