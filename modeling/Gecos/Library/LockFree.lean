import Gecos.Library.Run
import Mathlib.Algebra.BigOperators.Group.Finset.Piecewise
import Mathlib.Algebra.Order.BigOperators.Group.Finset
import Mathlib.Order.Interval.Finset.Nat

/-! Lock freedom: a loop that starts over only when somebody else has made progress, and that
ends by itself once nobody does. -/
namespace Gecos.Library
variable {S A X : Type*}

/-- The `i`-th step of the trace `tr` from `s` is one of those that `P` describes. -/
def StepAt (P : S → A → S → Prop) (s : S) (tr : List (A × S)) (i : ℕ) : Prop :=
  ∃ t a u, (states s tr)[i]? = some t ∧ tr[i]? = some (a, u) ∧ P t a u

open Classical in
/-- How many steps of the trace `P` describes. -/
noncomputable def stepCount (P : S → A → S → Prop) (s : S) (tr : List (A × S)) : ℕ :=
  ((Finset.range tr.length).filter (StepAt P s tr)).card

/-- Every `retry` of the trace can be charged to a `store` of its own, made after the retry
before it and before the retry itself. -/
def Charged (retry store : S → A → S → Prop) (s : S) (tr : List (A × S)) : Prop :=
  ∃ charge : ℕ → ℕ, Set.InjOn charge {i | StepAt retry s tr i} ∧
    ∀ i, StepAt retry s tr i → StepAt store s tr (charge i) ∧ charge i < i ∧
      ∀ j < i, StepAt retry s tr j → j < charge i

variable {P Q retry store : S → A → S → Prop} {R : S → A → S → Prop} {s t u : S} {a : A}
  {tr : List (A × S)} {i : ℕ}

theorem StepAt.lt (h : StepAt P s tr i) : i < tr.length := by
  obtain ⟨_, _, _, _, h, _⟩ := h
  exact (List.getElem?_eq_some_iff.mp h).1

theorem states_length : (states s tr).length = tr.length + 1 := by simp [states]

/-- One step more: the old steps stay where they are, and the new one comes last. -/
theorem stepAt_snoc (h : Run R s tr t) :
    StepAt P s (tr ++ [(a, u)]) i ↔ StepAt P s tr i ∨ i = tr.length ∧ P t a u := by
  have hlast : (states s tr)[tr.length]? = some t := by
    rw [← h.getLast, List.getLast?_eq_getElem?, states_length]; rfl
  unfold StepAt
  rw [states_snoc]
  rcases lt_trichotomy i tr.length with hi | rfl | hi
  · rw [List.getElem?_append_left (by rw [states_length]; omega), List.getElem?_append_left hi]
    simp [hi.ne]
  · rw [List.getElem?_append_left (by rw [states_length]; omega), hlast]
    simp [and_assoc]
  · have hnone : (tr ++ [(a, u)])[i]? = none := by simp; omega
    have hnone' : tr[i]? = none := by simp; omega
    simp [hnone, hnone', hi.ne']

theorem stepCount_nil : stepCount P s [] = 0 := rfl

open Classical in
theorem stepCount_snoc (h : Run R s tr t) :
    stepCount P s (tr ++ [(a, u)]) = stepCount P s tr + if P t a u then 1 else 0 := by
  have hold : (Finset.range tr.length).filter (StepAt P s (tr ++ [(a, u)])) =
      (Finset.range tr.length).filter (StepAt P s tr) := by
    refine Finset.filter_congr fun i hi => ?_
    rw [stepAt_snoc h]
    simp [(Finset.mem_range.mp hi).ne]
  have hnew : StepAt P s (tr ++ [(a, u)]) tr.length ↔ P t a u := by
    rw [stepAt_snoc h]
    exact ⟨fun hs => hs.elim (fun hs => absurd hs.lt (lt_irrefl _)) And.right, fun hp => .inr ⟨rfl, hp⟩⟩
  unfold stepCount
  rw [List.length_append, List.length_singleton, Finset.range_add_one, Finset.filter_insert, hold]
  by_cases hp : P t a u
  · rw [if_pos (hnew.mpr hp), if_pos hp, Finset.card_insert_of_notMem (by simp)]
  · rw [if_neg fun hs => hp (hnew.mp hs), if_neg hp, Nat.add_zero]

/-- A charge bounds the number of retries. -/
theorem Charged.count_le (h : Charged retry store s tr) : stepCount retry s tr ≤ stepCount store s tr := by
  classical
  obtain ⟨charge, hinj, hc⟩ := h
  refine Finset.card_le_card_of_injOn charge (fun i hi => ?_) fun i hi j hj he => ?_
  · have hs := (hc i (Finset.mem_filter.mp hi).2).1
    simpa using ⟨hs.lt, hs⟩
  · exact hinj (Finset.mem_filter.mp hi).2 (Finset.mem_filter.mp hj).2 he

/-- A loop that never retries while what it has read is `clean`, where only a `store` spoils
that and every retry restores it, can charge its retries. -/
theorem Run.charged (clean : S → Prop) (h : Run R s tr t) (h0 : clean s)
    (hstep : ∀ t a u, R t a u → clean t → ¬ retry t a u ∧ (clean u ∨ store t a u))
    (hretry : ∀ t a u, R t a u → retry t a u → clean u ∧ ¬ store t a u) :
    Charged retry store s tr := by
  -- the store that a retry at `i` is charged to
  let Pays (tr : List (A × S)) (i c : ℕ) : Prop :=
    StepAt store s tr c ∧ c < i ∧ ∀ j < i, StepAt retry s tr j → j < c
  have hpaid : (∀ i, StepAt retry s tr i → ∃ c, Pays tr i c) ∧ (clean t ∨ ∃ c, Pays tr tr.length c) := by
    induction h with
    | nil => exact ⟨fun i hi => absurd hi.lt (by simp), .inl h0⟩
    | @snoc tr t a u hrun hr ih =>
      obtain ⟨hold, hnow⟩ := ih
      have hkeep {i c : ℕ} (hi : i ≤ tr.length) (hp : Pays tr i c) : Pays (tr ++ [(a, u)]) i c := by
        refine ⟨(stepAt_snoc hrun).mpr (.inl hp.1), hp.2.1, fun j hj hs => ?_⟩
        rcases (stepAt_snoc hrun).mp hs with hs | ⟨rfl, _⟩
        · exact hp.2.2 j hj hs
        · omega
      have hmark (c : ℕ) (hlen : c ≤ tr.length) (hc : StepAt store s (tr ++ [(a, u)]) c)
          (hlast : ∀ j, StepAt retry s tr j → j < c) (hno : ¬ retry t a u) :
          Pays (tr ++ [(a, u)]) (tr ++ [(a, u)]).length c := by
        refine ⟨hc, by simpa using Nat.lt_succ_of_le hlen, fun j _ hs => ?_⟩
        rcases (stepAt_snoc hrun).mp hs with hs | ⟨_, hs⟩
        · exact hlast j hs
        · exact (hno hs).elim
      refine ⟨fun i hi => ?_, ?_⟩
      · rcases (stepAt_snoc hrun).mp hi with hi | ⟨rfl, hs⟩
        · obtain ⟨c, hc⟩ := hold i hi
          exact ⟨c, hkeep hi.lt.le hc⟩
        · rcases hnow with hcl | ⟨c, hc⟩
          · exact ((hstep t a u hr hcl).1 hs).elim
          · exact ⟨c, hkeep le_rfl hc⟩
      · by_cases hs : retry t a u
        · exact .inl (hretry t a u hr hs).1
        rcases hnow with hcl | ⟨c, hc⟩
        · refine (hstep t a u hr hcl).2.imp_right fun hst => ⟨tr.length, ?_⟩
          exact hmark _ le_rfl ((stepAt_snoc hrun).mpr (.inr ⟨rfl, hst⟩)) (fun j hj => hj.lt) hs
        · refine .inr ⟨c, ?_⟩
          exact hmark c hc.2.1.le ((stepAt_snoc hrun).mpr (.inl hc.1)) (fun j hj => hc.2.2 j hj.lt hj) hs
  choose! charge hcharge using hpaid.1
  refine ⟨charge, fun i hi j hj he => ?_, hcharge⟩
  rcases lt_trichotomy i j with hij | rfl | hij
  · have h₁ := (hcharge j hj).2.2 i hij hi
    have h₂ := (hcharge i hi).2.1
    omega
  · rfl
  · have h₁ := (hcharge i hi).2.2 j hij hj
    have h₂ := (hcharge j hj).2.1
    omega

/-- Left to itself `x` halts, after at most `N` of its steps, which begin the body of its loop
at most `n` times. -/
inductive Halts (f : X → Option X) (body done : X → Prop) : ℕ → ℕ → X → Prop where
  | done {n N x} : done x → Halts f body done n N x
  | step {n N x y} : f x = some y → ¬ body x → Halts f body done n N y → Halts f body done n (N + 1) x
  | body {n N x y} : f x = some y → body x → Halts f body done n N y →
      Halts f body done (n + 1) (N + 1) x

variable {f : X → Option X} {body done : X → Prop} {n n' N : ℕ} {x y : X}

theorem Halts.mono (h : Halts f body done n N x) (hn : n ≤ n') : Halts f body done n' N x := by
  induction h generalizing n' with
  | done hd => exact .done hd
  | step hf hb _ ih => exact .step hf hb (ih hn)
  | @body n N x y hf hb _ ih =>
    obtain ⟨m, rfl⟩ : ∃ m, n' = m + 1 := ⟨n' - 1, by omega⟩
    exact .body hf hb (ih (by omega))

/-- Left to itself `x` halts, after beginning the body of its loop at most `n` times. -/
def HaltsIn (f : X → Option X) (body done : X → Prop) (n : ℕ) (x : X) : Prop := ∃ N, Halts f body done n N x

theorem HaltsIn.of_done (h : done x) : HaltsIn f body done n x := ⟨0, .done h⟩

theorem HaltsIn.step (hf : f x = some y) (hb : ¬ body x) (h : HaltsIn f body done n y) :
    HaltsIn f body done n x := by
  obtain ⟨N, h⟩ := h
  exact ⟨N + 1, .step hf hb h⟩

theorem HaltsIn.enter (hf : f x = some y) (hb : body x) (h : HaltsIn f body done n y) :
    HaltsIn f body done (n + 1) x := by
  obtain ⟨N, h⟩ := h
  exact ⟨N + 1, .body hf hb h⟩

theorem HaltsIn.mono (h : HaltsIn f body done n x) (hn : n ≤ n') : HaltsIn f body done n' x := by
  obtain ⟨N, h⟩ := h
  exact ⟨N, h.mono hn⟩

/-- In a run that moves `x` by `f` and not otherwise, `x` is never stuck, and halts as promised. -/
theorem Halts.run (proj : S → X) (mine : A → Prop) (h : Halts f body done n N (proj s)) (hrun : Run R s tr t)
    (hmine : ∀ t a u, R t a u → mine a → f (proj t) = some (proj u))
    (hother : ∀ t a u, R t a u → ¬ mine a → proj u = proj t) (hdone : ∀ x, done x → f x = none) :
    stepCount (fun _ a _ => mine a) s tr ≤ N ∧
    stepCount (fun t a _ => mine a ∧ body (proj t)) s tr ≤ n ∧
    (done (proj t) ∨ ∃ y, f (proj t) = some y) := by
  have hleft : ∃ n' N', Halts f body done n' N' (proj t) ∧
      stepCount (fun _ a _ => mine a) s tr + N' ≤ N ∧
      stepCount (fun t a _ => mine a ∧ body (proj t)) s tr + n' ≤ n := by
    induction hrun with
    | nil => exact ⟨n, N, h, by simp [stepCount_nil], by simp [stepCount_nil]⟩
    | @snoc tr t a u hrun hr ih =>
      obtain ⟨n', N', hh, hN, hn⟩ := ih
      rw [stepCount_snoc hrun, stepCount_snoc hrun]
      by_cases ha : mine a
      · have hf := hmine t a u hr ha
        cases hh with
        | done hd => simp [hdone _ hd] at hf
        | @step _ N' _ _ hf' hb hh =>
          cases hf.symm.trans hf'
          exact ⟨n', N', hh, by simp [ha]; omega, by simpa [ha, hb] using hn⟩
        | @body n' N' _ _ hf' hb hh =>
          cases hf.symm.trans hf'
          exact ⟨n', N', hh, by simp [ha]; omega, by simp [ha, hb]; omega⟩
      · rw [← hother t a u hr ha] at hh
        exact ⟨n', N', hh, by simpa [ha] using hN, by simpa [ha] using hn⟩
  obtain ⟨n', N', hh, hN, hn⟩ := hleft
  refine ⟨by omega, by omega, ?_⟩
  cases hh with
  | done hd => exact .inl hd
  | step hf _ _ | body hf _ _ => exact .inr ⟨_, hf⟩

/-- Where the steps of a run leave what `f` depends on alone, `x` returns in every run. -/
theorem HaltsIn.alone {M : Type*} {f : M → X → Option X} (shared : S → M) (proj : S → X) (mine : A → Prop)
    (h : HaltsIn (f (shared s)) body done n (proj s))
    (hframe : ∀ t a u, R t a u → shared u = shared t)
    (hmine : ∀ t a u, R t a u → mine a → f (shared t) (proj t) = some (proj u))
    (hother : ∀ t a u, R t a u → ¬ mine a → proj u = proj t) (hdone : ∀ m x, done x → f m x = none) :
    ∃ N, ∀ tr t, Run R s tr t → stepCount (fun _ a _ => mine a) s tr ≤ N ∧
      stepCount (fun t a _ => mine a ∧ body (proj t)) s tr ≤ n ∧
      (done (proj t) ∨ ∃ y, f (shared t) (proj t) = some y) := by
  obtain ⟨N, h⟩ := h
  refine ⟨N, fun tr t hrun => ?_⟩
  have hkeep (t a u) (ht : shared t = shared s) (hr : R t a u) : shared u = shared s :=
    (hframe t a u hr).trans ht
  rw [hrun.invariant (P := fun t => shared t = shared s) rfl hkeep]
  exact h.run proj mine (hrun.keeping (P := fun t => shared t = shared s) rfl hkeep) (fun t a u hr ha => hr.2 ▸ hmine t a u hr.1 ha)
    (fun t a u hr ha => hother t a u hr.1 ha) (hdone _)

/-- A run whose steps all take from a measure is no longer than the measure allows. -/
theorem Run.length_le {Φ : S → ℕ} {P : S → Prop} {within : A → Prop} (h : Run R s tr t) (h0 : P s)
    (hkeep : ∀ s a t, P s → R s a t → P t) (hdrop : ∀ s a t, P s → R s a t → within a → Φ t < Φ s)
    (hin : ∀ e ∈ tr, within e.1) : tr.length + Φ t ≤ Φ s := by
  induction h with
  | nil => simp
  | @snoc tr t a u hrun hr ih =>
    have hle := ih fun e he => hin e (by simp [he])
    have hlt := hdrop t a u (hrun.invariant h0 hkeep) hr (hin (a, u) (by simp))
    rw [List.length_append, List.length_singleton]
    omega

/-- A measure that `mine` steps take from and that no other raises bounds the number of the former. -/
theorem Run.stepCount_le {F : S → ℕ} {P : S → Prop} {mine : A → Prop} (h : Run R s tr t) (h0 : P s)
    (hkeep : ∀ s a t, P s → R s a t → P t) (hmine : ∀ s a t, P s → R s a t → mine a → F t < F s)
    (hother : ∀ s a t, P s → R s a t → ¬ mine a → F t ≤ F s) : stepCount (fun _ a _ => mine a) s tr + F t ≤ F s := by
  induction h with
  | nil => simp [stepCount_nil]
  | @snoc tr t a u hrun hr ih =>
    have hp := hrun.invariant h0 hkeep
    rw [stepCount_snoc hrun]
    by_cases ha : mine a
    · have hlt := hmine t a u hp hr ha
      rw [if_pos ha]
      omega
    · have hle := hother t a u hp hr ha
      rw [if_neg ha]
      omega

/-- A sum of potentials after a step of `p` that sets each of the others back by at most `c`. -/
theorem sum_setback {P : Type*} [Fintype P] [DecidableEq P] {f g : P → ℕ} {p : P} {c : ℕ}
    (hother : ∀ q, q ≠ p → g q ≤ f q + c) : ∑ q, g q + f p ≤ ∑ q, f q + g p + c * Fintype.card P := by
  have hsum : ∑ q, (g q + if q = p then f p else 0) ≤ ∑ q, (f q + (if q = p then g p else 0) + c) := by
    refine Finset.sum_le_sum fun q _ => ?_
    by_cases hq : q = p
    · rw [if_pos hq, if_pos hq, hq]
      omega
    · rw [if_neg hq, if_neg hq]
      exact hother q hq
  simpa [Finset.sum_add_distrib, Nat.mul_comm c] using hsum

/-- A sum of counters of which one changes. -/
theorem sum_update_add {α : Type*} [DecidableEq α] {f : α → ℕ} {T : Finset α} {a : α} (ha : a ∈ T) (v : ℕ) :
    ∑ x ∈ T, Function.update f a v x + f a = ∑ x ∈ T, f x + v := by
  rw [Finset.sum_update_of_mem ha, Finset.sum_eq_add_sum_sdiff_singleton_of_mem ha]
  omega

end Gecos.Library
