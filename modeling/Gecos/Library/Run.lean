import Mathlib.Data.List.Induction

/-! Finite runs of a labelled transition relation, with the states they pass. -/
namespace Gecos.Library
variable {S A : Type*}

/-- `Run R s tr t`: taking the labelled steps of `tr` in order leads from `s` to `t`.
Each entry carries its label and the state that the step reaches. -/
inductive Run (R : S → A → S → Prop) (s : S) : List (A × S) → S → Prop where
  | nil : Run R s [] s
  | snoc {tr t a u} : Run R s tr t → R t a u → Run R s (tr ++ [(a, u)]) u

/-- The states of a run, its start included. -/
def states (s : S) (tr : List (A × S)) : List S := s :: tr.map Prod.snd

def Reachable (R : S → A → S → Prop) (s t : S) : Prop := ∃ tr, Run R s tr t

/-- The relation of a step function that may refuse a label. -/
def Steps (f : S → A → Option S) (s : S) (a : A) (t : S) : Prop := f s a = some t

/-- The steps of `f` whose label passes a check in the state before. -/
def checked (f : S → A → Option S) (g : S → A → Bool) (s : S) (a : A) : Option S := if g s a then f s a else none

/-- Execute a list of labels. -/
def exec (f : S → A → Option S) (s : S) : List A → Option S
  | [] => some s
  | a :: as => (f s a).bind fun t => exec f t as

/-- The trace that `exec` follows, as far as every label is accepted. -/
def execTrace (f : S → A → Option S) (s : S) : List A → List (A × S)
  | [] => []
  | a :: as => match f s a with
    | none => []
    | some t => (a, t) :: execTrace f t as

variable {R : S → A → S → Prop} {f : S → A → Option S} {s t u : S}

@[simp] theorem mem_states_self (s : S) (tr : List (A × S)) : s ∈ states s tr := by simp [states]

theorem states_snoc (s : S) (tr : List (A × S)) (e : A × S) :
    states s (tr ++ [e]) = states s tr ++ [e.2] := by simp [states]

theorem Run.end_mem {tr} (h : Run R s tr t) : t ∈ states s tr := by
  cases h with
  | nil => simp
  | snoc _ _ => simp [states]

theorem Run.getLast {tr} (h : Run R s tr t) : (states s tr).getLast? = some t := by
  cases h with
  | nil => rfl
  | snoc _ _ => simp [states_snoc]

/-- The trace of a run determines where it ends. -/
theorem Run.end_unique {R' : S → A → S → Prop} {tr} (h : Run R s tr t) (h' : Run R' s tr u) : t = u := by
  have he := h.getLast.symm.trans h'.getLast
  exact Option.some.inj he

theorem Run.snoc_inv {tr} {a : A} (h : Run R s (tr ++ [(a, u)]) t) :
    t = u ∧ ∃ v, Run R s tr v ∧ R v a u := by
  generalize htr : tr ++ [(a, u)] = tr' at h
  cases h with
  | nil => simp at htr
  | @snoc tr' v b w hrun hr =>
    obtain ⟨rfl, he⟩ := List.append_inj' htr rfl
    cases he
    exact ⟨rfl, v, hrun, hr⟩

theorem Run.append {tr tr'} (h : Run R s tr t) (h' : Run R t tr' u) : Run R s (tr ++ tr') u := by
  induction h' with
  | nil => simpa using h
  | snoc _ hr ih => rw [← List.append_assoc]; exact .snoc ih hr

theorem Run.cons {tr} {a : A} (hr : R s a t) (h : Run R t tr u) : Run R s ((a, t) :: tr) u :=
  Run.append (.snoc .nil hr : Run R s ([] ++ [(a, t)]) t) h

theorem Run.reachable_append {tr} {s₀ : S} (h : Reachable R s₀ s) (h' : Run R s tr t) :
    Reachable R s₀ t := by
  obtain ⟨tr₀, h₀⟩ := h
  exact ⟨_, h₀.append h'⟩

theorem Reachable.head {a : A} (hr : R s a t) (h : Reachable R t u) : Reachable R s u := by
  obtain ⟨_, h⟩ := h
  exact ⟨_, h.cons hr⟩

theorem Reachable.trans (h : Reachable R s t) (h' : Reachable R t u) : Reachable R s u := by
  obtain ⟨_, h'⟩ := h'
  exact h'.reachable_append h

/-- A run passes through where its first steps lead. -/
theorem Run.split {tr tr'} (h : Run R s (tr ++ tr') u) : ∃ t, Run R s tr t ∧ Run R t tr' u := by
  induction tr' using List.reverseRecOn generalizing u with
  | nil => exact ⟨u, by simpa using h, .nil⟩
  | append_singleton tr' e ih =>
    obtain ⟨a, v⟩ := e
    rw [← List.append_assoc] at h
    obtain ⟨rfl, w, hw, hr⟩ := h.snoc_inv
    obtain ⟨t, ht, htw⟩ := ih hw
    exact ⟨t, ht, .snoc htw hr⟩

/-- The steps up to a state of a run are a run to it. -/
theorem Run.upTo {tr} (h : Run R s tr t) (hu : u ∈ states s tr) : ∃ tr', tr' <+: tr ∧ Run R s tr' u := by
  induction h with
  | nil =>
    rw [show u = s by simpa [states] using hu]
    exact ⟨[], List.nil_prefix, .nil⟩
  | @snoc tr t a v htr hr ih =>
    rw [states_snoc] at hu
    rcases List.mem_append.mp hu with hu | hu
    · obtain ⟨tr', hp, hrun⟩ := ih hu
      exact ⟨tr', hp.trans (List.prefix_append _ _), hrun⟩
    · obtain rfl := List.mem_singleton.mp hu
      exact ⟨_, List.prefix_rfl, .snoc htr hr⟩

theorem Run.reaches {tr} (h : Run R s tr t) (hu : u ∈ states s tr) : Reachable R s u := by
  obtain ⟨tr', _, h'⟩ := h.upTo hu
  exact ⟨tr', h'⟩

theorem states_upTo {tr tr' : List (A × S)} (h : tr' <+: tr) : states s tr' ⊆ states s tr := by
  obtain ⟨tr'', rfl⟩ := h
  intro u hu
  simp only [states, List.map_append, List.mem_cons, List.mem_append] at hu ⊢
  tauto

/-- An invariant of every step holds at the end of every run. -/
theorem Run.invariant {P : S → Prop} {tr} (h : Run R s tr t) (h0 : P s)
    (hstep : ∀ s a t, P s → R s a t → P t) : P t := by
  induction h with
  | nil => exact h0
  | snoc _ hr ih => exact hstep _ _ _ ih hr

theorem Reachable.invariant {P : S → Prop} (h : Reachable R s t) (h0 : P s)
    (hstep : ∀ s a t, P s → R s a t → P t) : P t := by
  obtain ⟨_, h⟩ := h
  exact h.invariant h0 hstep

/-- Induction over a run for a property of the states passed so far and the current one. -/
theorem Run.history {P : List S → S → Prop} {tr} (h : Run R s tr t) (h0 : P [s] s)
    (hstep : ∀ hist t a u, P hist t → R t a u → (a, u) ∈ tr → P (hist ++ [u]) u) :
    P (states s tr) t := by
  induction h with
  | nil => exact h0
  | @snoc tr t a u _ hr ih =>
    rw [states_snoc]
    exact hstep _ _ a _ (ih fun hist t a u hp hr hm => hstep hist t a u hp hr (by simp [hm]))
      hr (by simp)

/-- A run of a stronger relation is a run of a weaker one. -/
theorem Run.mono {R' : S → A → S → Prop} {tr} (h : Run R s tr t)
    (himp : ∀ s a t, R s a t → R' s a t) : Run R' s tr t := by
  induction h with
  | nil => exact .nil
  | snoc _ hr ih => exact .snoc ih (himp _ _ _ hr)

/-- An invariant may be assumed at each step. -/
theorem Run.keeping {P : S → Prop} {tr} (h : Run R s tr t) (h0 : P s)
    (hstep : ∀ s a t, P s → R s a t → P t) : Run (fun s a t => R s a t ∧ P s) s tr t := by
  induction h with
  | nil => exact .nil
  | snoc h hr ih => exact .snoc ih ⟨hr, h.invariant h0 hstep⟩

/-- A run whose labels all pass a test is a run of the steps that pass it. -/
theorem Run.guarded {G : A → Prop} {tr} (h : Run (Steps f) s tr t) (hg : ∀ e ∈ tr, G e.1) :
    Run (fun s a t => f s a = some t ∧ G a) s tr t := by
  induction h with
  | nil => exact .nil
  | @snoc tr t a u _ hr ih => exact .snoc (ih fun e he => hg e (by simp [he])) ⟨hr, hg (a, u) (by simp)⟩

theorem checked_iff {g : S → A → Bool} {a : A} : checked f g s a = some t ↔ f s a = some t ∧ g s a = true := by
  rw [checked, Option.ite_none_right_eq_some, and_comm]

theorem exec_run {as : List A} (h : exec f s as = some t) :
    Run (Steps f) s (execTrace f s as) t := by
  induction as generalizing s with
  | nil => cases h; exact .nil
  | cons a as ih =>
    obtain ⟨v, hv, h⟩ := Option.bind_eq_some_iff.mp h
    simp only [execTrace, hv]
    exact .cons hv (ih h)

theorem exec_append {as bs : List A} (h : exec f s as = some t) :
    exec f s (as ++ bs) = exec f t bs := by
  induction as generalizing s with
  | nil => cases h; rfl
  | cons a as ih =>
    obtain ⟨v, hv, h⟩ := Option.bind_eq_some_iff.mp h
    simp only [List.cons_append, exec, hv, Option.bind_some]
    exact ih h

theorem execTrace_label {as : List A} {e : A × S} (h : e ∈ execTrace f s as) : e.1 ∈ as := by
  induction as generalizing s with
  | nil => simp [execTrace] at h
  | cons a as ih =>
    unfold execTrace at h
    split at h
    · simp at h
    · rcases List.mem_cons.mp h with rfl | h
      · simp
      · exact List.mem_cons_of_mem _ (ih h)

theorem execTrace_labels {as : List A} (h : exec f s as = some t) : (execTrace f s as).map Prod.fst = as := by
  induction as generalizing s with
  | nil => rfl
  | cons a as ih =>
    obtain ⟨v, hv, h⟩ := Option.bind_eq_some_iff.mp h
    simp [execTrace, hv, ih h]

theorem execTrace_length {as : List A} (h : exec f s as = some t) : (execTrace f s as).length = as.length := by
  induction as generalizing s with
  | nil => rfl
  | cons a as ih =>
    obtain ⟨v, hv, h⟩ := Option.bind_eq_some_iff.mp h
    simp [execTrace, hv, ih h]

theorem exec_split {as bs : List A} (h : exec f s (as ++ bs) = some t) :
    ∃ v, exec f s as = some v ∧ exec f v bs = some t := by
  induction as generalizing s with
  | nil => exact ⟨s, rfl, h⟩
  | cons a as ih =>
    obtain ⟨v, hv, h⟩ := Option.bind_eq_some_iff.mp h
    obtain ⟨w, hw, h⟩ := ih h
    exact ⟨w, by simp only [exec, hv, Option.bind_some, hw], h⟩

/-- A list of labels with one of them picked out, executed to a state of which `p` holds. -/
theorem exec_around {as bs : List A} {c : A} {p : S → Bool} (h : (exec f s (as ++ c :: bs)).any p) :
    ∃ u v t tr, Reachable (Steps f) s u ∧ f u c = some v ∧ Run (Steps f) v tr t ∧ p t ∧
      tr.length = bs.length ∧ ∀ e ∈ tr, e.1 ∈ bs := by
  obtain ⟨t, ht, hp⟩ := Option.any_eq_true _ _ |>.mp h
  obtain ⟨u, hu, hs⟩ := exec_split ht
  obtain ⟨v, hv, hs⟩ := Option.bind_eq_some_iff.mp hs
  exact ⟨u, v, t, _, ⟨_, exec_run hu⟩, hv, exec_run hs, hp, execTrace_length hs, fun e he => execTrace_label he⟩

/-- The lists of states that runs pass from just after a `call` step, through steps that are
`within` the operation, to just before the `ret` step that ends it. -/
inductive Interval (R : S → A → S → Prop) (init : S) (call within : A → Prop)
    (ret : A → S → Prop) : List S → Prop where
  | mk {s₀ s₁ s₂ s₃ a c tr} : Reachable R init s₀ → call a → R s₀ a s₁ → Run R s₁ tr s₂ →
      (∀ e ∈ tr, within e.1) → R s₂ c s₃ → ret c s₃ → Interval R init call within ret (states s₁ tr)

theorem Interval.of_exec {init : S} {call within : A → Prop} {ret : A → S → Prop} {a c : A}
    {as bs : List A} {p : S → Bool} (h : (exec f init (as ++ (a :: (bs ++ [c])))).any p)
    (hcall : call a) (hin : ∀ x ∈ bs, within x) (hret : ∀ t, p t → ret c t) :
    ∃ hist, Interval (Steps f) init call within ret hist := by
  obtain ⟨s₃, hs, hp⟩ := Option.any_eq_true _ _ |>.mp h
  obtain ⟨s₀, h₀, hs⟩ := exec_split hs
  obtain ⟨s₁, h₁, hs⟩ := Option.bind_eq_some_iff.mp hs
  obtain ⟨s₂, h₂, hs⟩ := exec_split hs
  obtain ⟨s₃, h₃, ⟨⟩⟩ := Option.bind_eq_some_iff.mp hs
  exact ⟨_, .mk ⟨_, exec_run h₀⟩ hcall h₁ (exec_run h₂)
    (fun e he => hin _ (execTrace_label he)) h₃ (hret _ hp)⟩

/-- The same, with a state inside the interval that `q` describes. -/
theorem Interval.of_exec_through {init : S} {call within : A → Prop} {ret : A → S → Prop} {a c : A}
    {as bs cs : List A} {p q : S → Bool}
    (h : (exec f init (as ++ (a :: bs))).any fun s => q s && (exec f s (cs ++ [c])).any p)
    (hcall : call a) (hin : ∀ x ∈ bs ++ cs, within x) (hret : ∀ t, p t → ret c t) :
    ∃ hist, Interval (Steps f) init call within ret hist ∧ ∃ m ∈ hist, q m := by
  obtain ⟨s, hs, hp⟩ := Option.any_eq_true _ _ |>.mp h
  rw [Bool.and_eq_true, Option.any_eq_true] at hp
  obtain ⟨hq, s₃, hs₃, hp⟩ := hp
  obtain ⟨s₀, h₀, hs⟩ := exec_split hs
  obtain ⟨s₁, h₁, hs⟩ := Option.bind_eq_some_iff.mp hs
  obtain ⟨s₂, h₂, hs₃⟩ := exec_split hs₃
  obtain ⟨s₃, h₃, ⟨⟩⟩ := Option.bind_eq_some_iff.mp hs₃
  have hrun := exec_run hs
  refine ⟨_, .mk ⟨_, exec_run h₀⟩ hcall h₁ (hrun.append (exec_run h₂)) (fun e he => hin _ ?_) h₃ (hret _ hp), s, ?_, hq⟩
  · exact List.mem_append.mpr ((List.mem_append.mp he).imp execTrace_label execTrace_label)
  · have hm := hrun.end_mem
    simp only [states, List.map_append, List.mem_cons, List.mem_append] at hm ⊢
    tauto

/-- An interval of a run is one of every run that has these steps. -/
theorem Interval.mono {R' : S → A → S → Prop} {init : S} {call within : A → Prop} {ret : A → S → Prop} {hist : List S}
    (h : Interval R init call within ret hist) (himp : ∀ s a t, R s a t → R' s a t) :
    Interval R' init call within ret hist := by
  obtain ⟨⟨tr, h₀⟩, hcall, hfirst, hrun, hin, hlast, hret⟩ := h
  exact .mk ⟨tr, h₀.mono himp⟩ hcall (himp _ _ _ hfirst) (hrun.mono himp) hin (himp _ _ _ hlast) hret

end Gecos.Library
