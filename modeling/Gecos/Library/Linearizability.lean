import Gecos.Library.Run
import Mathlib.Logic.Function.Basic

/-! Linearizability: every history of a concurrent object is one of an object whose calls take
effect in one step each, between call and return. -/
namespace Gecos.Library
variable {P O V A S L : Type*}

theorem Interval.imp {R : S → L → S → Prop} {init : S} {call call' within within' : L → Prop} {ret ret' : L → S → Prop}
    {hist : List S} (h : Interval R init call within ret hist) (hc : ∀ a, call a → call' a)
    (hw : ∀ a, within a → within' a) (hr : ∀ a t, ret a t → ret' a t) : Interval R init call' within' ret' hist := by
  obtain ⟨h₀, hcall, hstep, hrun, hin, hlast, hret⟩ := h
  exact .mk h₀ (hc _ hcall) hstep hrun (fun e he => hw _ (hin e he)) hlast (hr _ _ hret)

theorem Interval.last {R : S → L → S → Prop} {init : S} {call within : L → Prop} {ret : L → S → Prop} {hist : List S}
    (h : Interval R init call within ret hist) : ∃ s a t, Reachable R init s ∧ R s a t ∧ ret a t := by
  obtain ⟨⟨tr₀, h₀⟩, _, hstep, hrun, _, hlast, hret⟩ := h
  exact ⟨_, _, _, ⟨_, (h₀.snoc hstep).append hrun⟩, hlast, hret⟩

/-- What is known from the call on, step by step, is known when the return comes. -/
theorem Interval.knowledge {R : S → L → S → Prop} {init : S} {call within : L → Prop} {ret : L → S → Prop}
    {hist : List S} {K : List S → S → Prop} (h : Interval R init call within ret hist)
    (hstart : ∀ s a t, Reachable R init s → R s a t → call a → K [t] t)
    (hstep : ∀ hist s a t, K hist s → R s a t → within a → K (hist ++ [t]) t) :
    ∃ s a t, K hist s ∧ R s a t ∧ ret a t := by
  obtain ⟨h₀, hcall, hfirst, hrun, hin, hlast, hret⟩ := h
  have hk := hrun.history (P := K) (hstart _ _ _ h₀ hfirst hcall)
    fun hist s a t hk ha he => hstep hist s a t hk ha (hin _ he)
  exact ⟨_, _, _, hk, hlast, hret⟩

theorem Interval.start {R : S → L → S → Prop} {init : S} {call within : L → Prop} {ret : L → S → Prop} {hist : List S}
    (h : Interval R init call within ret hist) : ∃ a t, call a ∧ t ∈ hist := by
  obtain ⟨_, hcall, _, _, _, _, _⟩ := h
  exact ⟨_, _, hcall, mem_states_self ..⟩

/-- What the clients of an object see. -/
inductive Event (P O V : Type*) where
  | call (p : P) (o : O)
  | ret (p : P) (v : V)

/-- How far a process of the atomic object is. -/
inductive Progress (O V : Type*) where
  | idle
  | called (o : O)
  | done (v : V)

/-- The atomic object and the processes that call it. -/
structure Atomic (P O V A : Type*) where
  obj : A
  proc : P → Progress O V

/-- A call starts, takes effect, and returns what it found then; clients do not see the effect. -/
inductive Atomic.Step [DecidableEq P] (apply : A → O → A × V) :
    Atomic P O V A → Option (Event P O V) → Atomic P O V A → Prop where
  | call {a c p o} : c p = .idle → Step apply ⟨a, c⟩ (some (.call p o)) ⟨a, Function.update c p (.called o)⟩
  | effect {a a' c p o v} : c p = .called o → apply a o = (a', v) →
      Step apply ⟨a, c⟩ none ⟨a', Function.update c p (.done v)⟩
  | ret {a c p v} : c p = .done v → Step apply ⟨a, c⟩ (some (.ret p v)) ⟨a, Function.update c p .idle⟩

/-- The events of a run of the atomic object. -/
def visible (tr : List (Option (Event P O V) × Atomic P O V A)) : List (Event P O V) := tr.filterMap Prod.fst

/-- Which steps of an implementation are calls, and which are returns. -/
structure Interface (L S P O V : Type*) where
  call : L → Option (P × O)
  ret : L → S → Option (P × V)

namespace Interface
variable (I : Interface L S P O V)

def event (a : L) (t : S) : Option (Event P O V) :=
  match I.call a with
  | some (p, o) => some (.call p o)
  | none => (I.ret a t).map fun (p, v) => .ret p v

/-- The events of a run of the implementation. -/
def history (tr : List (L × S)) : List (Event P O V) := tr.filterMap fun e => I.event e.1 e.2

/-- The call `o` of `p` is the last of `p` in the trace, and `hist` are the states since. -/
def Open (tr : List (L × S)) (p : P) (o : O) (hist : List S) : Prop :=
  ∃ tr₁ a s tr₂, tr = tr₁ ++ (a, s) :: tr₂ ∧ I.call a = some (p, o) ∧
    (∀ e ∈ tr₂, ∀ o, I.call e.1 ≠ some (p, o)) ∧ hist = states s tr₂

/-- A completed call `o` of `p` with answer `v`; `hist` are the states from just after the call to
just before the return. -/
def Completed (R : S → L → S → Prop) (s₀ : S) (p : P) (o : O) (v : V) (hist : List S) : Prop :=
  Interval R s₀ (fun a => I.call a = some (p, o)) (fun a => ∀ o, I.call a ≠ some (p, o))
    (fun a t => I.ret a t = some (p, v)) hist

end Interface

/-- Whatever the implementation does from `s₀` on, its clients cannot tell it from the atomic
object, and it ends with the value that the atomic object has then. -/
def Linearizable [DecidableEq P] (R : S → L → S → Prop) (s₀ : S) (I : Interface L S P O V)
    (apply : A → O → A × V) (abs : S → A) : Prop :=
  ∀ tr t, Run R s₀ tr t → ∃ tr' c, Run (Atomic.Step apply) ⟨abs s₀, fun _ => .idle⟩ tr' ⟨abs t, c⟩ ∧
    visible tr' = I.history tr

/-- An implementation whose histories are histories of a linearizable one is linearizable. -/
theorem Linearizable.of_runs [DecidableEq P] {S' L' : Type*} {R : S → L → S → Prop} {s₀ : S} {I : Interface L S P O V}
    {apply : A → O → A × V} {abs : S → A} {R' : S' → L' → S' → Prop} {s₀' : S'} {I' : Interface L' S' P O V}
    {abs' : S' → A} (h : Linearizable R s₀ I apply abs) (h0 : abs s₀ = abs' s₀')
    (hrun : ∀ tr t, Run R' s₀' tr t →
      ∃ tr' t', Run R s₀ tr' t' ∧ I.history tr' = I'.history tr ∧ abs t' = abs' t) :
    Linearizable R' s₀' I' apply abs' := by
  intro tr t hr
  obtain ⟨tr', t', hr', hhist, habs⟩ := hrun tr t hr
  obtain ⟨tr₁, c, h₁, hv⟩ := h tr' t' hr'
  rw [h0, habs] at h₁
  exact ⟨tr₁, c, h₁, hv.trans hhist⟩

/-- Where a process of the implementation is: in no call, in one that has not taken effect, in one
that has and is to answer `v`, or in one that only reads. -/
inductive Stage (O V : Type*) where
  | idle
  | busy (o : O)
  | decided (v : V)
  | reading

section points
variable [DecidableEq P] {R : S → L → S → Prop} {s₀ s t u : S} {I : Interface L S P O V}
  {apply : A → O → A × V} {abs : S → A} {stage : S → P → Stage O V} {tr : List (L × S)} {a : L}
  {p q : P} {o : O} {v : V} {hist : List S} {x : Progress O V}

/-- What a step may do: nothing that counts, the effect of one call, the start of one, or its
return. A call that has taken no effect may still do so at its return if it changes nothing. -/
inductive PointStep (I : Interface L S P O V) (apply : A → O → A × V) (abs : S → A)
    (stage : S → P → Stage O V) (s : S) (a : L) (t : S) : Prop where
  | quiet : I.event a t = none → abs t = abs s → stage t = stage s → PointStep I apply abs stage s a t
  | effect (p : P) (o : O) (v : V) : I.event a t = none → stage s p = .busy o → apply (abs s) o = (abs t, v) →
      stage t = Function.update (stage s) p (.decided v) → PointStep I apply abs stage s a t
  | call (p : P) (o : O) : I.call a = some (p, o) → abs t = abs s → stage s p = .idle →
      (stage t = Function.update (stage s) p (.busy o) ∨ stage t = Function.update (stage s) p .reading) →
      PointStep I apply abs stage s a t
  | ret (p : P) (v : V) : I.call a = none → I.ret a t = some (p, v) → abs t = abs s →
      stage t = Function.update (stage s) p .idle →
      (stage s p = .decided v ∨ stage s p = .reading ∨ ∃ o, stage s p = .busy o ∧ apply (abs s) o = (abs s, v)) →
      PointStep I apply abs stage s a t

/-- The points at which calls take effect. A call that only reads needs one state of its time at
which its answer is right. -/
structure Points (R : S → L → S → Prop) (s₀ : S) (I : Interface L S P O V) (apply : A → O → A × V)
    (abs : S → A) (stage : S → P → Stage O V) : Prop where
  init : ∀ p, stage s₀ p = .idle
  step : ∀ s a t, Reachable R s₀ s → R s a t → PointStep I apply abs stage s a t
  reads : ∀ p o v hist, I.Completed R s₀ p o v hist → (∀ m ∈ hist, stage m p = .reading) →
    ∃ m ∈ hist, apply (abs m) o = (abs m, v)

/-- What the atomic process may be when the implementation's has seen `hist` since its call. -/
def Seen (apply : A → O → A × V) (abs : S → A) (hist : List S) (o : O) (x : Progress O V) : Prop :=
  x = .called o ∨ ∃ m ∈ hist, ∃ v, apply (abs m) o = (abs m, v) ∧ x = .done v

/-- The atomic process `x` fits `p` at stage `st` at the end of the trace. -/
def Fits (I : Interface L S P O V) (apply : A → O → A × V) (abs : S → A) (stage : S → P → Stage O V)
    (tr : List (L × S)) (p : P) (x : Progress O V) : Stage O V → Prop
  | .idle => x = .idle
  | .busy o => x = .called o
  | .decided v => x = .done v
  | .reading => ∃ o hist, I.Open tr p o hist ∧ (∀ m ∈ hist, stage m p = .reading) ∧ Seen apply abs hist o x

/-- `x` comes from `y` by the effect, if any, of a call that changes nothing. -/
def Late (apply : A → O → A × V) (b : A) (y x : Progress O V) : Prop :=
  x = y ∨ ∃ o v, y = .called o ∧ x = .done v ∧ apply b o = (b, v)

omit [DecidableEq P] in
theorem Seen.snoc (h : Seen apply abs (hist ++ [u]) o x) :
    ∃ y, Seen apply abs hist o y ∧ Late apply (abs u) y x := by
  rcases h with rfl | ⟨m, hm, v, hv, rfl⟩
  · exact ⟨_, .inl rfl, .inl rfl⟩
  · rcases List.mem_append.mp hm with hm | hm
    · exact ⟨_, .inr ⟨m, hm, v, hv, rfl⟩, .inl rfl⟩
    · obtain rfl := List.mem_singleton.mp hm
      exact ⟨.called o, .inl rfl, .inr ⟨o, v, rfl, rfl, hv⟩⟩

omit [DecidableEq P] in
theorem open_call (ha : I.call a = some (p, o)) : I.Open (tr ++ [(a, u)]) p o [u] :=
  ⟨tr, a, u, [], rfl, ha, by simp, rfl⟩

omit [DecidableEq P] in
theorem Interface.Open.snoc (h : I.Open tr p o hist) (ha : ∀ o, I.call a ≠ some (p, o)) :
    I.Open (tr ++ [(a, u)]) p o (hist ++ [u]) := by
  obtain ⟨tr₁, c, s, tr₂, rfl, hc, hno, rfl⟩ := h
  refine ⟨tr₁, c, s, tr₂ ++ [(a, u)], by simp, hc, fun e he => ?_, by rw [states_snoc]⟩
  rcases List.mem_append.mp he with he | he
  · exact hno e he
  · obtain rfl := List.mem_singleton.mp he
    exact ha

omit [DecidableEq P] in
theorem Interface.Open.snoc_inv (h : I.Open (tr ++ [(a, u)]) p o hist) :
    (I.call a = some (p, o) ∧ hist = [u]) ∨
    (∀ o, I.call a ≠ some (p, o)) ∧ ∃ hist₀, hist = hist₀ ++ [u] ∧ I.Open tr p o hist₀ := by
  obtain ⟨tr₁, c, s, tr₂, he, hc, hno, rfl⟩ := h
  rcases List.eq_nil_or_concat tr₂ with rfl | ⟨tr₂, e, rfl⟩
  · obtain ⟨rfl, hlast⟩ := List.append_inj' he rfl
    cases hlast
    exact .inl ⟨hc, rfl⟩
  · rw [List.concat_eq_append, ← List.cons_append, ← List.append_assoc] at he
    obtain ⟨rfl, hlast⟩ := List.append_inj' he rfl
    cases hlast
    refine .inr ⟨hno (a, u) (by simp), states s tr₂, by rw [List.concat_eq_append, states_snoc], tr₁, c, s, tr₂, rfl, hc, ?_, rfl⟩
    exact fun e hm => hno e (by simp [hm])

omit [DecidableEq P] in
theorem Interface.Open.caller (h : I.Open tr p o hist) : p ∈ tr.filterMap fun e => (I.call e.1).map Prod.fst := by
  obtain ⟨tr₁, a, s, tr₂, rfl, ha, _⟩ := h
  exact List.mem_filterMap.mpr ⟨(a, s), by simp, by simp [ha]⟩

omit [DecidableEq P] in
/-- A call that is open when its return comes is completed. -/
theorem Interface.Open.completed (h : I.Open tr p o hist) (hr : Run R s₀ tr s) (ha : R s a t)
    (hv : I.ret a t = some (p, v)) : I.Completed R s₀ p o v hist := by
  obtain ⟨tr₁, c, s₁, tr₂, rfl, hc, hno, rfl⟩ := h
  obtain ⟨w, h₁, htail⟩ := hr.split
  obtain ⟨x, hx, h₂⟩ := Run.split (show Run R w ([(c, s₁)] ++ tr₂) s from htail)
  obtain ⟨rfl, y, hy, hstep⟩ := Run.snoc_inv (show Run R w ([] ++ [(c, s₁)]) x from hx)
  obtain rfl : y = w := hy.end_unique (.nil : Run R w [] w)
  exact .mk ⟨tr₁, h₁⟩ hc hstep h₂ hno ha hv

omit [DecidableEq P] in
theorem Interface.no_call (I : Interface L S P O V) (he : I.event a u = none) (q : P) (o : O) :
    I.call a ≠ some (q, o) := by
  intro hcall
  simp [Interface.event, hcall] at he

/-- A process that only reads has an open call, and has read since it started. -/
theorem Points.opened (h : Points R s₀ I apply abs stage) (hr : Run R s₀ tr t) (hp : stage t p = .reading) :
    ∃ o hist, I.Open tr p o hist ∧ ∀ m ∈ hist, stage m p = .reading := by
  induction hr with
  | nil =>
    rw [h.init] at hp
    cases hp
  | @snoc tr s a u hr ha ih =>
    have hlater (hs : stage s p = .reading) (hno : ∀ o, I.call a ≠ some (p, o)) :
        ∃ o hist, I.Open (tr ++ [(a, u)]) p o hist ∧ ∀ m ∈ hist, stage m p = .reading := by
      obtain ⟨o, hist, ho, hall⟩ := ih hs
      refine ⟨o, _, ho.snoc hno, fun m hm => ?_⟩
      rcases List.mem_append.mp hm with hm | hm
      · exact hall m hm
      · obtain rfl := List.mem_singleton.mp hm
        exact hp
    cases h.step s a u ⟨tr, hr⟩ ha with
    | quiet he _ hst =>
      exact hlater (by rw [← hst, hp]) (I.no_call he p)
    | effect q o v he hq _ hst =>
      rw [hst] at hp
      by_cases hqp : p = q
      · subst hqp
        simp at hp
      · exact hlater (by rwa [Function.update_of_ne hqp] at hp) (I.no_call he p)
    | call q o hc _ _ hst =>
      by_cases hqp : p = q
      · subst hqp
        refine ⟨o, [u], open_call hc, fun m hm => ?_⟩
        obtain rfl := List.mem_singleton.mp hm
        exact hp
      · refine hlater ?_ fun o' hc' => hqp ?_
        · rcases hst with hst | hst <;> rwa [hst, Function.update_of_ne hqp] at hp
        · rw [hc] at hc'
          cases hc'
          rfl
    | ret q v hc _ _ hst =>
      rw [hst] at hp
      by_cases hqp : p = q
      · subst hqp
        simp at hp
      · exact hlater (by rwa [Function.update_of_ne hqp] at hp) (by simp [hc])

omit [DecidableEq P] in
/-- What fits after a step that is no call of `p` fits before it, but for an effect right after it. -/
theorem Fits.back {st : Stage O V} (h : Fits I apply abs stage (tr ++ [(a, u)]) p x st)
    (ha : ∀ o, I.call a ≠ some (p, o)) :
    ∃ y, Fits I apply abs stage tr p y st ∧ Late apply (abs u) y x ∧ (st ≠ .reading → x = y) := by
  cases st with
  | idle | busy | decided => exact ⟨x, h, .inl rfl, fun _ => rfl⟩
  | reading =>
    obtain ⟨o, hist, ho, hall, hs⟩ := h
    rcases ho.snoc_inv with ⟨hc, _⟩ | ⟨_, hist₀, rfl, ho₀⟩
    · exact (ha o hc).elim
    · obtain ⟨y, hy, hl⟩ := hs.snoc
      exact ⟨y, ⟨o, hist₀, ho₀, fun m hm => hall m (by simp [hm]), hy⟩, hl, fun hne => (hne rfl).elim⟩

/-- Calls that change nothing take effect one after the other. -/
theorem settle {b : A} {c c' : P → Progress O V} (l : List P) (hl : ∀ p, p ∉ l → c' p = c p)
    (h : ∀ p, Late apply b (c p) (c' p)) :
    ∃ tr, Run (Atomic.Step apply) ⟨b, c⟩ tr ⟨b, c'⟩ ∧ visible tr = [] := by
  induction l generalizing c with
  | nil =>
    obtain rfl : c' = c := funext fun p => hl p (by simp)
    exact ⟨[], .nil, rfl⟩
  | cons p l ih =>
    have hl' : ∀ q, q ∉ l → c' q = Function.update c p (c' p) q := by
      intro q hq
      by_cases hqp : q = p
      · rw [hqp, Function.update_self]
      · rw [Function.update_of_ne hqp]
        exact hl q (by simp [hqp, hq])
    have h' : ∀ q, Late apply b (Function.update c p (c' p) q) (c' q) := by
      intro q
      by_cases hqp : q = p
      · rw [hqp, Function.update_self]
        exact .inl rfl
      · rw [Function.update_of_ne hqp]
        exact h q
    obtain ⟨tr, hr, hv⟩ := ih hl' h'
    rcases h p with he | ⟨o, v, hc, hc', hb⟩
    · rw [he, Function.update_eq_self] at hr
      exact ⟨tr, hr, hv⟩
    · rw [hc'] at hr
      exact ⟨_, hr.cons (.effect hc hb), hv⟩

omit [DecidableEq P] in
theorem Interface.history_snoc (I : Interface L S P O V) (tr : List (L × S)) (a : L) (u : S) :
    I.history (tr ++ [(a, u)]) = I.history tr ++ (I.event a u).toList := by
  simp only [Interface.history, List.filterMap_append, List.filterMap_cons, List.filterMap_nil]
  cases I.event a u <;> rfl

omit [DecidableEq P] in
theorem visible_snoc (tr : List (Option (Event P O V) × Atomic P O V A)) (e : Option (Event P O V))
    (y : Atomic P O V A) : visible (tr ++ [(e, y)]) = visible tr ++ e.toList := by
  simp only [visible, List.filterMap_append, List.filterMap_cons, List.filterMap_nil]
  cases e <;> rfl

/-- The atomic object can follow the trace, and then be in any state that fits. -/
def Follows (I : Interface L S P O V) (apply : A → O → A × V) (abs : S → A) (stage : S → P → Stage O V)
    (s₀ : S) (tr : List (L × S)) (t : S) : Prop :=
  ∀ c : P → Progress O V, (∀ p, Fits I apply abs stage tr p (c p) (stage t p)) →
    ∃ tr', Run (Atomic.Step apply) ⟨abs s₀, fun _ => .idle⟩ tr' ⟨abs t, c⟩ ∧ visible tr' = I.history tr

/-- The calls that only read may take effect at the end of the trace. -/
theorem settle_trace {b : A} {c c' : P → Progress O V} (hfit : ∀ p, Fits I apply abs stage tr p (c' p) (stage t p))
    (hl : ∀ p, Late apply (abs t) (c p) (c' p) ∧ (stage t p ≠ .reading → c' p = c p))
    (h : ∃ tr', Run (Atomic.Step apply) ⟨b, fun _ => .idle⟩ tr' ⟨abs t, c⟩ ∧ visible tr' = I.history tr) :
    ∃ tr', Run (Atomic.Step apply) ⟨b, fun _ => .idle⟩ tr' ⟨abs t, c'⟩ ∧ visible tr' = I.history tr := by
  have hcallers : ∀ p, p ∉ (tr.filterMap fun e => (I.call e.1).map Prod.fst) → c' p = c p := by
    intro p hp
    refine (hl p).2 fun hst => hp ?_
    have hf := hfit p
    rw [hst] at hf
    obtain ⟨o, hist, ho, _⟩ := hf
    exact ho.caller
  obtain ⟨tr₁, hr₁, hv₁⟩ := h
  obtain ⟨tr₂, hr₂, hv₂⟩ := settle _ hcallers fun p => (hl p).1
  refine ⟨tr₁ ++ tr₂, hr₁.append hr₂, ?_⟩
  rw [visible, List.filterMap_append, ← visible, ← visible, hv₁, hv₂, List.append_nil]

/-- Before a step of `p` the others fit as after it. -/
theorem fits_before {c : P → Progress O V} {st : Stage O V} (hst : stage u = Function.update (stage s) p st)
    (hfit : ∀ q, q ≠ p → Fits I apply abs stage tr q (c q) (stage u q))
    (hp : Fits I apply abs stage tr p x (stage s p)) (q : P) :
    Fits I apply abs stage tr q (Function.update c p x q) (stage s q) := by
  by_cases hqp : q = p
  · rw [hqp, Function.update_self]
    exact hp
  · have hf := hfit q hqp
    rw [hst, Function.update_of_ne hqp] at hf
    rwa [Function.update_of_ne hqp]

/-! Each kind of step: first its effect, then its event, and at last the calls that only read and
have seen the state reached. -/

private theorem Follows.quiet (ih : Follows I apply abs stage s₀ tr s) (he : I.event a u = none)
    (habs : abs u = abs s) (hst : stage u = stage s) : Follows I apply abs stage s₀ (tr ++ [(a, u)]) u := by
  intro c hc
  choose c₁ hfit hlate using fun q => (hc q).back (I.no_call he q)
  refine settle_trace hc hlate ?_
  rw [hst] at hfit
  obtain ⟨tr', hr', hv⟩ := ih c₁ hfit
  rw [I.history_snoc, he, habs]
  exact ⟨tr', hr', by simpa using hv⟩

private theorem Follows.effect (ih : Follows I apply abs stage s₀ tr s) (he : I.event a u = none)
    (hp : stage s p = .busy o) (hap : apply (abs s) o = (abs u, v))
    (hst : stage u = Function.update (stage s) p (.decided v)) : Follows I apply abs stage s₀ (tr ++ [(a, u)]) u := by
  intro c hc
  choose c₁ hfit hlate using fun q => (hc q).back (I.no_call he q)
  refine settle_trace hc hlate ?_
  have hdone : c₁ p = .done v := by
    have hf := hfit p
    rwa [hst, Function.update_self] at hf
  have hbefore : Fits I apply abs stage tr p (.called o) (stage s p) := by
    rw [hp]
    rfl
  obtain ⟨tr', hr', hv⟩ := ih _ (fits_before hst (fun q _ => hfit q) hbefore)
  have hstep := Atomic.Step.effect (c := Function.update c₁ p (.called o)) (Function.update_self ..) hap
  rw [Function.update_idem, ← hdone, Function.update_eq_self] at hstep
  refine ⟨_, hr'.snoc hstep, ?_⟩
  rw [visible_snoc, I.history_snoc, he, hv]

private theorem Follows.call (ih : Follows I apply abs stage s₀ tr s) (hcall : I.call a = some (p, o))
    (habs : abs u = abs s) (hp : stage s p = .idle)
    (hst : stage u = Function.update (stage s) p (.busy o) ∨ stage u = Function.update (stage s) p .reading) :
    Follows I apply abs stage s₀ (tr ++ [(a, u)]) u := by
  intro c hc
  have hstart : ∀ q, ∃ y, (q ≠ p → Fits I apply abs stage tr q y (stage u q)) ∧ (q = p → y = .called o) ∧
      Late apply (abs u) y (c q) ∧ (stage u q ≠ .reading → c q = y) := by
    intro q
    by_cases hqp : q = p
    · subst hqp
      have hf := hc q
      refine ⟨.called o, fun hne => (hne rfl).elim, fun _ => rfl, ?_⟩
      rcases hst with hst | hst <;> rw [hst, Function.update_self] at hf ⊢
      · exact ⟨.inl hf, fun _ => hf⟩
      · obtain ⟨o', hist, ho, _, hs⟩ := hf
        rcases ho.snoc_inv with ⟨hcall', rfl⟩ | ⟨hno, _⟩
        · cases hcall.symm.trans hcall'
          obtain ⟨y, rfl | ⟨m, hm, _⟩, hl⟩ := Seen.snoc (show Seen apply abs ([] ++ [u]) o (c q) from hs)
          · exact ⟨hl, fun hne => (hne rfl).elim⟩
          · cases hm
        · exact (hno o hcall).elim
    · obtain ⟨y, hf, hl⟩ := (hc q).back fun o' hcall' => hqp (by cases hcall.symm.trans hcall'; rfl)
      exact ⟨y, fun _ => hf, fun he => (hqp he).elim, hl⟩
  choose c₁ hfit hp₁ hlate using hstart
  refine settle_trace hc hlate ?_
  have hbefore : Fits I apply abs stage tr p .idle (stage s p) := by
    rw [hp]
    rfl
  obtain ⟨tr', hr', hv⟩ : ∃ tr', Run (Atomic.Step apply) ⟨abs s₀, fun _ => .idle⟩ tr'
      ⟨abs s, Function.update c₁ p .idle⟩ ∧ visible tr' = I.history tr :=
    hst.elim (fun hst => ih _ (fits_before hst hfit hbefore)) fun hst => ih _ (fits_before hst hfit hbefore)
  have hstep : Atomic.Step apply ⟨abs u, Function.update c₁ p .idle⟩ (some (.call p o)) _ := .call (Function.update_self ..)
  rw [Function.update_idem, ← hp₁ p rfl, Function.update_eq_self] at hstep
  rw [← habs] at hr'
  refine ⟨_, hr'.snoc hstep, ?_⟩
  rw [visible_snoc, I.history_snoc, hv]
  simp [Interface.event, hcall]

/-- A call that has found nothing to change may take effect only now. -/
private theorem Follows.ret (ih : Follows I apply abs stage s₀ tr s) (hcall : I.call a = none)
    (hret : I.ret a u = some (p, v)) (habs : abs u = abs s) (hst : stage u = Function.update (stage s) p .idle)
    (hp : ∃ x, Fits I apply abs stage tr p x (stage s p) ∧
      (x = .done v ∨ ∃ o, x = .called o ∧ apply (abs s) o = (abs s, v))) :
    Follows I apply abs stage s₀ (tr ++ [(a, u)]) u := by
  intro c hc
  choose c₁ hfit hlate using fun q => (hc q).back fun o hq => by simp [hcall] at hq
  refine settle_trace hc hlate ?_
  have hidle : c₁ p = .idle := by
    have hf := hfit p
    rwa [hst, Function.update_self] at hf
  obtain ⟨tr', hr', hv⟩ : ∃ tr', Run (Atomic.Step apply) ⟨abs s₀, fun _ => .idle⟩ tr'
      ⟨abs s, Function.update c₁ p (.done v)⟩ ∧ visible tr' = I.history tr := by
    obtain ⟨x, hx, hdone⟩ := hp
    obtain ⟨tr', hr', hv⟩ := ih _ (fits_before hst (fun q _ => hfit q) hx)
    rcases hdone with rfl | ⟨o, rfl, hap⟩
    · exact ⟨tr', hr', hv⟩
    · have hstep := Atomic.Step.effect (c := Function.update c₁ p (.called o)) (Function.update_self ..) hap
      rw [Function.update_idem] at hstep
      refine ⟨_, hr'.snoc hstep, ?_⟩
      rw [visible_snoc, hv]
      simp
  have hstep : Atomic.Step apply ⟨abs u, Function.update c₁ p (.done v)⟩ (some (.ret p v)) _ := .ret (Function.update_self ..)
  rw [Function.update_idem, ← hidle, Function.update_eq_self] at hstep
  rw [← habs] at hr'
  refine ⟨_, hr'.snoc hstep, ?_⟩
  rw [visible_snoc, I.history_snoc, hv]
  simp [Interface.event, hcall, hret]

theorem Points.follows (h : Points R s₀ I apply abs stage) (hr : Run R s₀ tr t) :
    Follows I apply abs stage s₀ tr t := by
  induction hr with
  | nil =>
    intro c hc
    have hidle : c = fun _ => .idle := by
      funext p
      have hp := hc p
      rwa [h.init] at hp
    rw [hidle]
    exact ⟨[], .nil, rfl⟩
  | @snoc tr s a u hr ha ih =>
    cases h.step s a u ⟨tr, hr⟩ ha with
    | quiet he habs hst => exact ih.quiet he habs hst
    | effect p o v he hp hap hst => exact ih.effect he hp hap hst
    | call p o hcall habs hp hst => exact ih.call hcall habs hp hst
    | ret p v hcall hret habs hst hans =>
      refine ih.ret hcall hret habs hst ?_
      rcases hans with hp | hp | ⟨o, hp, hap⟩
      · exact ⟨.done v, by rw [hp]; rfl, .inl rfl⟩
      · obtain ⟨o, hist, ho, hall⟩ := h.opened hr hp
        obtain ⟨m, hm, hap⟩ := h.reads p o v hist (ho.completed hr ha hret) hall
        exact ⟨.done v, by rw [hp]; exact ⟨o, hist, ho, hall, .inr ⟨m, hm, v, hap, rfl⟩⟩, .inl rfl⟩
      · exact ⟨.called o, by rw [hp]; rfl, .inr ⟨o, rfl, hap⟩⟩

/-- An implementation with points at which its calls take effect is linearizable. -/
theorem Points.linearizable (h : Points R s₀ I apply abs stage) : Linearizable R s₀ I apply abs := by
  intro tr t hr
  have hsome : ∀ p, ∃ x, Fits I apply abs stage tr p x (stage t p) := by
    intro p
    cases hp : stage t p with
    | idle => exact ⟨.idle, rfl⟩
    | busy o => exact ⟨.called o, rfl⟩
    | decided v => exact ⟨.done v, rfl⟩
    | reading =>
      obtain ⟨o, hist, ho, hall⟩ := h.opened hr hp
      exact ⟨.called o, o, hist, ho, hall, .inl rfl⟩
  choose c hc using hsome
  obtain ⟨tr', hr', hv⟩ := h.follows hr c hc
  exact ⟨tr', c, hr', hv⟩

end points
end Gecos.Library
