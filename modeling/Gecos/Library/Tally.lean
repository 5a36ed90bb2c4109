import Gecos.Library.Linearizability
import Mathlib.Data.Finsupp.Basic

/-! What a history says about the value of a linearizable object: which calls are pending, and what those that
returned were answered. -/
namespace Gecos.Library
variable {P O V A S L : Type*}

/-- The calls that have not returned, and those that have, with their answers. -/
structure Tally (P O V : Type*) where
  pending : P → Option O
  answered : List (O × V)

namespace Tally
variable [DecidableEq P]

def start : Tally P O V := ⟨fun _ => none, []⟩

def add (y : Tally P O V) : Event P O V → Tally P O V
  | .call p o => ⟨Function.update y.pending p (some o), y.answered⟩
  | .ret p v => ⟨Function.update y.pending p none, y.answered ++ (y.pending p).toList.map (·, v)⟩

def of (h : List (Event P O V)) : Tally P O V := h.foldl add start

@[simp] theorem of_nil : of ([] : List (Event P O V)) = start := rfl

@[simp] theorem of_append (h : List (Event P O V)) (e : Option (Event P O V)) :
    of (h ++ e.toList) = e.elim (of h) (of h).add := by
  cases e <;> simp [of]

/-- The sum of the weights `w` of the answers. -/
def total (w : O → V → ℤ) (y : Tally P O V) : ℤ := (y.answered.map fun x => w x.1 x.2).sum

end Tally

section balance
variable [DecidableEq P] {M : A → ℤ} {w : O → V → ℤ} {apply : A → O → A × V} {G : A → Prop}
  {a₀ : A} {y : Tally P O V} {s t : Atomic P O V A} {e : Option (Event P O V)} {debt : P →₀ ℤ}

/-- The part `x` of the value is due to a call that has taken effect and not returned. -/
def Progress.Owes (w : O → V → ℤ) (pending : Option O) (x : ℤ) : Progress O V → Prop
  | .idle => pending = none ∧ x = 0
  | .called o => pending = some o ∧ x = 0
  | .done v => ∃ o, pending = some o ∧ x = w o v

/-- The value of the object is accounted for by the answers and by what the pending calls have done. -/
structure Accounts (M : A → ℤ) (w : O → V → ℤ) (a₀ : A) (y : Tally P O V) (s : Atomic P O V A) (debt : P →₀ ℤ) : Prop where
  owes : ∀ p, (s.proc p).Owes w (y.pending p) (debt p)
  balance : M s.obj = M a₀ + y.total w + debt.sum fun _ x => x

omit [DecidableEq P] in
theorem Accounts.init : Accounts M w a₀ (.start : Tally P O V) ⟨a₀, fun _ => .idle⟩ 0 where
  owes _ := ⟨rfl, rfl⟩
  balance := by simp [Tally.total, Tally.start]

omit [DecidableEq P] in
private theorem sum_update (debt : P →₀ ℤ) (p : P) (x : ℤ) :
    ((debt.update p x).sum fun _ x => x) + debt p = (debt.sum fun _ x => x) + x :=
  debt.sum_update_add p x (fun _ x => x) (fun _ => rfl) fun _ _ _ => rfl

/-- The account of the process that moves is settled anew, and no other changes. -/
private theorem owes_update {c : P → Progress O V} {pending : P → Option O} {p : P} {c' : Progress O V} {o' : Option O} {x : ℤ}
    (h : ∀ q, (c q).Owes w (pending q) (debt q)) (hp : c'.Owes w o' x) (q : P) :
    (Function.update c p c' q).Owes w (Function.update pending p o' q) (debt.update p x q) := by
  rw [Finsupp.coe_update]
  by_cases hq : q = p
  · rw [hq, Function.update_self, Function.update_self, Function.update_self]
    exact hp
  · rw [Function.update_of_ne hq, Function.update_of_ne hq, Function.update_of_ne hq]
    exact h q

theorem Accounts.step (h : Accounts M w a₀ y s debt) (hg : G s.obj)
    (hM : ∀ a o, G a → M (apply a o).1 = M a + w o (apply a o).2) (hs : Atomic.Step apply s e t) :
    ∃ debt', Accounts M w a₀ (e.elim y y.add) t debt' := by
  obtain ⟨howes, hbal⟩ := h
  cases hs with
  | @call a c p o hc =>
    have hp : (c p).Owes w (y.pending p) (debt p) := howes p
    rw [hc] at hp
    obtain ⟨_, hd⟩ := hp
    refine ⟨debt.update p 0, owes_update howes ⟨rfl, rfl⟩, ?_⟩
    have hsum := sum_update debt p 0
    rw [hd, add_zero, add_zero] at hsum
    rw [hsum]
    exact hbal
  | @effect a a' c p o v hc ha =>
    have hp : (c p).Owes w (y.pending p) (debt p) := howes p
    rw [hc] at hp
    obtain ⟨hpend, hd⟩ := hp
    have hdone : (Progress.done v : Progress O V).Owes w (y.pending p) (w o v) := ⟨o, hpend, rfl⟩
    have howes' := owes_update (p := p) howes hdone
    rw [Function.update_eq_self] at howes'
    refine ⟨debt.update p (w o v), howes', ?_⟩
    have hsum := sum_update debt p (w o v)
    have hstep := hM a o hg
    rw [ha] at hstep
    simp only at hbal hstep ⊢
    simp only [Option.elim_none]
    omega
  | @ret a c p v hc =>
    have hp : (c p).Owes w (y.pending p) (debt p) := howes p
    rw [hc] at hp
    obtain ⟨o, hpend, hd⟩ := hp
    refine ⟨debt.update p 0, owes_update howes ⟨rfl, rfl⟩, ?_⟩
    have hsum := sum_update debt p 0
    have htotal : (y.add (.ret p v)).total w = y.total w + w o v := by simp [Tally.total, Tally.add, hpend]
    simp only [Option.elim_some, htotal]
    simp only at hbal
    omega

theorem Accounts.run (hM : ∀ a o, G a → M (apply a o).1 = M a + w o (apply a o).2) (h0 : G a₀)
    (hgood : ∀ a o, G a → G (apply a o).1) {tr : List (Option (Event P O V) × Atomic P O V A)}
    (hr : Run (Atomic.Step apply) ⟨a₀, fun _ => .idle⟩ tr t) :
    G t.obj ∧ ∃ debt, Accounts M w a₀ (.of (visible tr)) t debt := by
  induction hr with
  | nil => exact ⟨h0, 0, .init⟩
  | @snoc tr s e t hr hs ih =>
    obtain ⟨hg, debt, hacc⟩ := ih
    rw [visible_snoc, Tally.of_append]
    refine ⟨?_, hacc.step hg hM hs⟩
    cases hs with
    | call | ret => exact hg
    | @effect a a' c p o v _ ha =>
      have hstep := hgood a o hg
      rwa [ha] at hstep

/-- When no pending call can count, the answers tell how far the value is from the first one. -/
theorem Linearizable.balance {R : S → L → S → Prop} {s₀ s₁ : S} {I : Interface L S P O V} {abs : S → A}
    {tr : List (L × S)} (h : Linearizable R s₀ I apply abs) (h0 : G (abs s₀))
    (hgood : ∀ a o, G a → G (apply a o).1) (hM : ∀ a o, G a → M (apply a o).1 = M a + w o (apply a o).2)
    (hr : Run R s₀ tr s₁) (hq : ∀ p o v, (Tally.of (I.history tr)).pending p = some o → w o v = 0) :
    G (abs s₁) ∧ M (abs s₁) = M (abs s₀) + (Tally.of (I.history tr)).total w := by
  obtain ⟨tr', c, hr', hv⟩ := h tr s₁ hr
  obtain ⟨hg, debt, howes, hbal⟩ := Accounts.run hM h0 hgood hr'
  rw [hv] at howes hbal
  have hdebt : debt = 0 := by
    ext p
    have hp : (c p).Owes w _ (debt p) := howes p
    cases hc : c p with
    | idle | called =>
      rw [hc] at hp
      exact hp.2
    | done v =>
      rw [hc] at hp
      obtain ⟨o, hpend, hd⟩ := hp
      rw [hd]
      exact hq p o v hpend
  rw [hdebt, Finsupp.sum_zero_index, add_zero] at hbal
  exact ⟨hg, hbal⟩

end balance
end Gecos.Library
