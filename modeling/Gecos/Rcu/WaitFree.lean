import Gecos.Library.LockFree
import Gecos.Rcu.Object

/-! The search of list_rcu.c is wait-free: it never waits, and the keys that it meets ascend, also along nodes that
are unlinked meanwhile. -/
namespace Gecos.ListRcu
open Library
variable {β ρ : Type} {s s' : State β ρ} {n q : Addr} {r : ρ} {lo k : Int} {b : β}

/-- What is known of the keys on the way of a reader: the node that it leaves has a smaller one than it searches for,
and so has an unlinked node than the next one. -/
structure Ascends (s : State β ρ) : Prop where
  waits : ∀ n r q, s.waits n r = true → s.mem.next n = some q → s.mem.key n < s.mem.key q
  next : ∀ r k cur, s.rd r = .next k cur → s.mem.key cur < k

theorem Ascends.init : Ascends (.init β ρ) where
  waits _ _ _ h := by simp [State.init] at h
  next _ _ _ h := by simp [State.init] at h

theorem around_lt {m : Mem β} (h : m.Around b n) (hx : m.next n = some q) : m.key n < m.key q := by
  obtain ⟨l₁, l₂, _, hnext, _, habove⟩ := h
  exact habove q (List.mem_of_mem_head? (by rw [← hnext, hx]; rfl))

theorem Ascends.lingers (h : Ascends s) (hi : Inv s) (hl : Lingers s r n) (hx : s.mem.next n = some q) :
    s.mem.key n < s.mem.key q := by
  rcases hl with ⟨b, hu⟩ | hw
  · have hf := hi.writers.facts ()
    rw [hu] at hf
    exact around_lt hf hx
  · exact h.waits n r q hw hx

theorem Ascends.guarded (h : Ascends s) (hi : Inv s) (hg : Guarded s r n) (hx : s.mem.next n = some q) :
    s.mem.key n < s.mem.key q := by
  rcases hg with ⟨b, hb⟩ | hl
  · exact around_lt (hi.writers.table.around hb) hx
  · exact h.lingers hi hl hx

section step
variable [DecidableEq β] [DecidableEq ρ] [Fintype ρ] {a : Act β ρ}

/-- A callback waits for no section that it did not wait for, but at `call_rcu`. -/
theorem waits_step (hs : step s a = some s') (hw : s'.waits n r = true) : Lingers s r n := by
  cases a with
  | begin | alloc =>
    obtain ⟨_, _, rfl⟩ := Option.map_eq_some_iff.mp hs
    exact .inr hw
  | update =>
    change s.update = some s' at hs
    unfold State.update at hs
    split at hs
    case h_1 | h_2 =>
      cases hs
      exact .inr hw
    case h_3 b x he =>
      cases hs
      by_cases hn : n = x
      · rw [hn]
        exact .inl ⟨b, he⟩
      · exact .inr (by simpa [State.put, Function.update_of_ne hn] using hw)
    case h_4 =>
      obtain ⟨_, _, rfl⟩ := Option.map_eq_some_iff.mp hs
      exact .inr hw
  | callback x =>
    change s.callback x = some s' at hs
    unfold State.callback at hs
    split at hs <;> cases hs
    exact .inr hw
  | call r' k b =>
    simp only [step] at hs
    split at hs <;> cases hs <;> exact .inr hw
  | read r' =>
    obtain ⟨x, _, rfl⟩ := Option.map_eq_some_iff.mp hs
    refine .inr ?_
    by_cases hr : r = r'
    · subst hr
      have hand : s.waits n r = true ∧ x.inSection = true := by simpa using hw
      exact hand.1
    · simpa [Function.update_of_ne hr] using hw

/-- Only its own steps and calls move a reader. -/
theorem rd_step (hs : step s a = some s') (hc : ∀ k b, a ≠ .call r k b) (hr : a ≠ .read r) : s'.rd r = s.rd r := by
  cases a with
  | begin | alloc =>
    obtain ⟨_, _, rfl⟩ := Option.map_eq_some_iff.mp hs
    rfl
  | update => rw [update_rd hs]
  | callback x =>
    change s.callback x = some s' at hs
    unfold State.callback at hs
    split at hs <;> cases hs
    rfl
  | call r' k b =>
    have hne : r ≠ r' := fun he => hc k b (by rw [he])
    simp only [step] at hs
    split at hs <;> cases hs <;> exact Function.update_of_ne hne ..
  | read r' =>
    have hne : r ≠ r' := fun he => hr (by rw [he])
    obtain ⟨x, _, rfl⟩ := Option.map_eq_some_iff.mp hs
    exact Function.update_of_ne hne ..

/-- No step changes the key of what a reader may come to. -/
theorem Inv.key_step (hi : Inv s) (hs : ListRcu.step s a = some s') (hg : Guarded s r n) : s'.mem.key n = s.mem.key n := by
  rcases hg with hb | hl
  · exact (hi.frame hs).key n (.inr hb)
  · exact (hi.frame hs).key n (.inl (hi.lingers_out hl))

/-- Before its node is unlinked or after, a reader goes on to a larger key. -/
theorem Ascends.step (h : Ascends s) (hi : Inv s) (hs : ListRcu.step s a = some s') : Ascends s' := by
  have hi' := hi.step hs
  refine ⟨fun n r q hw hx => ?_, fun r k cur hr => ?_⟩
  · have hl := waits_step hs hw
    have hout := hi'.out (.inr (hi'.waits n r hw).1)
    have hnext := (hi.frame hs).next n (.inl (hi.lingers_out hl)) hout.2
    rw [hnext] at hx
    rw [hi.key_step hs (.inr hl), hi.key_step hs (hi.lingers_next hl hx)]
    exact h.lingers hi hl hx
  · by_cases ha : a = .read r
    · subst ha
      obtain ⟨x, hx, rfl⟩ := Option.map_eq_some_iff.mp hs
      have hr' : x = .next k cur := by simpa using hr
      subst hr'
      cases hrd : s.rd r with
      | idle | returned | lock | unlock =>
        rw [hrd] at hx
        cases hx
      | head k' b | next k' cur' =>
        rw [hrd] at hx
        simp only [Searcher.step, Option.some.injEq] at hx
        unfold Searcher.loop at hx
        split at hx <;> cases hx
      | key k' cur' =>
        rw [hrd] at hx
        simp only [Searcher.step, Option.some.injEq] at hx
        split at hx <;> cases hx
        exact not_le.mp (by assumption)
    · by_cases hc : ∃ k b, a = .call r k b
      · obtain ⟨k', b, rfl⟩ := hc
        simp only [ListRcu.step] at hs
        split at hs <;> cases hs <;> simp at hr
      · rw [rd_step hs (fun k b he => hc ⟨k, b, he⟩) ha] at hr
        rw [hi.key_step hs (hi.on cur r (by rw [hr]; rfl))]
        exact h.next r k cur hr

end step

/-- How many steps a reader takes at most until it returns, if no key is less than `lo`. -/
def Searcher.budget (lo : Int) (m : Mem β) : Searcher β → Nat
  | .idle | .returned _ => 0
  | .lock k _ => 2 * (k - lo).toNat + 4
  | .head k _ => 2 * (k - lo).toNat + 3
  | .key k cur => 2 * (k - m.key cur).toNat + 2
  | .next k cur => 2 * (k - m.key cur).toNat + 1
  | .unlock _ => 1

/-- Every access of a reader costs. -/
theorem budget_read {x : Searcher β} (h : Ascends s) (hi : Inv s) (hlow : (client β ρ).Within (lo ≤ ·) s)
    (hs : (s.rd r).step s.mem = some x) : x.budget lo s.mem < (s.rd r).budget lo s.mem := by
  cases hr : s.rd r with
  | idle | returned =>
    rw [hr] at hs
    cases hs
  | lock k b =>
    rw [hr] at hs
    cases hs
    simp [Searcher.budget]
  | head k b =>
    rw [hr] at hs
    cases hs
    cases hh : s.mem.heads b with
    | none => simp [Searcher.loop, Searcher.budget]
    | some q =>
      have hq := (hi.writers.table.head_some (k := 0) hh).1
      have hlo : lo ≤ s.mem.key q := hlow.keys (b, s.mem.key q) (hi.writers.table.member_iff.mpr ⟨q, hq, rfl⟩)
      simp only [Searcher.loop, Searcher.budget]
      omega
  | key k cur =>
    rw [hr] at hs
    cases hs
    split <;> simp [Searcher.budget]
  | next k cur =>
    rw [hr] at hs
    cases hs
    have hk := h.next r k cur hr
    cases hx : s.mem.next cur with
    | none =>
      simp only [Searcher.loop, Searcher.budget]
      omega
    | some q =>
      have hlt := h.guarded hi (hi.on cur r (by rw [hr]; rfl)) hx
      simp only [Searcher.loop, Searcher.budget]
      omega
  | unlock res =>
    rw [hr] at hs
    cases hs
    simp [Searcher.budget]

variable [DecidableEq β] [DecidableEq ρ] [Fintype ρ]

/-- The steps of the RCU build when only keys of at least `lo` are inserted. -/
def Above (lo : Int) (s : State β ρ) (a : Act β ρ) (t : State β ρ) : Prop :=
  step s a = some t ∧ ∀ k b, a = .begin .insert k b → lo ≤ k

/-- What holds all along. -/
structure Climbs (lo : Int) (s : State β ρ) : Prop where
  inv : Inv s
  ascends : Ascends s
  low : (client β ρ).Within (lo ≤ ·) s

omit [DecidableEq β] [DecidableEq ρ] [Fintype ρ] in
theorem Climbs.init : Climbs lo (.init β ρ) where
  inv := .init
  ascends := .init
  low := ⟨fun x hx => (Mem.Table.init.head_none rfl hx).elim, fun u k b h => by cases h⟩

theorem Climbs.step {a : Act β ρ} (h : Climbs lo s) (hs : Above lo s a s') : Climbs lo s' := by
  obtain ⟨hs, hlo⟩ := hs
  refine ⟨h.inv.step hs, h.ascends.step h.inv hs, (h.inv.parts_moves hs).does.within h.low fun u k b ha => ?_⟩
  cases a with
  | begin op k' b' =>
    cases ha
    exact hlo k b rfl
  | update | alloc | callback | call | read => cases ha

/-- The other steps leave a reader what it has. -/
theorem Climbs.budget_other {a : Act β ρ} (h : Climbs lo s) (hs : ListRcu.step s a = some s') (hc : ∀ k b, a ≠ .call r k b)
    (hr : a ≠ .read r) : (s'.rd r).budget lo s'.mem = (s.rd r).budget lo s.mem := by
  rw [rd_step hs hc hr]
  cases hrd : s.rd r with
  | idle | returned | lock | head | unlock => rfl
  | key k cur | next k cur =>
    have hkey := h.inv.key_step hs (h.inv.on cur r (by rw [hrd]; rfl))
    simp only [Searcher.budget, hkey]

/-- `r` is in `search(k, &heads[b], _)`, which it called right before `s`, or has returned from it. -/
structure Searching (lo : Int) (r : ρ) (k : Int) (b : β) (s : State β ρ) (tr : List (Act β ρ × State β ρ)) (t : State β ρ) :
    Prop where
  start : ∃ s₀, Reachable (Above lo) (.init β ρ) s₀ ∧ Above lo s₀ (.call r k b) s
  run : Run (fun s a t => Above lo s a t ∧ ∀ k b, a ≠ .call r k b) s tr t

theorem Searching.lock {tr : List (Act β ρ × State β ρ)} {t : State β ρ} (h : Searching lo r k b s tr t) :
    Climbs lo s ∧ s.rd r = .lock k b := by
  obtain ⟨⟨s₀, h₀, hcall⟩, _⟩ := h
  have hi : Climbs lo s₀ := h₀.invariant .init fun _ _ _ hi hr => hi.step hr
  refine ⟨hi.step hcall, ?_⟩
  have hc := hcall.1
  simp only [ListRcu.step] at hc
  split at hc <;> cases hc <;> simp

/-- What the search has spent and what it may spend yet. -/
theorem Searching.spent {tr : List (Act β ρ × State β ρ)} {t : State β ρ} (h : Searching lo r k b s tr t) :
    stepCount (fun _ a _ => a = .read r) s tr + (t.rd r).budget lo t.mem ≤ 2 * (k - lo).toNat + 4 := by
  obtain ⟨hi, hrd⟩ := h.lock
  have hbudget : (s.rd r).budget lo s.mem = 2 * (k - lo).toNat + 4 := by rw [hrd]; rfl
  rw [← hbudget]
  refine h.run.stepCount_le (F := fun s => (s.rd r).budget lo s.mem) hi (fun _ _ _ hi hr => hi.step hr.1)
    (fun s a t hi hr ha => ?_) fun s a t hi hr ha => (hi.budget_other hr.1.1 hr.2 ha).le
  subst ha
  obtain ⟨⟨hs, _⟩, _⟩ := hr
  obtain ⟨x, hx, rfl⟩ := Option.map_eq_some_iff.mp hs
  simpa using budget_read hi.ascends hi.inv hi.low hx

theorem Searching.not_idle {tr : List (Act β ρ × State β ρ)} {t : State β ρ} (h : Searching lo r k b s tr t) :
    t.rd r ≠ .idle := by
  have h₀ : s.rd r ≠ .idle := by
    rw [h.lock.2]
    exact nofun
  refine h.run.invariant (P := fun s => s.rd r ≠ .idle) h₀ fun s a t hne hr => ?_
  obtain ⟨⟨hs, _⟩, hc⟩ := hr
  by_cases ha : a = .read r
  · subst ha
    obtain ⟨x, hx, rfl⟩ := Option.map_eq_some_iff.mp hs
    obtain ⟨_, hrun, _⟩ := running_of_step hx
    intro he
    obtain rfl : x = .idle := by simpa using he
    cases hrun
  · rwa [rd_step hs hc ha]

omit [DecidableEq β] [Fintype ρ] in
/-- A reader never waits. -/
theorem read_enabled (hne : s.rd r ≠ .idle) : (∃ res, s.rd r = .returned res) ∨ ∃ u, s.read r = some u := by
  cases hrd : s.rd r with
  | idle => exact (hne hrd).elim
  | returned res => exact .inl ⟨res, rfl⟩
  | lock | head | key | next | unlock =>
    refine .inr ?_
    unfold State.read
    rw [hrd]
    exact ⟨_, rfl⟩

/-- Whatever the updater, the callbacks and the other readers do meanwhile, a search is never stuck and
returns after a number of steps that the keys alone bound. -/
theorem rcu_wait_free {lo k : Int} {r : ρ} {b : β} {s t : State β ρ} {tr : List (Act β ρ × State β ρ)}
    (h : Searching lo r k b s tr t) :
    stepCount (fun _ a _ => a = .read r) s tr ≤ 2 * (k - lo).toNat + 4 ∧
      ((∃ res, t.rd r = .returned res) ∨ ∃ u, step t (.read r) = some u) :=
  ⟨(Nat.le_add_right ..).trans h.spent, read_enabled h.not_idle⟩

/-- `delete(1)` by which the node under a reader in `search(1)` is retired. -/
def oneDelete : List (Act Unit Unit) :=
  [.read (), .read (), .begin .delete 1 ()] ++ List.replicate 8 .update ++ [.read (), .read ()]

theorem rcu_wait_free_delete : ∃ (s t : State Unit Unit) (tr : _), Searching 0 () 1 () s tr t ∧ t.pending 0 = true ∧
    stepCount (fun _ a _ => a = .read ()) s tr ≤ 2 * (1 - 0 : Int).toNat + 4 := by
  have h : (exec step (.init Unit Unit) (oneInsert ++ Act.call () 1 () :: oneDelete)).any fun s => s.pending 0 := by
    decide +kernel
  obtain ⟨t, ht, hpend⟩ := Option.any_eq_true _ _ |>.mp h
  obtain ⟨s₀, h₀, hs⟩ := exec_split ht
  obtain ⟨s, hcall, hrun⟩ := Option.bind_eq_some_iff.mp hs
  have hins : ∀ a ∈ oneInsert, ∀ k b, a = Act.begin .insert k b → 0 ≤ k := by simp [oneInsert]
  have hdel : ∀ a ∈ oneDelete, (∀ k b, a = Act.begin .insert k b → 0 ≤ k) ∧ ∀ k b, a ≠ Act.call () k b := by
    simp [oneDelete]
  have hsearch : Searching 0 () 1 () s (execTrace step s oneDelete) t := by
    refine ⟨⟨s₀, ⟨_, (exec_run h₀).guarded fun e he => hins _ (execTrace_label he)⟩, hcall, nofun⟩, ?_⟩
    have hrun' := (exec_run hrun).guarded (G := fun a =>
      (∀ k b, a = Act.begin .insert k b → 0 ≤ k) ∧ ∀ k b, a ≠ Act.call () k b) fun e he => hdel e.1 (execTrace_label he)
    exact hrun'.mono fun s a t hr => ⟨⟨hr.1, hr.2.1⟩, hr.2.2⟩
  exact ⟨s, t, _, hsearch, hpend, (rcu_wait_free hsearch).1⟩

end Gecos.ListRcu
