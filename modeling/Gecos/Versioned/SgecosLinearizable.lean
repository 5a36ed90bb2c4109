import Gecos.Versioned.SgecosSearch

/-! Linearizability of the search of list_sgecos.c. -/
namespace Gecos.ListSgecos
open Library
variable {β ρ : Type} {s s' : Shared β Unit}

/-- The readers validate against the counter of the bucket. -/
def lockOf (m : Mem β) (b : β) (_ : Addr) : Nat := m.locks b

abbrev view (β : Type) : Traversal (Shared β Unit) β Addr Int := Shared.view lockOf

structure Inv (s : Shared β Unit) : Prop where
  writers : Writers s.mem s.upd
  counter : ∀ b n g, s.upd () = .freeNodeLater b n (.store g) → s.mem.locks b = g

theorem Inv.init : Inv (.init β Unit) where
  writers := .init
  counter _ _ _ h := by simp [Shared.init] at h

private theorem inv_put {m' : Mem β} {w' : Writer β Bump}
    (hw : Writers m' (Function.update s.upd () w'))
    (hc : ∀ b n g, w' = .freeNodeLater b n (.store g) → m'.locks b = g) :
    Inv (s.put () (m', w')) :=
  ⟨hw, fun b n g hv => hc b n g (by simpa [Shared.put] using hv)⟩

private theorem outside {op : Op} {k : Int} {b : β} {w : Writer β Bump}
    (hs : begin (s.upd ()) op k b = some w) :
    w = .loadHead op k b ∧ (∀ b n r, s.upd () ≠ .freeNodeLater b n r) ∧ ∀ b, (s.upd ()).inside ≠ some b := by
  unfold begin at hs
  split at hs
  all_goals try contradiction
  all_goals cases hs; rename_i he; simp [he, Writer.inside]

theorem Inv.begin (h : Inv s) {op : Op} {k : Int} {b : β} {w : Writer β Bump}
    (hs : begin (s.upd ()) op k b = some w) :
    Inv (s.put () (s.mem, w)) ∧ (view β).Evolves s (s.put () (s.mem, w)) := by
  obtain ⟨rfl, hno, hin⟩ := outside hs
  refine ⟨inv_put (h.writers.frame rfl rfl rfl (fun _ hx => .inl hx) (fun b' _ => .inr fun _ => hin b')
    (by simp [Writer.inHand]) trivial) (by simp), ?_⟩
  exact Shared.evolves_frame rfl rfl rfl (fun _ _ => le_rfl) fun b n r hr => (hno b n r hr).elim

theorem Inv.alloc (h : Inv s) {n : Addr} {mw : Mem β × Writer β Bump}
    (hs : (s.upd ()).alloc s.mem n = some mw) :
    Inv (s.put () mw) ∧ (view β).Evolves s (s.put () mw) := by
  unfold Writer.alloc at hs
  split at hs
  case h_2 => contradiction
  rename_i k b prev cur he
  split at hs
  case isFalse => contradiction
  rename_i hav
  cases hs
  refine ⟨inv_put (h.writers.handOut he hav rfl rfl id) (by simp), ?_⟩
  exact Shared.evolves_frame rfl rfl rfl (fun _ _ => le_rfl) fun b n r hr => by simp [he] at hr

variable [DecidableEq β]

/-- Every step of the updater keeps the invariant and the readers' knowledge. -/
theorem Inv.update (h : Inv s) {mw : Mem β × Writer β Bump} (hs : update s.mem (s.upd ()) = some mw) :
    Inv (s.put () mw) ∧ (view β).Evolves s (s.put () mw) := by
  unfold ListSgecos.update at hs
  split at hs
  case h_1 b res he =>
    cases hs
    refine ⟨inv_put (h.writers.stay (by simp [Writer.inside]) (by simp [Writer.inHand]) trivial) (by simp), ?_⟩
    exact Shared.evolves_frame rfl rfl rfl (fun _ _ => le_rfl) fun b n r hr => by simp [he] at hr
  case h_2 b n he =>
    cases hs
    refine ⟨inv_put (h.writers.keepHand he rfl rfl rfl rfl) (by rintro b' n' g ⟨⟩; rfl), ?_⟩
    refine Shared.evolves_frame rfl rfl rfl (fun _ _ => le_rfl) fun b' n' r hr _ _ => ?_
    rw [he] at hr
    cases hr
    exact ⟨_, rfl, by simp⟩
  case h_3 b n g he =>
    cases hs
    have hg := h.counter b n g he
    refine ⟨inv_put (h.writers.keepHand he rfl rfl rfl rfl) (by simp), ?_⟩
    refine Shared.evolves_frame rfl rfl rfl (fun b' x => ?_) fun b' n' r hr _ hst => ?_
    · by_cases hb : b' = b
      · subst hb; simp [lockOf, hg]
      · simp [lockOf, Function.update_of_ne hb]
    · rw [he] at hr
      cases hr
      simp [lockOf, hg] at hst
  case h_4 b n he =>
    cases hs
    refine ⟨inv_put (h.writers.giveUp he rfl rfl rfl rfl) (by simp), ?_⟩
    refine Shared.evolves_frame rfl rfl rfl (fun _ _ => le_rfl) fun b' n' r hr hne _ => ?_
    rw [he] at hr
    cases hr
    exact (hne rfl).elim
  case h_5 =>
    obtain ⟨m', w'⟩ := mw
    obtain ⟨_, _, _, _, hlk, _⟩ := h.writers.step_keeps hs
    refine ⟨inv_put (h.writers.step hs) fun b n g hw => ?_, ?_⟩
    · cases (Writer.step_bounds hs).2 b n _ hw
    · exact Shared.evolves_step h.writers hs fun b n => by simp [lockOf, hlk]

variable [DecidableEq ρ]

theorem Inv.step {s s' : State β ρ} {a : Act β ρ} (h : Inv s.shared) (hs : step s a = some s') :
    Inv s'.shared ∧ (view β).Evolves s.shared s'.shared := by
  cases a with
  | begin op k b =>
    obtain ⟨w, hw, rfl⟩ := Option.map_eq_some_iff.mp hs
    exact h.begin hw
  | update =>
    obtain ⟨mw, hw, rfl⟩ := Option.map_eq_some_iff.mp hs
    exact h.update hw
  | alloc n =>
    obtain ⟨mw, hw, rfl⟩ := Option.map_eq_some_iff.mp hs
    exact h.alloc hw
  | call r k b l =>
    simp only [ListSgecos.step] at hs
    split at hs <;> cases hs <;> exact ⟨h, .refl _⟩
  | read r =>
    obtain ⟨x, _, rfl⟩ := Option.map_eq_some_iff.mp hs
    exact ⟨h, .refl _⟩

theorem inv_reachable {s : State β ρ} (h : Reachable (Steps step) (.init β ρ) s) : Inv s.shared :=
  h.invariant (P := fun s => Inv s.shared) Inv.init fun _ _ _ hi hr => (hi.step hr).1

/-- What a reader inside `search(k, heads[b])` knows: `lgc` was read before any of its nodes, so
while the counter of the bucket is still `lgc` none of them has been freed. -/
def Knows (hist : List (Shared β Unit)) (s : Shared β Unit) (k : Int) (b : β) : Searcher β → Prop
  | .idle => False
  | .returned res => ∃ m ∈ hist, (res = 1 ↔ m.mem.Member b k)
  | .run pc k' b' l => k' = k ∧ b' = b ∧
    match pc with
    | .lock => True
    | .head => l.lgc ≤ s.mem.locks b
    | .curKey => (view β).Held hist s b k l.cur l.lgc
    | .next => (view β).Held hist s b k l.cur l.lgc ∧
      (s.mem.locks b = l.lgc → l.curKey = s.mem.key l.cur)
    | .lockAgain => ((view β).Held hist s b k l.cur l.lgc ∧
      (s.mem.locks b = l.lgc → l.curKey = s.mem.key l.cur)) ∧
      (s.mem.locks b = l.lgc → l.curKey < k → (view β).HeldPtr hist s b k l.lgc l.next)

variable {hist : List (Shared β Unit)} {k : Int} {b : β} {x x' : Searcher β}

omit [DecidableEq β] in
theorem Knows.evolve (h : Knows hist s k b x) (he : (view β).Evolves s s') :
    Knows (hist ++ [s']) s' k b x := by
  cases x with
  | idle => exact h
  | returned res =>
    obtain ⟨m, hm, h⟩ := h
    exact ⟨m, by simp [hm], h⟩
  | run pc k' b' l =>
    obtain ⟨rfl, rfl, h⟩ := h
    refine ⟨rfl, rfl, ?_⟩
    cases pc with
    | lock => trivial
    | head => exact le_trans h (he b' 0).1
    | curKey => exact h.evolve he
    | next => exact ⟨h.1.evolve he, h.1.key_evolve he h.2⟩
    | lockAgain =>
      refine ⟨⟨h.1.1.evolve he, h.1.1.key_evolve he h.1.2⟩, fun hg hk => ?_⟩
      have hs : s.mem.locks b' = l.lgc :=
        le_antisymm (le_trans (he b' l.cur).1 (le_of_eq hg)) h.1.1.1
      exact (h.2 hs hk).evolve he

omit [DecidableEq β] in
private theorem knows_loop {l : Locals} {p : Ptr} (h : (view β).HeldPtr hist s b k l.lgc p) :
    Knows hist s k b (Searcher.loop k b l p) := by
  cases p with
  | none =>
    obtain ⟨m, hm, h⟩ := h
    exact ⟨m, hm, iff_of_false (by decide) h⟩
  | some n => exact ⟨rfl, rfl, h⟩

omit [DecidableEq β] in
theorem Knows.read (hw : Writers s.mem s.upd) (hm : s ∈ hist) (h : Knows hist s k b x)
    (hs : x.step s.mem = some x') : Knows hist s k b x' := by
  have hsound : (view β).Sound s := Shared.sound hw
  cases x with
  | idle | returned => simp [Searcher.step] at hs
  | run pc k' b' l =>
    obtain ⟨rfl, rfl, h⟩ := h
    cases pc with
    | lock =>
      cases hs
      exact ⟨rfl, rfl, le_refl (s.mem.locks b')⟩
    | head =>
      cases hs
      apply knows_loop
      cases hh : s.mem.heads b' with
      | none => exact ⟨s, hm, hsound.first_none b' k' hh⟩
      | some n => exact .first hsound hm hh h
    | curKey =>
      cases hs
      exact ⟨rfl, rfl, h, fun _ => rfl⟩
    | next =>
      cases hs
      refine ⟨rfl, rfl, h, fun hg hk => ?_⟩
      change l.curKey < k' at hk
      rw [h.2 hg] at hk
      exact .advance hsound hm (h.1.2 hg).1 hk rfl fun _ _ => le_of_eq hg.symm
    | lockAgain =>
      simp only [Searcher.step] at hs
      split at hs
      · cases hs; exact ⟨rfl, rfl, trivial⟩
      · rename_i hg
        have hg' : s.mem.locks b' = l.lgc := (not_not.mp hg).symm
        have hkey := h.1.2 hg'
        split at hs <;> cases hs
        · rename_i hk
          obtain ⟨m, hm', hans⟩ := h.1.1.answer hg' (show k' ≤ s.mem.key l.cur from hkey ▸ hk)
          have hres : (if l.curKey = k' then 1 else 0) = 1 ↔ l.curKey = k' := by simp
          exact ⟨m, hm', hres.trans (hkey ▸ hans)⟩
        · rename_i hk
          exact knows_loop (h.2 hg' (by omega))

/-- A completed call of `search(k, &heads[b], &locks[b])` by `r` with result `res`; `hist` are the
states from just after the call to just before the return. -/
def Completed (r : ρ) (k : Int) (b : β) (res : Nat) (hist : List (State β ρ)) : Prop :=
  Interval (Steps step) (.init β ρ) (fun a => ∃ l, a = .call r k b l)
    (fun a => ∀ k b l, a ≠ .call r k b l) (fun a s => a = .read r ∧ s.rd r = .returned res) hist

/-- The search of list_sgecos.c is linearizable: its result is right at some instant of the call. -/
theorem sgecos_search_linearizable {r : ρ} {k : Int} {b : β} {res : Nat} {hist : List (State β ρ)}
    (h : Completed r k b res hist) : ∃ m ∈ hist, (res = 1 ↔ m.shared.mem.Member b k) := by
  obtain ⟨h₀, ⟨l, rfl⟩, hcall, hrun, hone, hret, rfl, hres⟩ := h
  rename_i s₀ s₁ s₂ s₃ tr
  have hinv₁ := ((inv_reachable h₀).step hcall).1
  have hknow := hrun.history
    (P := fun hist s => Inv s.shared ∧ s ∈ hist ∧
      Knows (hist.map State.shared) s.shared k b (s.rd r)) ?_ ?_
  · obtain ⟨hinv, hmem, hk⟩ := hknow
    obtain ⟨x, hx, rfl⟩ := Option.map_eq_some_iff.mp hret
    have hk' := hk.read hinv.writers (List.mem_map_of_mem hmem) hx
    rw [show x = .returned res by simpa using hres] at hk'
    obtain ⟨m, hm, hiff⟩ := hk'
    obtain ⟨t, ht, rfl⟩ := List.mem_map.mp hm
    exact ⟨t, ht, hiff⟩
  · refine ⟨hinv₁, by simp, ?_⟩
    simp only [Steps, ListSgecos.step] at hcall
    split at hcall <;> cases hcall <;> simp [Knows]
  · rintro hist t a u ⟨hinv, hmem, hk⟩ hr he
    obtain ⟨hinv', hev⟩ := hinv.step hr
    refine ⟨hinv', by simp, ?_⟩
    rw [List.map_append]
    cases a with
    | begin | update | alloc =>
      obtain ⟨mw, _, rfl⟩ := Option.map_eq_some_iff.mp hr
      exact hk.evolve hev
    | call r' k' b' l' =>
      have hne : r ≠ r' := fun he' => hone _ he k' b' l' (by rw [he'])
      simp only [Steps, ListSgecos.step] at hr
      split at hr <;> cases hr <;> simpa [Function.update_of_ne hne] using hk.evolve hev
    | read r' =>
      obtain ⟨x, hx, rfl⟩ := Option.map_eq_some_iff.mp hr
      by_cases hr' : r = r'
      · subst hr'
        simpa using (hk.read hinv.writers (List.mem_map_of_mem hmem) hx).evolve hev
      · simpa [Function.update_of_ne hr'] using hk.evolve hev

/-- Nodes 0 and 1 with keys 5 and 6, in one bucket. -/
abbrev twoNodes : List (Act Bool Unit) :=
  [.begin .insert 5 false, .update, .alloc 0] ++ List.replicate 4 .update ++
    .begin .insert 6 false :: List.replicate 3 .update ++ .alloc 1 :: List.replicate 4 .update

/-- The node that a search for key 6 has stepped onto is freed and comes back in the other bucket. -/
theorem sgecos_search_linearizable_found : ∃ hist : List (State Bool Unit), Completed () 6 false 0 hist ∧
    (∃ m ∈ hist, (0 = 1 ↔ m.shared.mem.Member false 6)) ∧
      ∃ m ∈ hist, m.shared.mem.heads true = some 1 ∧ m.shared.mem.next 0 = none := by
  have h : (exec step (.init Bool Unit) (twoNodes ++ (Act.call () 6 false ⟨7, none, 0, 0⟩ ::
      (List.replicate 5 (.read ()) ++ .begin .delete 6 false :: List.replicate 11 .update ++
        [.begin .insert 6 true, .update, .alloc 1] ++ List.replicate 4 .update)))).any fun s =>
      (decide (s.shared.mem.heads true = some 1) && decide (s.shared.mem.next 0 = none)) &&
        (exec step s (List.replicate 7 (.read ()) ++ [Act.read ()])).any fun s => decide (s.rd () = .returned 0) := by
    decide
  obtain ⟨hist, hc, m, hm, hq⟩ : ∃ hist : List (State Bool Unit), Completed () 6 false 0 hist ∧
      ∃ m ∈ hist, decide (m.shared.mem.heads true = some 1) && decide (m.shared.mem.next 0 = none) :=
    Interval.of_exec_through h ⟨_, rfl⟩ (by simp) fun _ ht => ⟨rfl, of_decide_eq_true ht⟩
  simp only [Bool.and_eq_true, decide_eq_true_eq] at hq
  exact ⟨hist, hc, sgecos_search_linearizable hc, m, hm, hq⟩

end Gecos.ListSgecos
