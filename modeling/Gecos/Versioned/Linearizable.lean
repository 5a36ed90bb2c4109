import Gecos.Versioned.SearchInvariant

/-! Linearizability of the three searches of list_gecos.c. -/
namespace Gecos.ListGecos
open Library
variable {β υ ρ : Type} {cfg : Locking υ} {v : Variant} {s s' : Shared β υ}
  {hist : List (Shared β υ)} {k : Int} {b : β} {x x' : Searcher β}

/-- What a reader inside `search(k, heads[b])` knows at each of its loads. The saved `prev`
counts from its first assignment on, in whatever attempt that was. -/
def Knows (hist : List (Shared β υ)) (s : Shared β υ) (k : Int) (b : β) : Searcher β → Prop
  | .idle => False
  | .returned res => ∃ m ∈ hist, (res = 1 ↔ m.mem.Member b k)
  | .run pc k' b' l => k' = k ∧ b' = b ∧
    (l.prevSet = true → ∃ p, l.prev = some p ∧ (view β υ).Held hist s b k p l.prevGc) ∧
    match pc with
    | .head | .curGc => True
    | .headAgain => l.curGc ≤ s.mem.gc l.cur
    | .curKey => (view β υ).Held hist s b k l.cur l.curGc
    | .next | .nextGc => (view β υ).Held hist s b k l.cur l.curGc ∧
      (s.mem.gc l.cur = l.curGc → l.curKey = s.mem.key l.cur)
    | .nextAgain => ((view β υ).Held hist s b k l.cur l.curGc ∧
      (s.mem.gc l.cur = l.curGc → l.curKey = s.mem.key l.cur)) ∧ ∀ q ∈ l.next, l.nextGc ≤ s.mem.gc q
    | .curGcAgain => ((view β υ).Held hist s b k l.cur l.curGc ∧
      (s.mem.gc l.cur = l.curGc → l.curKey = s.mem.key l.cur)) ∧
      (s.mem.gc l.cur = l.curGc → l.curKey < k → (view β υ).HeldPtr hist s b k l.nextGc l.next)
    | .prevGcAgain => l.prevSet = true

private theorem gc_evolve (b : β) {n : Addr} {g : Nat} (he : (view β υ).Evolves s s')
    (h : g ≤ s.mem.gc n) : g ≤ s'.mem.gc n := le_trans h (he b n).1

theorem Knows.evolve (h : Knows hist s k b x) (he : (view β υ).Evolves s s') :
    Knows (hist ++ [s']) s' k b x := by
  cases x with
  | idle => exact h
  | returned res =>
    obtain ⟨m, hm, h⟩ := h
    exact ⟨m, by simp [hm], h⟩
  | run pc k' b' l =>
    obtain ⟨rfl, rfl, hprev, h⟩ := h
    refine ⟨rfl, rfl, fun hp => ?_, ?_⟩
    · obtain ⟨p, hp, hh⟩ := hprev hp
      exact ⟨p, hp, hh.evolve he⟩
    cases pc with
    | head | curGc => trivial
    | headAgain => exact gc_evolve b' he h
    | curKey => exact h.evolve he
    | next | nextGc => exact ⟨h.1.evolve he, h.1.key_evolve he h.2⟩
    | nextAgain =>
      exact ⟨⟨h.1.1.evolve he, h.1.1.key_evolve he h.1.2⟩, fun q hq => gc_evolve b' he (h.2 q hq)⟩
    | curGcAgain =>
      refine ⟨⟨h.1.1.evolve he, h.1.1.key_evolve he h.1.2⟩, fun hg hk => ?_⟩
      have hs : s.mem.gc l.cur = l.curGc :=
        le_antisymm (le_trans (he b' l.cur).1 (le_of_eq hg)) h.1.1.1
      exact (h.2 hs hk).evolve he
    | prevGcAgain => exact h

/-- A search about to find the counter of its node changed has moved past a node in this call. -/
def moved (m : Mem β) : Searcher β → Bool
  | .run .curGcAgain _ _ l => l.curGc = m.gc l.cur || l.prevSet
  | _ => true

private theorem knows_loop {l : Locals} {p : Ptr}
    (hprev : l.prevSet = true → ∃ p, l.prev = some p ∧ (view β υ).Held hist s b k p l.prevGc)
    (h : (view β υ).HeldPtr hist s b k l.curGc p) :
    Knows hist s k b (Searcher.loop k b l p) := by
  cases p with
  | none =>
    obtain ⟨m, hm, h⟩ := h
    exact ⟨m, hm, iff_of_false (by decide) h⟩
  | some n => exact ⟨rfl, rfl, hprev, h⟩

/-- A load of `search` keeps the reader's knowledge, and the answer it returns is right at
some state of the call. -/
theorem Knows.read (hw : Writers s.mem s.upd) (hm : s ∈ hist) (h : Knows hist s k b x)
    (hback : v = .back → moved s.mem x) (hs : x.step v s.mem = some x') : Knows hist s k b x' := by
  have hsound : (view β υ).Sound s := Shared.sound hw
  cases x with
  | idle | returned => simp [Searcher.step] at hs
  | run pc k' b' l =>
    obtain ⟨rfl, rfl, hprev, h⟩ := h
    cases pc with
    | head =>
      simp only [Searcher.step] at hs
      split at hs <;> cases hs
      · exact ⟨s, hm, iff_of_false (by decide) (hsound.first_none b' k' (by assumption))⟩
      · exact ⟨rfl, rfl, hprev, trivial⟩
    | curGc =>
      cases hs
      exact ⟨rfl, rfl, hprev, le_refl (s.mem.gc l.cur)⟩
    | headAgain =>
      simp only [Searcher.step] at hs
      split at hs <;> cases hs
      · exact ⟨rfl, rfl, hprev, trivial⟩
      · rename_i hhead
        exact ⟨rfl, rfl, hprev, .first hsound hm (not_not.mp hhead).symm h⟩
    | curKey =>
      cases hs
      exact ⟨rfl, rfl, hprev, h, fun _ => rfl⟩
    | next =>
      simp only [Searcher.step] at hs
      split at hs <;> cases hs
      · exact ⟨rfl, rfl, hprev, h, by simp⟩
      · exact ⟨rfl, rfl, hprev, h⟩
    | nextGc =>
      simp only [Searcher.step] at hs
      split at hs <;> cases hs
      rename_i n hn
      exact ⟨rfl, rfl, hprev, h, by simp [hn]⟩
    | nextAgain =>
      simp only [Searcher.step] at hs
      split at hs
      · cases v <;> cases hs
        · exact ⟨rfl, rfl, hprev, trivial⟩
        · exact ⟨rfl, rfl, hprev, h.1⟩
        · exact ⟨rfl, rfl, hprev, h.1⟩
      · rename_i hnx
        cases hs
        refine ⟨rfl, rfl, hprev, h.1, fun hg hk => ?_⟩
        rw [h.1.2 hg] at hk
        exact .advance hsound hm (h.1.1.2 hg).1 hk (not_not.mp hnx).symm h.2
    | curGcAgain =>
      simp only [Searcher.step] at hs
      split at hs
      · rename_i hg
        cases v <;> cases hs
        · exact ⟨rfl, rfl, hprev, trivial⟩
        · exact ⟨rfl, rfl, hprev, by simpa [moved, hg] using hback rfl⟩
        · exact ⟨rfl, rfl, hprev, trivial⟩
      · rename_i hg
        have hg' : s.mem.gc l.cur = l.curGc := (not_not.mp hg).symm
        have hkey := h.1.2 hg'
        split at hs <;> cases hs
        · rename_i hk
          obtain ⟨m, hm', hans⟩ := h.1.1.answer hg' (show k' ≤ s.mem.key l.cur from hkey ▸ hk)
          have hres : (if l.curKey = k' then 1 else 0) = 1 ↔ l.curKey = k' := by simp
          exact ⟨m, hm', hres.trans (hkey ▸ hans)⟩
        · rename_i hk
          exact knows_loop (fun _ => ⟨l.cur, rfl, h.1.1⟩) (h.2 hg' (by omega))
    | prevGcAgain =>
      obtain ⟨p, hp, hh⟩ := hprev h
      simp only [Searcher.step] at hs
      split at hs
      · contradiction
      rename_i q hq
      cases hp.symm.trans hq
      split at hs <;> cases hs
      · exact knows_loop (fun _ => ⟨p, hp, hh⟩) hh
      · exact ⟨rfl, rfl, hprev, trivial⟩

variable [DecidableEq β] [DecidableEq υ] [DecidableEq ρ]

/-- Each label's effect on the shared part. -/
theorem Inv.step {s s' : State β υ ρ} {a : Act β υ ρ} (h : Inv cfg s.shared)
    (hs : step cfg v s a = some s') :
    Inv cfg s'.shared ∧ (view β υ).Evolves s.shared s'.shared := by
  cases a with
  | begin u op k b =>
    obtain ⟨w, hw, rfl⟩ := Option.map_eq_some_iff.mp hs
    exact h.begin hw
  | update u =>
    obtain ⟨mw, hw, rfl⟩ := Option.map_eq_some_iff.mp hs
    exact h.update hw
  | alloc u n =>
    obtain ⟨mw, hw, rfl⟩ := Option.map_eq_some_iff.mp hs
    exact h.alloc hw
  | call r k b l =>
    simp only [ListGecos.step] at hs
    split at hs <;> cases hs <;> exact ⟨h, .refl _⟩
  | read r =>
    obtain ⟨x, _, rfl⟩ := Option.map_eq_some_iff.mp hs
    exact ⟨h, .refl _⟩

theorem inv_reachable {s : State β υ ρ} {R : State β υ ρ → Act β υ ρ → State β υ ρ → Prop}
    (hR : ∀ s a t, R s a t → step cfg v s a = some t)
    (h : Reachable R (.init β υ ρ) s) : Inv cfg s.shared :=
  h.invariant (P := fun s => Inv cfg s.shared) Inv.init fun _ _ _ hi hr => (hi.step (hR _ _ _ hr)).1

/-- A completed call of `search(k, &heads[b], _)` by reader `r` with result `res`, in a run by
the steps of `R`; `hist` are the states from just after the call to just before the return. -/
def Completed (R : State β υ ρ → Act β υ ρ → State β υ ρ → Prop) (r : ρ) (k : Int) (b : β) (res : Nat)
    (hist : List (State β υ ρ)) : Prop :=
  Interval R (.init β υ ρ) (fun a => ∃ l, a = .call r k b l) (fun a => ∀ k b l, a ≠ .call r k b l)
    (fun a s => a = .read r ∧ s.rd r = .returned res) hist

/-- Every completed search answers for some state of its call, as long as a search that steps
back has moved before. -/
theorem completed_answers {R : State β υ ρ → Act β υ ρ → State β υ ρ → Prop}
    (hR : ∀ s a t, R s a t → step cfg v s a = some t)
    (hmoved : v = .back → ∀ s r t, Reachable R (.init β υ ρ) s → R s (.read r) t → moved s.shared.mem (s.rd r))
    {r : ρ} {k : Int} {b : β} {res : Nat} {hist : List (State β υ ρ)} (h : Completed R r k b res hist) :
    ∃ m ∈ hist, (res = 1 ↔ m.shared.mem.Member b k) := by
  obtain ⟨h₀, ⟨l, rfl⟩, hcall, hrun, hone, hret, rfl, hres⟩ := h
  rename_i s₀ s₁ s₂ s₃ tr
  have h₁ := h₀.trans ⟨_, Run.nil.snoc hcall⟩
  have hknow := hrun.history
    (P := fun hist s => Reachable R (.init β υ ρ) s ∧ s ∈ hist ∧
      Knows (hist.map State.shared) s.shared k b (s.rd r)) ?_ ?_
  · obtain ⟨hreach, hmem, hk⟩ := hknow
    have hinv := inv_reachable hR hreach
    have hs := hR _ _ _ hret
    obtain ⟨x, hx, rfl⟩ := Option.map_eq_some_iff.mp hs
    have hk' := hk.read hinv.writers (List.mem_map_of_mem hmem)
      (fun hv => hmoved hv _ _ _ hreach hret) hx
    rw [show x = .returned res by simpa using hres] at hk'
    obtain ⟨m, hm, hiff⟩ := hk'
    obtain ⟨t, ht, rfl⟩ := List.mem_map.mp hm
    exact ⟨t, ht, hiff⟩
  · refine ⟨h₁, by simp, ?_⟩
    have hs := hR _ _ _ hcall
    simp only [ListGecos.step] at hs
    split at hs <;> cases hs <;> simp [Knows]
  · rintro hist t a u ⟨hreach, hmem, hk⟩ hr he
    have hinv := inv_reachable hR hreach
    obtain ⟨_, hev⟩ := hinv.step (hR _ _ _ hr)
    refine ⟨hreach.trans ⟨_, Run.nil.snoc hr⟩, by simp, ?_⟩
    rw [List.map_append]
    have hs := hR _ _ _ hr
    cases a with
    | begin | update | alloc =>
      obtain ⟨mw, _, rfl⟩ := Option.map_eq_some_iff.mp hs
      exact hk.evolve hev
    | call r' k' b' l' =>
      have hne : r ≠ r' := fun he' => hone _ he k' b' l' (by rw [he'])
      simp only [ListGecos.step] at hs
      split at hs <;> cases hs <;> simpa [Function.update_of_ne hne] using hk.evolve hev
    | read r' =>
      obtain ⟨x, hx, rfl⟩ := Option.map_eq_some_iff.mp hs
      by_cases hr' : r = r'
      · subst hr'
        have hk' := hk.read hinv.writers (List.mem_map_of_mem hmem) (fun hv => hmoved hv _ _ _ hreach hr) hx
        simpa using hk'.evolve hev
      · simpa [Function.update_of_ne hr'] using hk.evolve hev

omit [DecidableEq υ] [DecidableEq ρ] in
theorem completed_through (f : State β υ ρ → Act β υ ρ → Option (State β υ ρ)) (as bs cs : List (Act β υ ρ))
    (r : ρ) (k : Int) (b : β) (l : Locals) (res : Nat) (q : State β υ ρ → Bool)
    (h : (exec f (.init β υ ρ) (as ++ (Act.call r k b l :: bs))).any fun s =>
      q s && (exec f s (cs ++ [Act.read r])).any fun s => decide (s.rd r = .returned res))
    (hbs : ∀ a ∈ bs ++ cs, ∀ k b l, a ≠ .call r k b l) :
    ∃ hist, Completed (Steps f) r k b res hist ∧ ∃ m ∈ hist, q m :=
  Interval.of_exec_through h ⟨l, rfl⟩ hbs fun _ ht => ⟨rfl, of_decide_eq_true ht⟩

/-- The default search is linearizable: its result is right at some instant between call and return. -/
theorem search_linearizable (cfg : Locking υ) {r : ρ} {k : Int} {b : β} {res : Nat}
    {hist : List (State β υ ρ)} (h : Completed (Steps (step cfg .plain)) r k b res hist) :
    ∃ m ∈ hist, (res = 1 ↔ m.shared.mem.Member b k) :=
  completed_answers (fun _ _ _ hs => hs) (by simp) h

/-- A solitary updater inserts a key into a table of one bucket. -/
abbrev insertRun (k : Int) (n : Addr) : List (Act Unit Unit Unit) :=
  [.begin () .insert k (), .update (), .update (), .alloc () n, .update (), .update (), .update (),
    .update ()]

/-- The same behind a single node with a smaller key. -/
abbrev insertSecond (k : Int) (n : Addr) : List (Act Unit Unit Unit) :=
  .begin () .insert k () :: List.replicate 4 (.update ()) ++ .alloc () n :: List.replicate 4 (.update ())

/-- The deletion of that second node. -/
abbrev deleteSecond (k : Int) : List (Act Unit Unit Unit) :=
  .begin () .delete k () :: List.replicate 13 (.update ())

/-- Locals that the stack happens to hold when `search` is called. -/
abbrev garbage : Locals := ⟨7, none, none, 0, 0, 0, 0, true⟩

/-- While a search for key 6 is about to step onto its node, the node is freed and comes back with key 7: the
search goes back to `retry`. -/
theorem search_linearizable_found : ∃ hist : List (State Unit Unit Unit),
    Completed (Steps (step .solo .plain)) () 6 () 0 hist ∧ (∃ m ∈ hist, (0 = 1 ↔ m.shared.mem.Member () 6)) ∧
      ∃ m ∈ hist, m.shared.mem.next 0 = some 1 ∧ m.shared.mem.key 1 = 7 ∧ m.shared.mem.gc 1 = 1 := by
  obtain ⟨hist, hc, m, hm, hq⟩ := completed_through (step .solo .plain) (insertRun 5 0 ++ insertSecond 6 1)
    (List.replicate 7 (.read ()) ++ deleteSecond 6 ++ insertSecond 7 1) (List.replicate 16 (.read ())) () 6 ()
    garbage 0 (fun m => decide (m.shared.mem.next 0 = some 1) && decide (m.shared.mem.key 1 = 7) &&
      decide (m.shared.mem.gc 1 = 1)) (by decide) (by simp)
  simp only [Bool.and_eq_true, decide_eq_true_eq] at hq
  exact ⟨hist, hc, search_linearizable .solo hc, m, hm, hq.1.1, hq.1.2, hq.2⟩

/-- So is the search with relink, however often it re-reads `next` of a node that may be recycled. -/
theorem relink_search_linearizable (cfg : Locking υ) {r : ρ} {k : Int} {b : β} {res : Nat}
    {hist : List (State β υ ρ)} (h : Completed (Steps (step cfg .relink)) r k b res hist) :
    ∃ m ∈ hist, (res = 1 ↔ m.shared.mem.Member b k) :=
  completed_answers (fun _ _ _ hs => hs) (by simp) h

/-- The node of key 6 is deleted and inserted again while a search for it stands before it: the search re-reads
`next` twice. -/
theorem relink_search_linearizable_found : ∃ hist : List (State Unit Unit Unit),
    Completed (Steps (step .solo .relink)) () 6 () 1 hist ∧ (∃ m ∈ hist, (1 = 1 ↔ m.shared.mem.Member () 6)) ∧
      ∃ m ∈ hist, m.shared.mem.next 0 = none := by
  obtain ⟨hist, hc, m, hm, hq⟩ := completed_through (step .solo .relink) (insertRun 5 0 ++ insertSecond 6 1)
    (List.replicate 6 (.read ()) ++ deleteSecond 6)
    (List.replicate 2 (.read ()) ++ insertSecond 6 1 ++ List.replicate 8 (.read ())) () 6 ()
    garbage 1 (fun m => decide (m.shared.mem.next 0 = none)) (by decide) (by simp)
  exact ⟨hist, hc, relink_search_linearizable .solo hc, m, hm, of_decide_eq_true hq⟩

end Gecos.ListGecos
