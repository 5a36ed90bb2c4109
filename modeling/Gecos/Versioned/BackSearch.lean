import Gecos.Versioned.Linearizable
import Mathlib.Data.Fintype.Basic

/-! The search of list_gecos.c with step-back: it reads `prev` before it has assigned it only if an updater
increments the counter of the first node that the search stands on. -/
namespace Gecos.ListGecos
open Library
variable {β υ ρ : Type} {cfg : Locking υ} {m m' : Mem β} {x x' : Searcher β} {n : Addr}

/-- `cur_gc` is loaded, and is still to be compared with the counter. -/
def Pc.compares : Pc → Bool
  | .headAgain | .curKey | .next | .nextGc | .nextAgain | .curGcAgain => true
  | .head | .curGc | .prevGcAgain => false

/-- The search stands on `n` between its load of `cur_gc` and its re-check, and has not assigned `prev` in this call. -/
def Searcher.Exposed (n : Addr) : Searcher β → Prop
  | .run pc _ _ l => pc.compares ∧ l.cur = n ∧ l.prevSet = false
  | .idle | .returned _ => False

instance (n : Addr) : (x : Searcher β) → Decidable (x.Exposed n)
  | .run pc _ _ l => inferInstanceAs (Decidable (pc.compares ∧ l.cur = n ∧ l.prevSet = false))
  | .idle | .returned _ => inferInstanceAs (Decidable False)

/-- The node whose counter an updater increments by its next step, `n->gc++` of `free_node_later`. -/
def increments : Writer β Bump → Option Addr
  | .freeNodeLater _ n (.store _) => some n
  | _ => none

theorem increments_store {w : Writer β Bump} (h : increments w = some n) : ∃ b g, w = .freeNodeLater b n (.store g) := by
  unfold increments at h
  split at h
  · cases h
    exact ⟨_, _, rfl⟩
  · cases h

/-- The condition on the state before a step: no counter is incremented under such a search. -/
def Considerate (s : State β υ ρ) : Act β υ ρ → Prop
  | .update u => ∀ n ∈ increments (s.shared.upd u), ∀ r, ¬ (s.rd r).Exposed n
  | .begin .. | .alloc .. | .call .. | .read _ => True

instance [Fintype ρ] (s : State β υ ρ) : (a : Act β υ ρ) → Decidable (Considerate s a)
  | .update u => inferInstanceAs (Decidable (∀ n ∈ increments (s.shared.upd u), ∀ r, ¬ (s.rd r).Exposed n))
  | .begin .. | .alloc .. | .call .. | .read _ => inferInstanceAs (Decidable True)

/-- As long as its node is left alone, a search that has not assigned `prev` will find the counter unchanged. -/
def Searcher.Settled (m : Mem β) : Searcher β → Prop
  | .run pc _ _ l => l.prevSet = false →
    pc ≠ .prevGcAgain ∧ (pc.compares → l.curGc = m.gc l.cur) ∧ (pc = .nextGc → l.next ≠ none)
  | .idle | .returned _ => True

theorem Searcher.Settled.moved (h : x.Settled m) : ListGecos.moved m x := by
  cases x with
  | idle | returned => rfl
  | run pc k b l =>
    cases pc with
    | curGcAgain =>
      cases hp : l.prevSet with
      | true => simp [ListGecos.moved, hp]
      | false => simp [ListGecos.moved, (h hp).2.1 rfl]
    | _ => rfl

theorem Searcher.Settled.frame (h : x.Settled m) (hg : ∀ n, x.Exposed n → m'.gc n = m.gc n) : x.Settled m' := by
  cases x with
  | idle | returned => trivial
  | run pc k b l =>
    intro hp
    obtain ⟨hpc, hgc, hn⟩ := h hp
    exact ⟨hpc, fun hc => (hgc hc).trans (hg l.cur ⟨hc, rfl, hp⟩).symm, hn⟩

private theorem settled_loop {k : Int} {b : β} {l : Locals} {p : Ptr} (h : l.prevSet = true) :
    (Searcher.loop k b l p).Settled m := by
  cases p with
  | none => trivial
  | some n => simp [Searcher.loop, Searcher.Settled, h]

theorem Searcher.Settled.read (h : x.Settled m) (hs : x.step .back m = some x') : x'.Settled m := by
  cases x with
  | idle | returned => simp [Searcher.step] at hs
  | run pc k b l =>
    cases pc with
    | head =>
      simp only [Searcher.step] at hs
      split at hs <;> cases hs
      · trivial
      · exact fun _ => ⟨by simp, by simp [Pc.compares], by simp⟩
    | curGc =>
      cases hs
      exact fun _ => ⟨by simp, fun _ => rfl, by simp⟩
    | headAgain =>
      simp only [Searcher.step] at hs
      split at hs <;> cases hs
      · exact fun _ => ⟨by simp, by simp [Pc.compares], by simp⟩
      · exact fun hp => ⟨by simp, fun _ => (h hp).2.1 rfl, by simp⟩
    | curKey =>
      cases hs
      exact fun hp => ⟨by simp, fun _ => (h hp).2.1 rfl, by simp⟩
    | next | nextGc =>
      simp only [Searcher.step] at hs
      split at hs <;> cases hs <;> exact fun hp => ⟨by simp, fun _ => (h hp).2.1 rfl, by simp⟩
    | nextAgain =>
      simp only [Searcher.step] at hs
      split at hs <;> cases hs <;> exact fun hp => ⟨by simp, fun _ => (h hp).2.1 rfl, by simp⟩
    | curGcAgain =>
      simp only [Searcher.step] at hs
      split at hs
      · rename_i hg
        cases hs
        exact fun hp => (hg ((h hp).2.1 rfl)).elim
      · split at hs <;> cases hs
        · trivial
        · exact settled_loop rfl
    | prevGcAgain =>
      have hp : l.prevSet = true := by
        cases hp : l.prevSet with
        | true => rfl
        | false => exact ((h hp).1 rfl).elim
      simp only [Searcher.step] at hs
      split at hs
      · contradiction
      · split at hs <;> cases hs
        · exact settled_loop hp
        · exact fun hp' => by simp [hp] at hp'

/-- The search is about to compare `prev_gc` with `prev->gc`, and `prev` is assigned or not. -/
def stepsBack (assigned : Bool) : Searcher β → Bool
  | .run .prevGcAgain _ _ l => l.prevSet == assigned
  | _ => false

section alone
variable {k : Int} {b : β} {l : Locals}

/-- Left alone, the search comes to read `prev` with `prev` not assigned. -/
def Searcher.ReadsUnset (m : Mem β) (x : Searcher β) : Prop :=
  ∃ y, Relation.ReflTransGen (fun x x' => x.step .back m = some x') x y ∧ stepsBack false y

theorem Searcher.ReadsUnset.head (hs : x.step .back m = some x') (h : x'.ReadsUnset m) : x.ReadsUnset m := by
  obtain ⟨y, hy, hb⟩ := h
  exact ⟨y, .head hs hy, hb⟩

private theorem readsUnset_curGcAgain (hp : l.prevSet = false) (hg : l.curGc ≠ m.gc l.cur) :
    (Searcher.run .curGcAgain k b l).ReadsUnset m := by
  have hback : (Searcher.run .prevGcAgain k b l).ReadsUnset m := ⟨_, .refl, by simp [stepsBack, hp]⟩
  exact .head (by simp [Searcher.step, hg]) hback

private theorem readsUnset_nextAgain (hp : l.prevSet = false) (hg : l.curGc ≠ m.gc l.cur) (hn : l.next = m.next l.cur) :
    (Searcher.run .nextAgain k b l).ReadsUnset m := by
  have hagain := readsUnset_curGcAgain (k := k) (b := b) hp hg
  exact .head (by simp [Searcher.step, hn]) hagain

private theorem readsUnset_next (hp : l.prevSet = false) (hg : l.curGc ≠ m.gc l.cur) :
    (Searcher.run .next k b l).ReadsUnset m := by
  cases hn : m.next l.cur with
  | none =>
    have htest := readsUnset_nextAgain (k := k) (b := b) (l := { l with next := none }) hp hg hn.symm
    exact .head (by simp [Searcher.step, hn]) htest
  | some q =>
    have htest := readsUnset_nextAgain (k := k) (b := b) (l := { l with next := some q, nextGc := m.gc q }) hp hg hn.symm
    have hcount : (Searcher.run .nextGc k b { l with next := some q }).ReadsUnset m := .head (by simp [Searcher.step]) htest
    exact .head (by simp [Searcher.step, hn]) hcount

/-- A search whose counter has changed reads `prev` unassigned, unless it is to load `*head` again. -/
theorem Searcher.readsUnset {pc : Pc} (hc : pc.compares) (hpc : pc ≠ .headAgain) (hp : l.prevSet = false)
    (hg : l.curGc ≠ m.gc l.cur) (hn : pc = .nextGc → l.next ≠ none) : (Searcher.run pc k b l).ReadsUnset m := by
  have htest (l : Locals) (hp : l.prevSet = false) (hg : l.curGc ≠ m.gc l.cur) :
      (Searcher.run .nextAgain k b l).ReadsUnset m := by
    by_cases hn : l.next = m.next l.cur
    · exact readsUnset_nextAgain hp hg hn
    · have hnext := readsUnset_next (k := k) (b := b) hp hg
      exact .head (by simp [Searcher.step, hn]) hnext
  cases pc with
  | head | curGc | prevGcAgain => cases hc
  | headAgain => exact (hpc rfl).elim
  | curKey => exact .head rfl (readsUnset_next hp hg)
  | next => exact readsUnset_next hp hg
  | nextGc =>
    obtain ⟨q, hq⟩ := Option.ne_none_iff_exists'.mp (hn rfl)
    exact .head (by simp [Searcher.step, hq]) (htest { l with nextGc := m.gc q } hp hg)
  | nextAgain => exact htest l hp hg
  | curGcAgain => exact readsUnset_curGcAgain hp hg

end alone

variable [DecidableEq β]

/-- An updater changes no other counter. -/
theorem update_gc {w w' : Writer β Bump} (hs : update cfg m w = some (m', w')) :
    m'.gc = m.gc ∨ ∃ n, increments w = some n ∧ ∀ x, x ≠ n → m'.gc x = m.gc x := by
  unfold update at hs
  split at hs
  case h_1 op k b =>
    split at hs
    · cases hs
      exact .inl rfl
    · split at hs <;> cases hs
      exact .inl rfl
  case h_2 => split at hs <;> cases hs <;> exact .inl rfl
  case h_3 | h_5 => cases hs; exact .inl rfl
  case h_4 b n g =>
    cases hs
    exact .inr ⟨n, rfl, fun x hx => Function.update_of_ne hx _ _⟩
  case h_6 =>
    unfold Writer.step at hs
    split at hs <;> cases hs <;> simp

variable [DecidableEq υ] [DecidableEq ρ]

/-- The steps of the `GECOS_B` build that meet the condition. -/
def ConsiderateStep (cfg : Locking υ) (s : State β υ ρ) (a : Act β υ ρ) (t : State β υ ρ) : Prop :=
  step cfg .back s a = some t ∧ Considerate s a

theorem settled_step {s t : State β υ ρ} {a : Act β υ ρ} (h : ∀ r, (s.rd r).Settled s.shared.mem)
    (hs : ConsiderateStep cfg s a t) (r : ρ) : (t.rd r).Settled t.shared.mem := by
  obtain ⟨hs, hc⟩ := hs
  cases a with
  | begin u op k b =>
    obtain ⟨w, _, rfl⟩ := Option.map_eq_some_iff.mp hs
    exact h r
  | update u =>
    obtain ⟨⟨m', w'⟩, hw, rfl⟩ := Option.map_eq_some_iff.mp hs
    refine (h r).frame fun n hn => ?_
    rcases update_gc hw with hg | ⟨x, hx, hg⟩
    · exact congrFun hg n
    · exact hg n fun he => hc x hx r (he ▸ hn)
  | alloc u n =>
    obtain ⟨⟨m', w'⟩, hw, rfl⟩ := Option.map_eq_some_iff.mp hs
    unfold Writer.alloc at hw
    split at hw
    · split at hw <;> cases hw
      exact (h r).frame fun _ _ => rfl
    · contradiction
  | call r' k b l =>
    simp only [ListGecos.step] at hs
    by_cases hr : r = r'
    · subst hr
      split at hs <;> cases hs <;> simp [Searcher.Settled, Pc.compares]
    · split at hs <;> cases hs <;> simpa [Function.update_of_ne hr] using h r
  | read r' =>
    obtain ⟨x, hx, rfl⟩ := Option.map_eq_some_iff.mp hs
    by_cases hr : r = r'
    · subst hr
      simpa using (h r).read hx
    · simpa [Function.update_of_ne hr] using h r

theorem settled_reachable {s : State β υ ρ} (h : Reachable (ConsiderateStep cfg) (.init β υ ρ) s) (r : ρ) :
    (s.rd r).Settled s.shared.mem :=
  h.invariant (P := fun s : State β υ ρ => ∀ r, (s.rd r).Settled s.shared.mem) (fun _ => trivial)
    (fun _ _ _ hi hs => settled_step hi hs) r

/-- In runs of such steps the search with step-back reads `prev` only once it is assigned, and is linearizable. -/
theorem back_search_safe (cfg : Locking υ) :
    (∀ s : State β υ ρ, Reachable (ConsiderateStep cfg) (.init β υ ρ) s →
      ∀ r k b l, s.rd r = .run .prevGcAgain k b l → l.prevSet = true) ∧
    ∀ (r : ρ) (k : Int) (b : β) (res : Nat) (hist : List (State β υ ρ)),
      Completed (ConsiderateStep cfg) r k b res hist → ∃ m ∈ hist, (res = 1 ↔ m.shared.mem.Member b k) := by
  refine ⟨fun s hs r k b l hr => ?_, fun r k b res hist h => ?_⟩
  · have hset := settled_reachable hs r
    rw [hr] at hset
    by_contra hp
    exact (hset (by simpa using hp)).1 rfl
  · exact completed_answers (fun _ _ _ hs => hs.1) (fun _ s r _ hs _ => (settled_reachable hs r).moved) h

theorem Searcher.ReadsUnset.reachable {s : State β υ ρ} {r : ρ} (h : (s.rd r).ReadsUnset s.shared.mem) :
    ∃ t, Reachable (Steps (ListGecos.step cfg .back)) s t ∧ stepsBack false (t.rd r) := by
  obtain ⟨y, hy, hb⟩ := h
  suffices hrun : ∃ t, Reachable (Steps (ListGecos.step cfg .back)) s t ∧ t.shared = s.shared ∧ t.rd r = y by
    obtain ⟨t, ht, _, rfl⟩ := hrun
    exact ⟨t, ht, hb⟩
  clear hb
  induction hy with
  | refl => exact ⟨s, ⟨_, .nil⟩, rfl, rfl⟩
  | @tail x x' _ hx ih =>
    obtain ⟨t, ht, hm, rfl⟩ := ih
    have hread : ListGecos.step cfg .back t (.read r) = some { t with rd := Function.update t.rd r x' } := by
      simp [ListGecos.step, hm, hx]
    exact ⟨_, ht.trans ⟨_, .snoc .nil hread⟩, hm, by simp⟩

/-- The condition forbids no more than it must: the first other increment makes a search that has loaded
`*head` again read `prev` unassigned, if nobody else moves. -/
theorem inconsiderate_reads_unset {s t : State β υ ρ} {u : υ} {r : ρ} (h : Reachable (ConsiderateStep cfg) (.init β υ ρ) s)
    (hs : step cfg .back s (.update u) = some t) (hn : increments (s.shared.upd u) = some n) (hr : (s.rd r).Exposed n)
    (hpc : ∀ k b l, s.rd r ≠ .run .headAgain k b l) :
    ∃ t', Reachable (Steps (step cfg .back)) t t' ∧ stepsBack false (t'.rd r) := by
  obtain ⟨b, g, hu⟩ := increments_store hn
  have hg : s.shared.mem.gc n = g := (inv_reachable (fun _ _ _ h => h.1) h).counter u b n g hu
  have hset := settled_reachable h r
  obtain ⟨⟨m', w'⟩, hw, rfl⟩ := Option.map_eq_some_iff.mp hs
  rw [hu] at hw
  cases hw
  refine Searcher.ReadsUnset.reachable ?_
  cases hx : s.rd r with
  | idle | returned =>
    rw [hx] at hr
    exact hr.elim
  | run pc k b' l =>
    rw [hx] at hr hset
    obtain ⟨hc, rfl, hp⟩ := hr
    obtain ⟨_, hgc, hnext⟩ := hset hp
    have hne : l.curGc ≠ g + 1 := by
      rw [hgc hc, hg]
      exact (Nat.lt_succ_self g).ne
    have hrd := Searcher.readsUnset (k := k) (b := b') (m := { s.shared.mem with gc := Function.update s.shared.mem.gc l.cur (g + 1) })
      hc (fun he => hpc k b' l (by rw [hx, he])) hp (by simpa using hne) hnext
    simpa [Shared.put, hx] using hrd

/-- The node of key 6 is deleted under a search for it, which steps back to the node of key 5. -/
theorem back_search_safe_found : ∃ hist : List (State Unit Unit Unit),
    Completed (ConsiderateStep .solo) () 6 () 0 hist ∧ (∃ m ∈ hist, (0 = 1 ↔ m.shared.mem.Member () 6)) ∧
      ∃ m ∈ hist, stepsBack true (m.rd ()) := by
  obtain ⟨hist, hc, hq⟩ := completed_through (checked (step .solo .back) fun s a => decide (Considerate s a))
    (insertRun 5 0 ++ insertSecond 6 1)
    (List.replicate 10 (.read ()) ++ deleteSecond 6 ++ List.replicate 2 (.read ())) (List.replicate 4 (.read ()))
    () 6 () garbage 0 (fun m => stepsBack true (m.rd ())) (by decide) (by simp)
  have hc : Completed (ConsiderateStep .solo) () 6 () 0 hist :=
    hc.mono fun _ _ _ hs => (checked_iff.mp hs).imp_right of_decide_eq_true
  exact ⟨hist, hc, (back_search_safe .solo).2 () 6 () 0 hist hc, hq⟩

/-- The only node of a bucket is freed while a search that just started stands on it: the search
goes on to read `prev`, which this call has not assigned. -/
theorem back_search_reads_unset :
    ∃ s : State Unit Unit Unit, Reachable (Steps (step .solo .back)) (.init Unit Unit Unit) s ∧
      ∃ k b l, s.rd () = .run .prevGcAgain k b l ∧ l.prevSet = false := by
  have h : (exec (step .solo .back) (.init Unit Unit Unit) (insertRun 5 0 ++
      Act.call () 5 () garbage :: List.replicate 5 (Act.read ()) ++
      Act.begin () .delete 5 () :: List.replicate 9 (Act.update ()) ++ List.replicate 2 (Act.read ()))).any
      fun s => stepsBack false (s.rd ()) := by decide
  obtain ⟨s, hs, hp⟩ := (Option.any_eq_true _ _).mp h
  refine ⟨s, ⟨_, exec_run hs⟩, ?_⟩
  unfold stepsBack at hp
  split at hp
  · rename_i k b l hl
    exact ⟨k, b, l, hl, by simpa using hp⟩
  · contradiction

end Gecos.ListGecos
