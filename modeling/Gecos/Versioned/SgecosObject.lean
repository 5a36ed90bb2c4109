import Gecos.Table.Object
import Gecos.Versioned.SgecosLinearizable

/-! The table of list_sgecos.c as one object. -/
namespace Gecos.ListSgecos
open Library
variable {β ρ : Type} {s s' : State β ρ}

def Act.label : Act β ρ → Label β Unit ρ
  | .begin op k b => .begin () op k b
  | .update => .update ()
  | .alloc _ => .other
  | .call r k b _ => .call r k b
  | .read r => .read r

theorem label_call {a : Act β ρ} {r : ρ} {k : Int} {b : β} : a.label = .call r k b ↔ ∃ l, a = .call r k b l := by
  cases a <;> simp [Act.label]

theorem label_read {a : Act β ρ} {r : ρ} : a.label = .read r ↔ a = .read r := by
  cases a <;> simp [Act.label]

def Searcher.running : Searcher β → Bool
  | .run .. => true
  | _ => false

def Searcher.answer : Searcher β → Option Nat
  | .returned res => some res
  | _ => none

theorem answer_returned {x : Searcher β} {res : Nat} : x.answer = some res ↔ x = .returned res := by
  cases x <;> simp [Searcher.answer]

def client (β ρ : Type) : Client (State β ρ) (Act β ρ) β Unit ρ where
  label := Act.label
  mem s := s.shared.mem
  stage s u := (s.shared.upd u).stage
  result s u := (s.shared.upd u).result
  reading s r := (s.rd r).running
  answer s r := (s.rd r).answer

def parts (β ρ : Type) : (client β ρ).Parts (Writer β Bump) (Searcher β) where
  upd s := s.shared.upd
  stage := Writer.stage
  result := Writer.result
  rd := State.rd
  running := Searcher.running
  pending := Searcher.answer
  answer := Searcher.answer
  stage_eq _ := rfl
  result_eq _ := rfl
  reading_eq _ := rfl
  answer_eq _ := rfl
  stage_ne := Writer.stage_ne
  pending_eq _ _ h := h

theorem loop_running (k : Int) (b : β) (l : Locals) (p : Ptr) :
    (Searcher.loop k b l p).running = (Searcher.loop k b l p).answer.isNone ∧
      ∀ res, (Searcher.loop k b l p).answer = some res → res ≤ 1 := by
  cases p <;> exact ⟨rfl, by simp [Searcher.answer, Searcher.loop]⟩

theorem running_of_step {m : Mem β} {x x' : Searcher β} (h : x.step m = some x') :
    x.running = true ∧ x'.running = x'.answer.isNone ∧ ∀ res, x'.answer = some res → res ≤ 1 := by
  cases x with
  | idle | returned => cases h
  | run pc k b l =>
    refine ⟨rfl, ?_⟩
    cases pc with
    | lock | curKey | next =>
      cases h
      exact ⟨rfl, by simp [Searcher.answer]⟩
    | head =>
      cases h
      exact loop_running ..
    | lockAgain =>
      simp only [Searcher.step] at h
      split at h
      · cases h
        exact ⟨rfl, by simp [Searcher.answer]⟩
      · split at h <;> cases h
        · refine ⟨rfl, fun res hr => ?_⟩
          cases hr
          split <;> simp
        · exact loop_running ..

theorem begin_stage {w w' : Writer β Bump} {op : Op} {k : Int} {b : β} (h : begin w op k b = some w') :
    w.stage = .idle ∧ w'.stage = .busy (.update op k b) := by
  unfold begin at h
  split at h <;> cases h <;> exact ⟨rfl, rfl⟩

variable [DecidableEq β]

theorem Inv.update_point {mw : Mem β × Writer β Bump} (h : Inv s.shared)
    (hs : ListSgecos.update s.shared.mem (s.shared.upd ()) = some mw) :
    Point s.shared.mem.keys mw.1.keys (s.shared.upd ()).stage mw.2.stage mw.2.result := by
  unfold ListSgecos.update at hs
  split at hs
  case h_1 b res he =>
    rw [he]
    cases hs
    exact .ret res rfl rfl (.inl rfl)
  case h_2 b n he | h_3 b n g he | h_4 b n he =>
    rw [he]
    cases hs
    exact .quiet rfl rfl
  case h_5 => exact h.writers.step_point hs

variable [DecidableEq ρ]

theorem Inv.parts_moves {a : Act β ρ} (h : Inv s.shared) (hs : ListSgecos.step s a = some s') :
    (parts β ρ).Moves s s' a.label := by
  cases a with
  | begin op k b =>
    obtain ⟨w, hw, rfl⟩ := Option.map_eq_some_iff.mp hs
    exact ⟨rfl, rfl, w, rfl, begin_stage hw⟩
  | update =>
    obtain ⟨⟨m, w⟩, hw, rfl⟩ := Option.map_eq_some_iff.mp hs
    exact ⟨rfl, w, rfl, h.update_point hw⟩
  | alloc n =>
    obtain ⟨⟨m, w⟩, hw, rfl⟩ := Option.map_eq_some_iff.mp hs
    obtain ⟨hst, _, hk, hn, hh⟩ := Writer.alloc_stage hw
    exact ⟨Mem.keys_of_same hk hn hh, rfl, (), w, rfl, hst⟩
  | call r k b l =>
    simp only [ListSgecos.step] at hs
    split at hs <;> cases hs
    all_goals
      rename_i hr
      exact ⟨rfl, rfl, .run .lock k b l, rfl, congrArg Searcher.running hr, rfl, rfl⟩
  | read r =>
    obtain ⟨x, hx, rfl⟩ := Option.map_eq_some_iff.mp hs
    obtain ⟨hrun, hrun', hres⟩ := running_of_step hx
    exact ⟨rfl, rfl, x, rfl, hrun, hrun', fun res hr => .inl (hres res hr)⟩

/-- What a reader knows goes on through every step but a new call of its own. -/
theorem known_step {hist : List (State β ρ)} {r : ρ} {k : Int} {b : β} {a : Act β ρ}
    (h : Inv s.shared ∧ s ∈ hist ∧ Knows (hist.map State.shared) s.shared k b (s.rd r))
    (hs : ListSgecos.step s a = some s') (ha : ∀ k b, a.label ≠ .call r k b) :
    Inv s'.shared ∧ s' ∈ hist ++ [s'] ∧ Knows ((hist ++ [s']).map State.shared) s'.shared k b (s'.rd r) := by
  obtain ⟨hinv, hmem, hk⟩ := h
  obtain ⟨hinv', hev⟩ := hinv.step hs
  refine ⟨hinv', by simp, ?_⟩
  rw [List.map_append]
  have hread : Knows (hist.map State.shared) s.shared k b (s'.rd r) := by
    cases a with
    | begin | update | alloc =>
      obtain ⟨mw, _, rfl⟩ := Option.map_eq_some_iff.mp hs
      exact hk
    | call r' k' b' l' =>
      have hne : r ≠ r' := fun he => ha k' b' (by rw [he]; rfl)
      simp only [ListSgecos.step] at hs
      split at hs <;> cases hs <;> simpa [Function.update_of_ne hne] using hk
    | read r' =>
      obtain ⟨x, hx, rfl⟩ := Option.map_eq_some_iff.mp hs
      by_cases hr : r = r'
      · subst hr
        simpa using hk.read hinv.writers (List.mem_map_of_mem hmem) hx
      · simpa [Function.update_of_ne hr] using hk
  exact hread.evolve hev

theorem searched_answers {r : ρ} {k : Int} {b : β} {res : Nat} {hist : List (State β ρ)}
    (h : (client β ρ).Searched (Steps step) (.init β ρ) r k b res hist) :
    ∃ m ∈ hist, (res = 1 ↔ m.shared.mem.Member b k) := by
  have hknow := h.knowledge
    (K := fun hist s => Inv s.shared ∧ s ∈ hist ∧ Knows (hist.map State.shared) s.shared k b (s.rd r)) ?_
    fun hist s a t hk ht ha => known_step hk ht ha
  · obtain ⟨s, a, t, ⟨hinv, hmem, hk⟩, hs, ha, hans⟩ := hknow
    obtain rfl := label_read.mp ha
    obtain ⟨x, hx, rfl⟩ := Option.map_eq_some_iff.mp hs
    obtain rfl : x = .returned res := by simpa using answer_returned.mp hans
    obtain ⟨m, hm, hiff⟩ := hk.read hinv.writers (List.mem_map_of_mem hmem) hx
    obtain ⟨t, ht, rfl⟩ := List.mem_map.mp hm
    exact ⟨t, ht, hiff⟩
  · intro s a t hs ht ha
    obtain ⟨l, rfl⟩ := label_call.mp ha
    refine ⟨((inv_reachable hs).step ht).1, by simp, ?_⟩
    simp only [Steps, ListSgecos.step] at ht
    split at ht <;> cases ht <;> simp [Knows]

/-- The points at which the calls take effect. -/
theorem table_points :
    Points (Steps step) (.init β ρ) (client β ρ).interface Request.apply (fun s => s.shared.mem.keys)
      (client β ρ).stages :=
  Client.Parts.points (P := parts β ρ) (fun _ => rfl) (fun _ => ⟨rfl, rfl⟩)
    (fun _ _ _ hs ha => (inv_reachable hs).parts_moves ha) fun _ _ _ _ _ => searched_answers

/-- The table of list_sgecos.c is linearizable. -/
theorem sgecos_table_linearizable :
    Linearizable (Steps step) (.init β ρ) (client β ρ).interface Request.apply fun s => s.shared.mem.keys :=
  table_points.linearizable

end Gecos.ListSgecos
