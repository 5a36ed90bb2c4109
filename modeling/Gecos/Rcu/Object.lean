import Gecos.Rcu.Linearizable
import Gecos.Table.Object

/-! The table of list_rcu.c as one object. -/
namespace Gecos.ListRcu
open Library
variable {β ρ : Type} {s s' : State β ρ}

def Act.label : Act β ρ → Label β Unit ρ
  | .begin op k b => .begin () op k b
  | .update => .update ()
  | .alloc _ | .callback _ => .other
  | .call r k b => .call r k b
  | .read r => .read r

theorem label_call {a : Act β ρ} {r : ρ} {k : Int} {b : β} : a.label = .call r k b ↔ a = .call r k b := by
  cases a <;> simp [Act.label]

theorem label_read {a : Act β ρ} {r : ρ} : a.label = .read r ↔ a = .read r := by
  cases a <;> simp [Act.label]

def Searcher.running : Searcher β → Bool
  | .idle | .returned _ => false
  | _ => true

/-- The result that a search returned, or is to return once its section is closed. -/
def Searcher.result : Searcher β → Option Nat
  | .unlock res | .returned res => some res
  | _ => none

def Searcher.answer : Searcher β → Option Nat
  | .returned res => some res
  | _ => none

theorem answer_returned {x : Searcher β} {res : Nat} : x.answer = some res ↔ x = .returned res := by
  cases x <;> simp [Searcher.answer]

def client (β ρ : Type) : Client (State β ρ) (Act β ρ) β Unit ρ where
  label := Act.label
  mem := State.mem
  stage s u := (s.upd u).stage
  result s u := (s.upd u).result
  reading s r := (s.rd r).running
  answer s r := (s.rd r).answer

def parts (β ρ : Type) : (client β ρ).Parts (Writer β Unit) (Searcher β) where
  upd := State.upd
  stage := Writer.stage
  result := Writer.result
  rd := State.rd
  running := Searcher.running
  pending := Searcher.result
  answer := Searcher.answer
  stage_eq _ := rfl
  result_eq _ := rfl
  reading_eq _ := rfl
  answer_eq _ := rfl
  stage_ne := Writer.stage_ne
  pending_eq x res h := by
    cases x with
    | returned => exact h
    | idle | lock | head | key | next | unlock => cases h

/-- A result is 0 or 1, and an earlier one does not change. -/
theorem running_of_step {m : Mem β} {x x' : Searcher β} (h : x.step m = some x') :
    x.running = true ∧ x'.running = x'.answer.isNone ∧
      ∀ res, x'.result = some res → res ≤ 1 ∨ x.result = some res := by
  cases x with
  | idle | returned => cases h
  | lock k b =>
    cases h
    exact ⟨rfl, rfl, by simp [Searcher.result]⟩
  | head k b =>
    cases h
    cases m.heads b <;> exact ⟨rfl, rfl, by simp [Searcher.loop, Searcher.result]⟩
  | key k cur =>
    cases h
    split
    · refine ⟨rfl, rfl, fun res hr => .inl ?_⟩
      cases hr
      split <;> simp
    · exact ⟨rfl, rfl, by simp [Searcher.result]⟩
  | next k cur =>
    cases h
    cases m.next cur <;> exact ⟨rfl, rfl, by simp [Searcher.loop, Searcher.result]⟩
  | unlock res =>
    cases h
    exact ⟨rfl, rfl, fun res' hr => .inr hr⟩

variable [DecidableEq β]

theorem Inv.update_point (h : Inv s) (hs : s.update = some s') :
    Point s.mem.keys s'.mem.keys (s.upd ()).stage (s'.upd ()).stage (s'.upd ()).result ∧ s'.rd = s.rd := by
  refine ⟨?_, update_rd hs⟩
  unfold State.update at hs
  split at hs
  case h_1 op k b he =>
    rw [he]
    cases hs
    exact .quiet rfl rfl
  case h_2 b res he =>
    rw [he]
    cases hs
    exact .ret res rfl rfl (.inl rfl)
  case h_3 b n he =>
    rw [he]
    cases hs
    exact .quiet rfl rfl
  case h_4 =>
    obtain ⟨mw, hw, rfl⟩ := Option.map_eq_some_iff.mp hs
    exact h.writers.step_point hw

variable [DecidableEq ρ] [Fintype ρ]

theorem Inv.parts_moves {a : Act β ρ} (h : Inv s) (hs : ListRcu.step s a = some s') :
    (parts β ρ).Moves s s' a.label := by
  cases a with
  | begin op k b =>
    obtain ⟨w, hw, rfl⟩ := Option.map_eq_some_iff.mp hs
    exact ⟨rfl, rfl, w, rfl, Writer.begin_stage hw⟩
  | update =>
    obtain ⟨hp, hrd⟩ := h.update_point hs
    exact ⟨hrd, s'.upd (), funext fun _ => rfl, hp⟩
  | alloc n =>
    obtain ⟨⟨m, w⟩, hw, rfl⟩ := Option.map_eq_some_iff.mp hs
    obtain ⟨hst, _, hk, hn, hh⟩ := Writer.alloc_stage hw
    exact ⟨Mem.keys_of_same hk hn hh, rfl, (), w, rfl, hst⟩
  | callback n =>
    change s.callback n = some s' at hs
    unfold State.callback at hs
    split at hs <;> cases hs
    exact ⟨rfl, rfl, (), s.upd (), (Function.update_eq_self ..).symm, rfl⟩
  | call r k b =>
    simp only [ListRcu.step] at hs
    split at hs <;> cases hs
    all_goals
      rename_i hr
      exact ⟨rfl, rfl, .lock k b, rfl, congrArg Searcher.running hr, rfl, rfl⟩
  | read r =>
    obtain ⟨x, hx, rfl⟩ := Option.map_eq_some_iff.mp hs
    obtain ⟨hrun, hrun', hres⟩ := running_of_step hx
    exact ⟨rfl, rfl, x, rfl, hrun, hrun', hres⟩

theorem searched_answers {r : ρ} {k : Int} {b : β} {res : Nat} {hist : List (State β ρ)}
    (h : (client β ρ).Searched (Steps step) (.init β ρ) r k b res hist) :
    ∃ m ∈ hist, (res = 1 ↔ m.mem.Member b k) :=
  search_answers (h.imp (fun _ => label_call.mp) (fun _ hno k b he => hno k b (label_call.mpr he)) fun _ _ hret =>
    ⟨label_read.mp hret.1, answer_returned.mp hret.2⟩)

/-- The points at which the calls take effect. -/
theorem table_points (β ρ : Type) [DecidableEq β] [DecidableEq ρ] [Fintype ρ] :
    Points (Steps step) (.init β ρ) (client β ρ).interface Request.apply (fun s => s.mem.keys)
      (client β ρ).stages :=
  Client.Parts.points (P := parts β ρ) (fun _ => rfl) (fun _ => ⟨rfl, rfl⟩)
    (fun _ _ _ hs ha => (inv_reachable hs).parts_moves ha) fun _ _ _ _ _ => searched_answers

/-- The table of list_rcu.c is linearizable, whenever liburcu runs its callbacks. -/
theorem rcu_table_linearizable (β ρ : Type) [DecidableEq β] [DecidableEq ρ] [Fintype ρ] :
    Linearizable (Steps step) (.init β ρ) (client β ρ).interface Request.apply fun s => s.mem.keys :=
  (table_points β ρ).linearizable

end Gecos.ListRcu
