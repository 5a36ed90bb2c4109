import Gecos.Table.Object
import Gecos.Versioned.Linearizable

/-! The table of list_gecos.c as one object: `insert`, `delete` and `search` together. -/
namespace Gecos.ListGecos
open Library
variable {β υ ρ : Type} {cfg : Locking υ} {v : Variant} {s s' : State β υ ρ} {u : υ}

def Act.label : Act β υ ρ → Label β υ ρ
  | .begin u op k b => .begin u op k b
  | .update u => .update u
  | .alloc .. => .other
  | .call r k b _ => .call r k b
  | .read r => .read r

theorem label_call {a : Act β υ ρ} {r : ρ} {k : Int} {b : β} : a.label = .call r k b ↔ ∃ l, a = .call r k b l := by
  cases a <;> simp [Act.label]

theorem label_read {a : Act β υ ρ} {r : ρ} : a.label = .read r ↔ a = .read r := by
  cases a <;> simp [Act.label]

def Searcher.running : Searcher β → Bool
  | .run .. => true
  | _ => false

def Searcher.answer : Searcher β → Option Nat
  | .returned res => some res
  | _ => none

theorem answer_returned {x : Searcher β} {res : Nat} : x.answer = some res ↔ x = .returned res := by
  cases x <;> simp [Searcher.answer]

def client (β υ ρ : Type) : Client (State β υ ρ) (Act β υ ρ) β υ ρ where
  label := Act.label
  mem s := s.shared.mem
  stage s u := (s.shared.upd u).stage
  result s u := (s.shared.upd u).result
  reading s r := (s.rd r).running
  answer s r := (s.rd r).answer

def parts (β υ ρ : Type) : (client β υ ρ).Parts (Writer β Bump) (Searcher β) where
  upd s := s.shared.upd
  stage := Writer.stage
  result := Writer.result
  rd := State.rd
  running := Searcher.running
  pending := Searcher.answer
  answer := Searcher.answer
  stage_eq _ := rfl
  result_eq _ := rfl
  reading_eq _ := rfl
  answer_eq _ := rfl
  stage_ne := Writer.stage_ne
  pending_eq _ _ h := h

theorem running_of_step {m : Mem β} {x x' : Searcher β} (h : x.step v m = some x') :
    x.running = true ∧ x'.running = x'.answer.isNone ∧ ∀ res, x'.answer = some res → res ≤ 1 := by
  cases x with
  | idle | returned => cases h
  | run pc k b l =>
    refine ⟨rfl, ?_⟩
    cases pc with
    | curGc | curKey =>
      cases h
      exact ⟨rfl, by simp [Searcher.answer]⟩
    | head | next | nextGc =>
      simp only [Searcher.step] at h
      split at h <;> cases h <;> exact ⟨rfl, by simp [Searcher.answer]⟩
    | headAgain =>
      simp only [Searcher.step] at h
      split at h <;> cases h <;> exact ⟨rfl, by simp [Searcher.answer, Searcher.loop]⟩
    | nextAgain =>
      simp only [Searcher.step] at h
      split at h
      · cases v <;> cases h <;> exact ⟨rfl, by simp [Searcher.answer]⟩
      · cases h
        exact ⟨rfl, by simp [Searcher.answer]⟩
    | curGcAgain =>
      simp only [Searcher.step] at h
      split at h
      · cases v <;> cases h <;> exact ⟨rfl, by simp [Searcher.answer]⟩
      · split at h <;> cases h
        · refine ⟨rfl, fun res hr => ?_⟩
          cases hr
          split <;> simp
        · cases l.next <;> exact ⟨rfl, by simp [Searcher.answer, Searcher.loop]⟩
    | prevGcAgain =>
      simp only [Searcher.step] at h
      split at h
      · cases h
      · split at h <;> cases h <;> exact ⟨rfl, by simp [Searcher.answer, Searcher.loop]⟩

variable [DecidableEq β] [DecidableEq υ]

/-- A step of an updater, `free_node_later` and the lock macros included, is one of the kinds of step. -/
theorem Inv.update_point {mw : Mem β × Writer β Bump} (h : Inv cfg s.shared)
    (hs : ListGecos.update cfg s.shared.mem (s.shared.upd u) = some mw) :
    Point s.shared.mem.keys mw.1.keys (s.shared.upd u).stage mw.2.stage mw.2.result := by
  unfold ListGecos.update at hs
  split at hs
  case h_1 op k b he =>
    rw [he]
    split at hs
    · cases hs
      exact .quiet rfl rfl
    · split at hs <;> cases hs
      exact .quiet rfl rfl
  case h_2 b res he =>
    rw [he]
    split at hs <;> cases hs <;> exact .ret res rfl rfl (.inl rfl)
  case h_3 b n he | h_4 b n g he | h_5 b n he =>
    rw [he]
    cases hs
    exact .quiet rfl rfl
  case h_6 => exact h.writers.step_point hs

variable [DecidableEq ρ]

theorem Inv.parts_moves {a : Act β υ ρ} (h : Inv cfg s.shared) (hs : ListGecos.step cfg v s a = some s') :
    (parts β υ ρ).Moves s s' a.label := by
  cases a with
  | begin u op k b =>
    obtain ⟨w, hw, rfl⟩ := Option.map_eq_some_iff.mp hs
    exact ⟨rfl, rfl, w, rfl, Writer.begin_stage hw⟩
  | update u =>
    obtain ⟨⟨m, w⟩, hw, rfl⟩ := Option.map_eq_some_iff.mp hs
    exact ⟨rfl, w, rfl, h.update_point hw⟩
  | alloc u n =>
    obtain ⟨⟨m, w⟩, hw, rfl⟩ := Option.map_eq_some_iff.mp hs
    obtain ⟨hst, _, hk, hn, hh⟩ := Writer.alloc_stage hw
    exact ⟨Mem.keys_of_same hk hn hh, rfl, u, w, rfl, hst⟩
  | call r k b l =>
    simp only [ListGecos.step] at hs
    split at hs <;> cases hs
    all_goals
      rename_i hr
      exact ⟨rfl, rfl, .run .head k b { l with prevSet := false }, rfl, congrArg Searcher.running hr, rfl, rfl⟩
  | read r =>
    obtain ⟨x, hx, rfl⟩ := Option.map_eq_some_iff.mp hs
    obtain ⟨hrun, hrun', hres⟩ := running_of_step hx
    exact ⟨rfl, rfl, x, rfl, hrun, hrun', fun res hr => .inl (hres res hr)⟩

omit [DecidableEq β] [DecidableEq υ] [DecidableEq ρ] in
theorem completed_of_searched {R : State β υ ρ → Act β υ ρ → State β υ ρ → Prop} {r : ρ} {k : Int} {b : β} {res : Nat}
    {hist : List (State β υ ρ)} (h : (client β υ ρ).Searched R (.init β υ ρ) r k b res hist) :
    Completed R r k b res hist :=
  h.imp (fun _ => label_call.mp) (fun _ hno k b l he => hno k b (label_call.mpr ⟨l, he⟩)) fun _ _ hret =>
    ⟨label_read.mp hret.1, answer_returned.mp hret.2⟩

/-- Every search but that with `GECOS_B` makes the table an object. -/
theorem table_points (cfg : Locking υ) (hv : v ≠ .back) :
    Points (Steps (step cfg v)) (.init β υ ρ) (client β υ ρ).interface Request.apply (fun s => s.shared.mem.keys)
      (client β υ ρ).stages :=
  Client.Parts.points (P := parts β υ ρ) (fun _ => rfl) (fun _ => ⟨rfl, rfl⟩)
    (fun _ _ _ hs ha => (inv_reachable (fun _ _ _ h => h) hs).parts_moves ha) fun _ _ _ _ _ h =>
      completed_answers (fun _ _ _ h => h) (fun hb => (hv hb).elim) (completed_of_searched h)

/-- The table of list_gecos.c is linearizable, with the default search and with relink: any number of
updaters and readers cannot tell it from a set whose `insert`, `delete` and `search` are atomic. -/
theorem table_linearizable (cfg : Locking υ) :
    Linearizable (Steps (step cfg .plain)) (.init β υ ρ) (client β υ ρ).interface Request.apply
      (fun s => s.shared.mem.keys) ∧
    Linearizable (Steps (step cfg .relink)) (.init β υ ρ) (client β υ ρ).interface Request.apply
      fun s => s.shared.mem.keys :=
  ⟨(table_points cfg (by decide)).linearizable, (table_points cfg (by decide)).linearizable⟩

end Gecos.ListGecos
