import Gecos.Refcount.Linearizable
import Gecos.Table.Object

/-! The table of list_rc.c as one object. -/
namespace Gecos.ListRc
open Library
variable {β ρ : Type} {s s' : State β ρ} {l : Ledger (Option ρ) Addr}

def Act.label : Act β ρ → Label β Unit ρ
  | .begin op k b => .begin () op k b
  | .update => .update ()
  | .alloc _ => .other
  | .call r k b => .call r k b
  | .read r => .read r

theorem label_call {a : Act β ρ} {r : ρ} {k : Int} {b : β} : a.label = .call r k b ↔ a = .call r k b := by
  cases a <;> simp [Act.label]

theorem label_read {a : Act β ρ} {r : ρ} : a.label = .read r ↔ a = .read r := by
  cases a <;> simp [Act.label]

def Searcher.running : Searcher β → Bool
  | .idle | .returned _ => false
  | _ => true

/-- The result that a search returned, or is to return once it has released its node. -/
def Searcher.result : Searcher β → Option Nat
  | .release res _ | .returned res => some res
  | _ => none

def Searcher.answer : Searcher β → Option Nat
  | .returned res => some res
  | _ => none

theorem answer_returned {x : Searcher β} {res : Nat} : x.answer = some res ↔ x = .returned res := by
  cases x <;> simp [Searcher.answer]

def client (β ρ : Type) : Client (State β ρ) (Act β ρ) β Unit ρ where
  label := Act.label
  mem := State.mem
  stage s u := (s.upd u).stage
  result s u := (s.upd u).result
  reading s r := (s.rd r).running
  answer s r := (s.rd r).answer

def parts (β ρ : Type) : (client β ρ).Parts (Writer β Later) (Searcher β) where
  upd := State.upd
  stage := Writer.stage
  result := Writer.result
  rd := State.rd
  running := Searcher.running
  pending := Searcher.result
  answer := Searcher.answer
  stage_eq _ := rfl
  result_eq _ := rfl
  reading_eq _ := rfl
  answer_eq _ := rfl
  stage_ne := Writer.stage_ne
  pending_eq x res h := by
    cases x with
    | returned => exact h
    | _ => cases h

theorem got_running (k : Int) (lk : Link β) (q : Ptr) :
    (Searcher.got k lk q).running = (Searcher.got k lk q).answer.isNone ∧
      ∀ res, (Searcher.got k lk q).result = some res → res ≤ 1 := by
  cases lk <;> cases q <;> exact ⟨rfl, by simp [Searcher.got, Searcher.loop, Searcher.result]⟩

/-- A result is 0 or 1, and an earlier one does not change. -/
theorem running_of_step {m m' : Mem β} {x x' : Searcher β} (h : x.step m = some (m', x')) :
    x.running = true ∧ x'.running = x'.answer.isNone ∧
      ∀ res, x'.result = some res → res ≤ 1 ∨ x.result = some res := by
  cases x with
  | idle | returned => cases h
  | load k lk =>
    cases h
    refine ⟨rfl, ?_⟩
    cases m.load lk with
    | none => exact (got_running k lk none).imp_right fun hr res h => .inl (hr res h)
    | some q => exact ⟨rfl, by simp [Searcher.result]⟩
  | loadRc k lk q | key k cur =>
    cases h
    refine ⟨rfl, ?_⟩
    split <;> exact ⟨rfl, by simp [Searcher.result]⟩
  | cas k lk q old =>
    simp only [Searcher.step] at h
    split at h <;> cases h <;> exact ⟨rfl, rfl, by simp [Searcher.result]⟩
  | recheck k lk q =>
    cases h
    refine ⟨rfl, ?_⟩
    split
    · exact (got_running k lk (some q)).imp_right fun hr res h => .inl (hr res h)
    · exact ⟨rfl, by simp [Searcher.result]⟩
  | keyAgain k cur =>
    cases h
    refine ⟨rfl, rfl, fun res hr => .inl ?_⟩
    cases hr
    split <;> simp
  | undo k lk d =>
    obtain ⟨⟨m₁, d'⟩, _, he⟩ := Option.map_eq_some_iff.mp h
    cases he
    cases d' <;> exact ⟨rfl, rfl, by simp [Searcher.result]⟩
  | pass k nx d =>
    obtain ⟨⟨m₁, d'⟩, _, he⟩ := Option.map_eq_some_iff.mp h
    cases he
    cases d' <;> cases nx <;> exact ⟨rfl, rfl, by simp [Searcher.loop, Searcher.result]⟩
  | release res d =>
    obtain ⟨⟨m₁, d'⟩, _, he⟩ := Option.map_eq_some_iff.mp h
    cases he
    cases d' <;> exact ⟨rfl, rfl, fun res' hr => .inr hr⟩

variable [DecidableEq β] [DecidableEq ρ] [Fintype ρ]

omit [DecidableEq ρ] in
/-- A step of the updater, `free_node_later` with its decrements included, is one of the kinds of step. -/
theorem Inv.update_point (hi : Inv s l) (hs : s.update = some s') :
    Point s.mem.keys s'.mem.keys (s.upd ()).stage (s'.upd ()).stage (s'.upd ()).result := by
  unfold State.update at hs
  split at hs
  case h_1 op k b hu | h_3 k b prev cur new hu =>
    rw [hu]
    cases hs
    exact .quiet rfl rfl
  case h_2 b res hu =>
    rw [hu]
    cases hs
    exact .ret res rfl rfl (.inl rfl)
  case h_4 b n r hu =>
    obtain ⟨⟨m, r'⟩, hr, rfl⟩ := Option.map_eq_some_iff.mp hs
    have hm : m.key = s.mem.key ∧ m.next = s.mem.next ∧ m.heads = s.mem.heads := by
      cases r with
      | loadNext | inc =>
        cases hr
        exact ⟨rfl, rfl, rfl⟩
      | dec d =>
        obtain ⟨⟨m₁, d'⟩, hd, he⟩ := Option.map_eq_some_iff.mp hr
        cases he
        obtain ⟨hk, hn, hh, _⟩ := dec_mem hd
        exact ⟨hk, hn, hh⟩
    rw [hu]
    cases r' <;> exact .quiet (Mem.keys_of_same hm.1 hm.2.1 hm.2.2) rfl
  case h_5 k b prev cur nx hu =>
    obtain ⟨mw, hw, rfl⟩ := Option.map_eq_some_iff.mp hs
    exact hi.writers.step_point (by rw [hu]; exact hw)
  case h_6 =>
    obtain ⟨mw, hw, rfl⟩ := Option.map_eq_some_iff.mp hs
    exact hi.writers.step_point hw

theorem Inv.parts_moves {a : Act β ρ} (hi : Inv s l) (hs : ListRc.step s a = some s') :
    (parts β ρ).Moves s s' a.label := by
  cases a with
  | begin op k b =>
    obtain ⟨w, hw, rfl⟩ := Option.map_eq_some_iff.mp hs
    exact ⟨rfl, rfl, w, rfl, Writer.begin_stage hw⟩
  | update => exact ⟨update_rd hs, s'.upd (), funext fun _ => rfl, hi.update_point hs⟩
  | alloc n =>
    change s.alloc n = some s' at hs
    unfold State.alloc at hs
    split at hs
    case h_2 => cases hs
    rename_i k b prev cur hu
    split at hs <;> cases hs
    exact ⟨rfl, rfl, (), _, rfl, (congrArg Writer.stage hu).symm⟩
  | call r k b =>
    simp only [ListRc.step] at hs
    split at hs <;> cases hs
    all_goals
      rename_i hr
      exact ⟨rfl, rfl, .load k (.head b), rfl, congrArg Searcher.running hr, rfl, rfl⟩
  | read r =>
    obtain ⟨⟨m, x⟩, hx, rfl⟩ := Option.map_eq_some_iff.mp hs
    obtain ⟨hrun, hrun', hres⟩ := running_of_step hx
    obtain ⟨hk, hn, hh⟩ := searcher_mem hx
    exact ⟨Mem.keys_of_same hk hn hh, rfl, x, rfl, hrun, hrun', hres⟩

theorem searched_answers {r : ρ} {k : Int} {b : β} {res : Nat} {hist : List (State β ρ)}
    (h : (client β ρ).Searched (Steps ListRc.step) (.init β ρ) r k b res hist) :
    ∃ m ∈ hist, (res = 1 ↔ m.mem.Member b k) := by
  have hknow := h.knowledge (K := Known r k b)
    (fun s a t hs ht ha => .start (inv_reachable hs) (label_call.mp ha ▸ ht))
    fun hist s a t hk ht ha => hk.step ht fun k b he => ha k b (label_call.mpr he)
  obtain ⟨s, a, t, hk, hs, ha, hans⟩ := hknow
  exact hk.answer (label_read.mp ha ▸ hs) (answer_returned.mp hans)

/-- The points at which the calls take effect. -/
theorem table_points (β ρ : Type) [DecidableEq β] [DecidableEq ρ] [Fintype ρ] :
    Points (Steps ListRc.step) (.init β ρ) (client β ρ).interface Request.apply (fun s => s.mem.keys)
      (client β ρ).stages := by
  refine Client.Parts.points (P := parts β ρ) (fun _ => rfl) (fun _ => ⟨rfl, rfl⟩) (fun s a t hs ha => ?_)
    fun _ _ _ _ _ => searched_answers
  obtain ⟨l, hi⟩ := inv_reachable hs
  exact hi.parts_moves ha

/-- The table of list_rc.c is linearizable. -/
theorem rc_table_linearizable (β ρ : Type) [DecidableEq β] [DecidableEq ρ] [Fintype ρ] :
    Linearizable (Steps ListRc.step) (.init β ρ) (client β ρ).interface Request.apply fun s => s.mem.keys :=
  (table_points β ρ).linearizable

end Gecos.ListRc
