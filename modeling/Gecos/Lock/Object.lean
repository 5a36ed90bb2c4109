import Gecos.Lock.Gclock
import Gecos.Lock.Seqlock
import Gecos.Table.Object

/-! The table of list_lock.c with the SEQLOCK or the GCLOCK macros as one object. -/
namespace Gecos.ListLock
open Library
variable {β υ ρ : Type} {B : Build υ} {s s' : State β υ ρ} {u : υ}

def Act.label : Act β υ ρ → Label β υ ρ
  | .begin u op k b => .begin u op k b
  | .update u => .update u
  | .alloc .. => .other
  | .call r k b => .call r k b
  | .read r => .read r

theorem label_call {a : Act β υ ρ} {r : ρ} {k : Int} {b : β} : a.label = .call r k b ↔ a = .call r k b := by
  cases a <;> simp [Act.label]

theorem label_read {a : Act β υ ρ} {r : ρ} : a.label = .read r ↔ a = .read r := by
  cases a <;> simp [Act.label]

/-- How far the call is that the updater is in; one with a node to free has taken effect. -/
def Updater.stage : Updater β → Stage (Request β) Nat
  | .list w => w.stage
  | .take op k b _ | .check op k b => .busy (.update op k b)
  | .release _ (.ret res) _ => .decided res
  | .release _ (.free _) _ | .free _ => .decided 1
  | .aborted => .idle

def Updater.result : Updater β → Option Nat
  | .list w => w.result
  | _ => none

def Searcher.running : Searcher β → Bool
  | .idle | .returned _ => false
  | _ => true

/-- The result that a search returned, or is to return if the lock word is as it was. -/
def Searcher.result : Searcher β → Option Nat
  | .runlock _ _ _ res | .returned res => some res
  | _ => none

def Searcher.answer : Searcher β → Option Nat
  | .returned res => some res
  | _ => none

theorem answer_returned {x : Searcher β} {res : Nat} : x.answer = some res ↔ x = .returned res := by
  cases x <;> simp [Searcher.answer]

def client (β υ ρ : Type) : Client (State β υ ρ) (Act β υ ρ) β υ ρ where
  label := Act.label
  mem := State.mem
  stage s u := (s.upd u).stage
  result s u := (s.upd u).result
  reading s r := (s.rd r).running
  answer s r := (s.rd r).answer

def parts (β υ ρ : Type) : (client β υ ρ).Parts (Updater β) (Searcher β) where
  upd := State.upd
  stage := Updater.stage
  result := Updater.result
  rd := State.rd
  running := Searcher.running
  pending := Searcher.result
  answer := Searcher.answer
  stage_eq _ := rfl
  result_eq _ := rfl
  reading_eq _ := rfl
  answer_eq _ := rfl
  stage_ne x := by
    cases x with
    | list w => exact w.stage_ne
    | release b e old => cases e <;> simp [Updater.stage]
    | take | check | free | aborted => simp [Updater.stage]
  pending_eq x res h := by
    cases x with
    | returned => exact h
    | _ => cases h

theorem loop_running (k : Int) (b : β) (v : Nat) (p : Ptr) :
    (Searcher.loop B k b v p).running = (Searcher.loop B k b v p).answer.isNone ∧
      ∀ res, (Searcher.loop B k b v p).result = some res → res ≤ 1 := by
  cases p with
  | none => exact ⟨rfl, by simp [Searcher.loop, Searcher.result]⟩
  | some n =>
    simp only [Searcher.loop]
    split <;> exact ⟨rfl, by simp [Searcher.result]⟩

/-- What a validation goes on to, or the start. -/
theorem validated_cases (m : Mem β) (k : Int) (b : β) (v : Nat) (x : Searcher β) :
    Searcher.validated B m k b v x = x ∨ Searcher.validated B m k b v x = .rlock k b := by
  unfold Searcher.validated
  split
  · exact .inr rfl
  · exact .inl rfl

/-- A result is 0 or 1, and an earlier one does not change. -/
theorem running_of_step {m : Mem β} {x x' : Searcher β} (h : x.step B m = some x') :
    x.running = true ∧ x'.running = x'.answer.isNone ∧
      ∀ res, x'.result = some res → res ≤ 1 ∨ x.result = some res := by
  cases x with
  | idle | returned => cases h
  | rlock k b =>
    cases h
    refine ⟨rfl, ?_⟩
    split <;> exact ⟨rfl, by simp [Searcher.result]⟩
  | head k b v =>
    cases h
    exact ⟨rfl, (loop_running ..).imp_right fun hr res h => .inl (hr res h)⟩
  | validate k b v cur =>
    cases h
    refine ⟨rfl, ?_⟩
    rcases validated_cases (B := B) m k b v (.key k b v cur) with he | he <;>
      rw [he] <;> exact ⟨rfl, by simp [Searcher.result]⟩
  | key k b v cur =>
    cases h
    refine ⟨rfl, ?_⟩
    split
    · refine ⟨rfl, fun res hr => .inl ?_⟩
      cases hr
      split <;> simp
    · exact ⟨rfl, by simp [Searcher.result]⟩
  | next k b v cur =>
    cases h
    refine ⟨rfl, ?_⟩
    split
    · exact ⟨rfl, by simp [Searcher.result]⟩
    · exact (loop_running ..).imp_right fun hr res h => .inl (hr res h)
  | validateCur k b v cur =>
    cases h
    refine ⟨rfl, ?_⟩
    rcases validated_cases (B := B) m k b v (Searcher.loop B k b v cur) with he | he <;> rw [he]
    · exact (loop_running ..).imp_right fun hr res h => .inl (hr res h)
    · exact ⟨rfl, by simp [Searcher.result]⟩
  | runlock k b v res =>
    cases h
    refine ⟨rfl, ?_⟩
    rcases validated_cases (B := B) m k b v (.returned res) with he | he <;> rw [he]
    · exact ⟨rfl, fun res' hr => .inr hr⟩
    · exact ⟨rfl, by simp [Searcher.result]⟩

variable [DecidableEq β]

theorem unlock_point {m m' : Mem β} {b : β} {e : Exit} {x : Updater β} (old : Nat)
    (hs : Updater.unlock B m b e = (m', x)) :
    Point m.keys m'.keys (Updater.release b e old).stage x.stage x.result := by
  unfold Updater.unlock at hs
  split at hs <;> cases hs
  · cases e <;> exact .quiet rfl rfl
  · cases e with
    | ret res => exact .ret res rfl rfl (.inl rfl)
    | free n => exact .quiet rfl rfl

variable [DecidableEq υ]

/-- A step of an updater, the lock macros included, is one of the kinds of step. -/
theorem Inv.update_point {m : Mem β} {x : Updater β} (h : Inv B s) (hs : (s.upd u).step B s.mem = some (m, x)) :
    Point s.mem.keys m.keys (s.upd u).stage x.stage x.result := by
  cases hx : s.upd u with
  | aborted => simp [hx, Updater.step] at hs
  | free n =>
    rw [hx] at hs
    cases hs
    exact .ret 1 rfl rfl (.inl rfl)
  | release b e old =>
    rw [hx] at hs
    cases hs
    cases e with
    | ret res => exact .ret res rfl rfl (.inl rfl)
    | free n => exact .quiet rfl rfl
  | take op k b old =>
    rw [hx] at hs
    simp only [Updater.step, Option.some.injEq] at hs
    split at hs
    · cases hs
      exact .quiet rfl rfl
    · split at hs <;> cases hs <;> exact .quiet rfl rfl
  | check op k b =>
    have hm := h.loaded u
    rw [hx] at hs hm
    have hodd : s.mem.locks b % 2 = 1 := (h.word hm b).mpr ⟨u, by rw [hx]; rfl⟩
    simp only [Updater.step, hodd, if_true, Option.some.injEq, Prod.mk.injEq] at hs
    obtain ⟨rfl, rfl⟩ := hs
    exact .quiet rfl rfl
  | list w =>
    have hw : (s.upd u).writer = w := by rw [hx]; rfl
    rw [hx] at hs
    cases w with
    | wlock op k b =>
      cases hs
      split
      · split <;> exact .quiet rfl rfl
      · split <;> exact .quiet rfl rfl
    | wunlock b res => exact unlock_point (e := .ret res) 0 (Option.some.inj hs)
    | freeNodeLater b n r =>
      simp only [Updater.step, Option.some.injEq] at hs
      split at hs
      · cases hs
        exact .quiet rfl rfl
      · exact unlock_point (e := .free n) 0 hs
    | ready | initNewNode | handOver | returned => simp [Updater.step, Writer.step] at hs
    | emptyTest | loadHead | loadKey | loadKeyAgain | advance | loadNext | unlink | storeKey | storeNext | link =>
      simp only [Updater.step] at hs
      obtain ⟨⟨m₁, w'⟩, hstep, he⟩ := Option.map_eq_some_iff.mp hs
      cases he
      have hstep' : (s.upd u).writer.step () s.mem = some (m₁, w') := by rw [hw]; exact hstep
      have hp := h.writers.step_point (u := u) hstep'
      rwa [hw] at hp

omit [DecidableEq β] in
theorem begin_stage {x x' : Updater β} {op : Op} {k : Int} {b : β} (h : x.begin op k b = some x') :
    x.stage = .idle ∧ x'.stage = .busy (.update op k b) := by
  cases x with
  | list w =>
    obtain ⟨w', hw, rfl⟩ := Option.map_eq_some_iff.mp h
    exact Writer.begin_stage hw
  | take | check | release | free | aborted => cases h

omit [DecidableEq β] in
theorem alloc_stage {m m' : Mem β} {x x' : Updater β} {n : Addr} (h : x.alloc m n = some (m', x')) :
    x'.stage = x.stage ∧ m'.key = m.key ∧ m'.next = m.next ∧ m'.heads = m.heads := by
  cases x with
  | list w =>
    obtain ⟨⟨m₁, w'⟩, hw, he⟩ := Option.map_eq_some_iff.mp h
    cases he
    obtain ⟨hst, _, hm⟩ := Writer.alloc_stage hw
    exact ⟨hst, hm⟩
  | take | check | release | free | aborted => cases h

variable [DecidableEq ρ]

theorem Inv.parts_moves {a : Act β υ ρ} (h : Inv B s) (hs : ListLock.step B s a = some s') :
    (parts β υ ρ).Moves s s' a.label := by
  cases a with
  | begin u op k b =>
    obtain ⟨x, hx, rfl⟩ := Option.map_eq_some_iff.mp hs
    exact ⟨rfl, rfl, x, rfl, begin_stage hx⟩
  | update u =>
    obtain ⟨⟨m, x⟩, hx, rfl⟩ := Option.map_eq_some_iff.mp hs
    exact ⟨rfl, x, rfl, h.update_point hx⟩
  | alloc u n =>
    obtain ⟨⟨m, x⟩, hx, rfl⟩ := Option.map_eq_some_iff.mp hs
    obtain ⟨hst, hk, hn, hh⟩ := alloc_stage hx
    exact ⟨Mem.keys_of_same hk hn hh, rfl, u, x, rfl, hst⟩
  | call r k b =>
    simp only [ListLock.step] at hs
    split at hs <;> cases hs
    all_goals
      rename_i hr
      exact ⟨rfl, rfl, .rlock k b, rfl, congrArg Searcher.running hr, rfl, rfl⟩
  | read r =>
    obtain ⟨x, hx, rfl⟩ := Option.map_eq_some_iff.mp hs
    obtain ⟨hrun, hrun', hres⟩ := running_of_step hx
    exact ⟨rfl, rfl, x, rfl, hrun, hrun', hres⟩

omit [DecidableEq β] [DecidableEq υ] [DecidableEq ρ] in
theorem Since.exists_mem {r : ρ} {k : Int} {b : β} {hist : List (State β υ ρ)} {P : State β υ ρ → Prop}
    (h : Since r k b hist P) : ∃ m ∈ hist, P m := by
  obtain ⟨pre, s₁, suf, rfl, _, _, hP⟩ := h
  exact ⟨s₁, by simp, hP s₁ (by simp)⟩

theorem searched_answers {r : ρ} {k : Int} {b : β} {res : Nat} {hist : List (State β υ ρ)}
    (h : (client β υ ρ).Searched (Steps (step B)) (.init β υ ρ) r k b res hist) :
    ∃ m ∈ hist, (res = 1 ↔ m.mem.Member b k) := by
  have hc : Completed B r k b res hist :=
    h.imp (fun _ => label_call.mp) (fun a hno k b he => hno k b (label_call.mpr he)) fun a t hret =>
      ⟨label_read.mp hret.1, answer_returned.mp hret.2⟩
  cases hB : B.macros with
  | seqlock => exact (seqlock_answers hB hc).exists_mem
  | gclock => exact gclock_answers hB hc

/-- The points at which the calls take effect. -/
theorem table_points (B : Build υ) :
    Points (Steps (step B)) (.init β υ ρ) (client β υ ρ).interface Request.apply (fun s => s.mem.keys)
      (client β υ ρ).stages :=
  Client.Parts.points (P := parts β υ ρ) (fun _ => rfl) (fun _ => ⟨rfl, rfl⟩)
    (fun _ _ _ hs ha => (inv_reachable hs).parts_moves ha) fun _ _ _ _ _ => searched_answers

/-- The table of list_lock.c is linearizable with SEQLOCK and with GCLOCK, for one updater and for many. -/
theorem lock_table_linearizable (B : Build υ) :
    Linearizable (Steps (step B)) (.init β υ ρ) (client β υ ρ).interface Request.apply fun s => s.mem.keys :=
  (table_points B).linearizable

end Gecos.ListLock
