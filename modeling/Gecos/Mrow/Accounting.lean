import Gecos.Library.Rounding
import Gecos.Mrow.Test

/-! What the loop of `run` in mrow.c counts: the calls that a thread makes, pass by pass, and what it records of
them in `thd_ops`, `suc_ins`, `suc_del` and `suc_sea`. -/
namespace Gecos.Accounting
open Library Mrow Test

/-- A natural number converted to `double`. -/
def toDouble (x : Nat) : Nat := roundEven 53 x

inductive Kind where
  | insert
  | delete
  | search
  deriving DecidableEq

/-- A call of the loop with its key and whether it succeeded. -/
structure Op where
  kind : Kind
  key : Int
  res : Bool

/-- What a pass gets from outside: the number that `myrand` returns, whether the call succeeds, and the value of
`done` that an updater loads. -/
structure Pass where
  rand : Nat
  res : Bool
  done : Nat

/-- The variables of the loop: `thd` are the doubles `thd_ins`, `thd_del` and `thd_sea`, which hold natural
numbers. `ops` is a record of the calls. -/
structure State where
  i : Nat
  thd : Kind → Nat
  looping : Bool
  ops : List Op

namespace State

def init : State := ⟨0, fun _ => 0, true, []⟩

/-- `thd_ins += insert(key, hd, lck)`, and the same for the other kinds. -/
def call (s : State) (k : Kind) (key : Int) (res : Bool) : State :=
  { s with thd := Function.update s.thd k (toDouble (s.thd k + res.toNat)), ops := s.ops ++ [⟨k, key, res⟩] }

def leave (s : State) : State := { s with looping := false }

/-- `while (++i)` -/
def advance (s : State) : State :=
  { s with i := (s.i + 1) % 2 ^ 64, looping := decide ((s.i + 1) % 2 ^ 64 ≠ 0) }

/-- `thd_ops[t]` -/
def thdOps (s : State) : Nat := toDouble s.i

/-- `suc_ins[t]`, `suc_del[t]` and `suc_sea[t]` -/
def suc (s : State) : Kind → Nat := s.thd

def calls (s : State) (k : Kind) : Nat := s.ops.countP (·.kind = k)
def successes (s : State) (k : Kind) : Nat := s.ops.countP fun o => o.kind = k ∧ o.res

end State

variable (c : Config) (t : Nat)

/-- A pass of the loop in thread `t`. -/
def pass (s : State) (p : Pass) : Option State :=
  if s.looping then
    let key := toInt (p.rand % c.nbkeys)
    if c.nbupdaters ≤ t then
      let s := s.call .search key p.res
      some (if nbTest ≤ s.i then s.leave else s.advance)
    else
      let s := if s.i % 2 = 1 then s.call .insert key p.res else s.call .delete key p.res
      some (if p.done ≠ 0 then s.leave else s.advance)
  else none

/-- The accounts at the end of the loop are right. -/
structure Accounted (s : State) : Prop where
  ops : s.thdOps = s.ops.length
  reader : c.nbupdaters ≤ t → s.suc .search ≤ s.thdOps
  updater : t < c.nbupdaters → s.suc .insert + s.suc .delete ≤ s.thdOps ∧ s.calls .insert ≤ s.calls .delete + 1 ∧
    s.calls .delete ≤ s.calls .insert + 1

/-- Converting the counter of the pass before the `n`-th to `double` gives `n`. -/
def RoundsUp (n : Nat) : Prop := 2 ^ 53 < n ∧ n % 4 = 0 ∧ n % ulp 53 (n - 1) = 0

variable {c t} {s s' : State} {p : Pass} {k : Kind} {key : Int} {res : Bool} {n : Nat} {tr : List (Pass × State)}

@[simp] theorem call_i : (s.call k key res).i = s.i := rfl
@[simp] theorem call_length : (s.call k key res).ops.length = s.ops.length + 1 := by simp [State.call]

theorem call_calls (k' : Kind) : (s.call k key res).calls k' = s.calls k' + if k = k' then 1 else 0 := by
  simp [State.calls, State.call]

theorem call_successes (k' : Kind) :
    (s.call k key res).successes k' = s.successes k' + if k = k' then res.toNat else 0 := by
  cases res <;> simp [State.successes, State.call]

theorem successes_le (s : State) (k : Kind) : s.successes k ≤ s.calls k := by
  apply List.countP_mono_left
  intro o _ ho
  simp only [decide_eq_true_eq] at ho ⊢
  exact ho.1

/-- Each double is the number of the successes, up to where counting by one stops. -/
def Counts (s : State) : Prop := ∀ k, s.thd k = min (s.successes k) (2 ^ 53)

theorem Counts.init : Counts .init := fun _ => rfl

theorem Counts.call (h : Counts s) (k : Kind) (key : Int) (res : Bool) : Counts (s.call k key res) := by
  intro k'
  rw [call_successes]
  obtain rfl | hne := eq_or_ne k k'
  · have hk := h k
    have hle : s.thd k ≤ 2 ^ 53 := by omega
    simp only [State.call, Function.update_self, if_true, toDouble]
    cases res with
    | false => rwa [Bool.toNat_false, Nat.add_zero, roundEven_of_le (by decide) hle]
    | true =>
      rw [Bool.toNat_true, roundEven_succ (by decide) hle]
      omega
  · simp only [State.call, Function.update_of_ne hne.symm, if_neg hne, Nat.add_zero]
    exact h k'

theorem pass_reader (hr : c.nbupdaters ≤ t) (hs : pass c t s p = some s') : s.looping = true ∧
    ∃ key, s' = if nbTest ≤ s.i then (s.call .search key p.res).leave else (s.call .search key p.res).advance := by
  simp only [pass, Option.ite_none_right_eq_some, if_pos hr, Option.some.injEq] at hs
  exact ⟨hs.1, _, hs.2.symm⟩

theorem pass_updater (hu : t < c.nbupdaters) (hs : pass c t s p = some s') : s.looping = true ∧
    ∃ k key, (s.i % 2 = 1 ∧ k = .insert ∨ s.i % 2 = 0 ∧ k = .delete) ∧
      s' = if p.done ≠ 0 then (s.call k key p.res).leave else (s.call k key p.res).advance := by
  simp only [pass, Option.ite_none_right_eq_some, if_neg (Nat.not_le.mpr hu), Option.some.injEq] at hs
  obtain ⟨hl, rfl⟩ := hs
  refine ⟨hl, ?_⟩
  by_cases hi : s.i % 2 = 1
  · exact ⟨.insert, _, .inl ⟨hi, rfl⟩, by rw [if_pos hi]⟩
  · exact ⟨.delete, _, .inr ⟨by omega, rfl⟩, by rw [if_neg hi]⟩

/-- The passes are those of the threads of `test`. -/
theorem pass_run (hs : pass c t s p = some s') (g : Test.State) (hd : g.done = p.done) :
    ∃ q, Test.run c g t (.called s.i) = some (g.ready, q) ∧
      (q = .left s'.i ∧ s'.looping = false ∨
        q = .next s.i ∧ Test.run c g t q = some (g.ready, if s'.looping then .call s'.i else .left s'.i)) := by
  have hadv (u : State) : Test.run c g t (.next u.i) =
      some (g.ready, if u.advance.looping then .call u.advance.i else .left u.advance.i) := by
    cases hl : u.advance.looping with
    | false => exact congrArg (fun q => some (g.ready, q)) (if_pos (not_not.mp (of_decide_eq_false hl)))
    | true => exact congrArg (fun q => some (g.ready, q)) (if_neg (of_decide_eq_true hl))
  by_cases hr : c.nbupdaters ≤ t
  · obtain ⟨_, key, rfl⟩ := pass_reader hr hs
    refine ⟨_, if_pos hr, ?_⟩
    by_cases hb : nbTest ≤ s.i
    · rw [if_pos hb, if_pos hb]
      exact .inl ⟨rfl, rfl⟩
    · rw [if_neg hb, if_neg hb]
      exact .inr ⟨rfl, hadv (s.call .search key p.res)⟩
  · obtain ⟨_, k, key, _, rfl⟩ := pass_updater (Nat.not_le.mp hr) hs
    refine ⟨_, if_neg hr, ?_⟩
    rw [hd]
    by_cases hb : p.done = 0
    · rw [if_pos hb, if_neg (not_not.mpr hb)]
      exact .inr ⟨rfl, hadv (s.call k key p.res)⟩
    · rw [if_neg hb, if_pos hb]
      exact .inl ⟨rfl, rfl⟩

theorem advance_of_lt (h : s.i + 1 < 2 ^ 64) : s.advance = { s with i := s.i + 1, looping := true } := by
  unfold State.advance
  rw [Nat.mod_eq_of_lt h, decide_eq_true (Nat.succ_ne_zero _)]

section reader

/-- After `n` passes of a reader. -/
structure Reads (n : Nat) (s : State) : Prop where
  length : s.ops.length = n
  looping : s.looping = true → s.i = n ∧ n ≤ nbTest
  left : s.looping = false → s.i = nbTest ∧ n = nbTest + 1

theorem Reads.pass (hr : c.nbupdaters ≤ t) (h : Reads n s) (hs : Accounting.pass c t s p = some s') :
    Reads (n + 1) s' := by
  obtain ⟨hlen, hloop, _⟩ := h
  obtain ⟨hl, key, rfl⟩ := pass_reader hr hs
  obtain ⟨hi, hn⟩ := hloop hl
  have htest : nbTest = 2000000 := rfl
  by_cases hb : nbTest ≤ s.i
  · rw [if_pos hb]
    refine ⟨call_length.trans (by rw [hlen]), fun h => (nomatch h), fun _ => ⟨?_, by omega⟩⟩
    change s.i = nbTest
    omega
  · rw [if_neg hb, advance_of_lt (by rw [call_i]; omega)]
    exact ⟨call_length.trans (by rw [hlen]), fun _ => ⟨congrArg (· + 1) hi, by omega⟩, fun h => (nomatch h)⟩

theorem Reads.run (hr : c.nbupdaters ≤ t) (h : Run (Steps (Accounting.pass c t)) .init tr s) : Reads tr.length s := by
  induction h with
  | nil => exact ⟨rfl, fun _ => ⟨rfl, Nat.zero_le _⟩, fun h => (nomatch h)⟩
  | snoc _ hs ih =>
    rw [List.length_append]
    exact ih.pass hr hs

end reader

section updater

/-- After `n` passes of an updater, the last of which loaded `done`. -/
structure Updates (n done : Nat) (s : State) : Prop where
  length : s.ops.length = n
  counts : Counts s
  insert : s.calls .insert = n / 2
  delete : s.calls .delete = (n + 1) / 2
  looping : s.looping = true → s.i = n ∧ n < 2 ^ 64
  left : s.looping = false → done ≠ 0 ∧ s.i + 1 = n ∧ n ≤ 2 ^ 64 ∨ done = 0 ∧ s.i = 0 ∧ n = 2 ^ 64

theorem Updates.pass {done : Nat} (hu : t < c.nbupdaters) (h : Updates n done s)
    (hs : Accounting.pass c t s p = some s') : Updates (n + 1) p.done s' := by
  obtain ⟨hlen, hc, hins, hdel, hloop, _⟩ := h
  obtain ⟨hl, k, key, hk, rfl⟩ := pass_updater hu hs
  obtain ⟨hi, hn⟩ := hloop hl
  have hlen' : (s.call k key p.res).ops.length = n + 1 := call_length.trans (by rw [hlen])
  have hins' : (s.call k key p.res).calls .insert = (n + 1) / 2 := by
    rw [call_calls, hins]
    rcases hk with ⟨hi, rfl⟩ | ⟨hi, rfl⟩ <;> simp only [if_true, reduceCtorEq, if_false] <;> omega
  have hdel' : (s.call k key p.res).calls .delete = (n + 2) / 2 := by
    rw [call_calls, hdel]
    rcases hk with ⟨hi, rfl⟩ | ⟨hi, rfl⟩ <;> simp only [if_true, reduceCtorEq, if_false] <;> omega
  have hc' := hc.call k key p.res
  by_cases hd : p.done = 0
  · rw [if_neg (by simpa using hd)]
    refine ⟨hlen', hc', hins', hdel', fun hl => ?_, fun hl => .inr ?_⟩
    · have h0 : (s.i + 1) % 2 ^ 64 ≠ 0 := of_decide_eq_true hl
      have hlt : (s.call k key p.res).i + 1 < 2 ^ 64 := by rw [call_i]; omega
      rw [advance_of_lt hlt]
      exact ⟨congrArg (· + 1) hi, by rw [call_i] at hlt; omega⟩
    · have h0 : (s.i + 1) % 2 ^ 64 = 0 := not_not.mp (of_decide_eq_false hl)
      exact ⟨hd, h0, by omega⟩
  · rw [if_pos hd]
    exact ⟨hlen', hc', hins', hdel', fun h => (nomatch h), fun _ => .inl ⟨hd, congrArg (· + 1) hi, by omega⟩⟩

/-- The value of `done` that the last pass loaded. -/
def lastDone (tr : List (Pass × State)) : Nat := (tr.getLast?.map (·.1.done)).getD 0

theorem Updates.run (hu : t < c.nbupdaters) (h : Run (Steps (Accounting.pass c t)) .init tr s) :
    Updates tr.length (lastDone tr) s := by
  induction h with
  | nil => exact ⟨rfl, .init, rfl, rfl, fun _ => ⟨rfl, by decide⟩, fun h => (nomatch h)⟩
  | @snoc tr t p u _ hs ih =>
    have hlast : lastDone (tr ++ [(p, u)]) = p.done := by simp [lastDone]
    rw [List.length_append, hlast]
    exact ih.pass hu hs

end updater

/-- The accounts of a thread that has left its loop are right iff it is an updater that saw `done` after so many
calls that the conversion to `double` makes up for the one call that the counter misses. -/
theorem accounted_iff (h : Run (Steps (pass c t)) .init tr s) (hl : s.looping = false) :
    Accounted c t s ↔ t < c.nbupdaters ∧ lastDone tr ≠ 0 ∧ RoundsUp tr.length := by
  rcases Nat.lt_or_ge t c.nbupdaters with hu | hr
  · obtain ⟨hlen, hc, hins, hdel, _, hleft⟩ := Updates.run hu h
    have hsuc (k : Kind) : s.suc k ≤ s.calls k := by
      have hk := hc k
      have hle := successes_le s k
      change s.thd k ≤ _
      omega
    have hi := hsuc .insert
    have hd := hsuc .delete
    rcases hleft hl with ⟨hdone, hn, _⟩ | ⟨hdone, h0, hn⟩
    · have hops : s.thdOps = s.ops.length ↔ RoundsUp tr.length := by
        rw [State.thdOps, toDouble, hlen, ← hn, roundEven_eq_succ_iff (by decide), RoundsUp, Nat.add_sub_cancel,
          Nat.lt_succ_iff]
      constructor
      · intro ha
        exact ⟨hu, hdone, hops.mp ha.ops⟩
      · rintro ⟨_, _, hup⟩
        have ho := hops.mpr hup
        refine ⟨ho, fun hr => absurd hr (Nat.not_le.mpr hu), fun _ => ⟨?_, by omega, by omega⟩⟩
        omega
    · refine ⟨fun ha => ?_, fun hup => absurd hdone hup.2.1⟩
      have hops := ha.ops
      rw [State.thdOps, h0, toDouble, roundEven_of_le (by decide) (Nat.zero_le _), hlen, hn] at hops
      exact absurd hops (by decide)
  · obtain ⟨hlen, _, hleft⟩ := Reads.run hr h
    obtain ⟨hi, hn⟩ := hleft hl
    refine ⟨fun ha => ?_, fun hu => absurd hu.1 (Nat.not_lt.mpr hr)⟩
    have hops := ha.ops
    rw [State.thdOps, hi, toDouble, roundEven_of_le (by decide) (by decide), hlen, hn] at hops
    exact absurd hops (Nat.ne_of_lt (Nat.lt_succ_self _))

/-- One `delete`, after which `done` is seen; it succeeds, and is not counted. -/
def lastCall : Pass := ⟨0, true, 1⟩

theorem accounts_miss_last : ∃ s, Run (Steps (pass ⟨2, 1, 1, 1, 1, 1⟩ 0)) .init [(lastCall, s)] s ∧
    s.looping = false ∧ s.calls .delete = 1 ∧ s.suc .delete = 1 ∧ s.thdOps = 0 ∧ ¬ Accounted ⟨2, 1, 1, 1, 1, 1⟩ 0 s := by
  have h : Run (Steps (pass ⟨2, 1, 1, 1, 1, 1⟩ 0)) .init [(lastCall, _)] _ := .cons rfl .nil
  exact ⟨_, h, rfl, rfl, rfl, rfl, fun ha => absurd ha.ops (by decide)⟩

/-- Three passes of an updater: `delete`, `insert` and `delete`, each of which succeeds, and `done` is seen after
the third. -/
def threePasses : List Pass := [⟨0, true, 0⟩, ⟨0, true, 0⟩, lastCall]

theorem accounted_iff_lastCall : ∃ tr s, Run (Steps (pass ⟨2, 1, 1, 1, 1, 1⟩ 0)) .init tr s ∧
    tr.map Prod.fst = threePasses ∧ s.looping = false ∧ s.calls .insert = 1 ∧ s.calls .delete = 2 ∧ s.thdOps = 2 ∧
    ¬ Accounted ⟨2, 1, 1, 1, 1, 1⟩ 0 s := by
  have h : (exec (pass ⟨2, 1, 1, 1, 1, 1⟩ 0) .init threePasses).any fun s => !s.looping && s.calls .insert == 1 &&
      s.calls .delete == 2 && s.thdOps == 2 := by decide
  obtain ⟨s, hs, hp⟩ := Option.any_eq_true _ _ |>.mp h
  simp only [Bool.and_eq_true, Bool.not_eq_true', beq_iff_eq] at hp
  obtain ⟨⟨⟨hl, hi⟩, hd⟩, ho⟩ := hp
  refine ⟨_, s, exec_run hs, execTrace_labels hs, hl, hi, hd, ho, fun ha => ?_⟩
  -- three passes are too few for the conversion to round up
  have hup := ((accounted_iff (exec_run hs) hl).mp ha).2.2.1
  rw [execTrace_length hs] at hup
  exact absurd hup (by decide)

end Gecos.Accounting
