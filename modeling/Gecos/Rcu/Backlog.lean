import Gecos.Library.Run
import Gecos.Mrow.Config
import Mathlib.Data.Fintype.Card

/-! The backlog counter of rcu.c with `RCU_COUNT_BLC`: one updater that calls `free_node_later`, and
the callback thread of liburcu, which runs `free_node_cb` once for each `call_rcu`, some time later. -/
namespace Gecos.Backlog
open Library Mrow

/-- The address of a node in units of `CACHESIZE`, to which `node_t` is aligned. -/
abbrev Node := Fin (2 ^ 58)

/-- `AMORT_COUNT` -/
def amortCount : Nat := 16

/-- Where `free_node_later` stands: past `call_rcu`, or past the load of `qsblockeds++`. -/
inductive Updater where
  | ready
  | called
  | store (v : Int)
  deriving DecidableEq

/-- Where `free_node_cb` stands: before `tmp` is loaded, before `rcublockeds` is brought up to it, before
the counter is decreased, past the load of `qsblockeds--`, before the last `assert`, before `free_node`. -/
inductive Callback where
  | idle
  | load (n : Node)
  | max (n : Node) (tmp : Nat)
  | count (n : Node) (tmp : Nat)
  | store (n : Node) (v : Int)
  | check (n : Node)
  | free (n : Node)
  deriving DecidableEq

/-- `pending` are the nodes passed to `call_rcu` whose callback has not begun, and `failed` says that an
`assert` has failed. Each thread has an `amort` of its own. -/
structure State where
  pending : List Node
  qsblockeds : Int
  rcublockeds : Int
  upd : Updater
  updAmort : Nat
  cb : Callback
  cbAmort : Nat
  failed : Bool

def State.init : State := ⟨[], 0, 0, .ready, 0, .idle, 0, false⟩

/-- `free_node_later(n)` up to its `call_rcu`, the updater's next step; the callback of `n` begins,
the callback's next step. -/
inductive Act where
  | retire (n : Node)
  | update
  | run (n : Node)
  | callback
  deriving DecidableEq

/-- The node whose callback is running. -/
def Callback.node : Callback → Option Node
  | .idle => none
  | .load n | .max n _ | .count n _ | .store n _ | .check n | .free n => some n

/-- An `unsigned long` converted to `long`. -/
def toLong (x : Nat) : Int := Int.bmod x (2 ^ 64)

variable (atm : Bool)

/-- The rest of `free_node_later`; `atm` is `RCU_COUNT_ATM`. -/
def State.update (s : State) : Option State :=
  match s.upd with
  | .ready => none
  | .called =>
    if atm then
      let amort := s.updAmort + 1
      if amortCount ≤ amort then some { s with upd := .ready, updAmort := 0 }
      else if amort = 1 then
        some { s with upd := .ready, updAmort := amort, qsblockeds := s.qsblockeds + amortCount }
      else some { s with upd := .ready, updAmort := amort }
    else some { s with upd := .store s.qsblockeds }
  | .store v => some { s with upd := .ready, qsblockeds := v + 1 }

/-- The body of `free_node_cb`. -/
def State.callback (s : State) : Option State :=
  match s.cb with
  | .idle => none
  | .load n => some { s with cb := .max n (toUlong s.qsblockeds) }
  | .max n tmp =>
    if toUlong s.rcublockeds < tmp then some { s with cb := .count n tmp, rcublockeds := toLong tmp }
    else some { s with cb := .count n tmp }
  | .count n tmp =>
    if atm then
      let amort := s.cbAmort + 1
      if amortCount ≤ amort then
        if amortCount ≤ tmp then
          some { s with cb := .check n, cbAmort := 0, qsblockeds := s.qsblockeds - amortCount }
        else some { s with failed := true }
      else some { s with cb := .check n, cbAmort := amort }
    else some { s with cb := .store n s.qsblockeds }
  | .store n v => some { s with cb := .check n, qsblockeds := v - 1 }
  | .check n => if 0 ≤ s.qsblockeds then some { s with cb := .free n } else some { s with failed := true }
  | .free _ => some { s with cb := .idle }

/-- One step. A node is retired when no callback of it is due, and a failed `assert` stops the program. -/
def step (s : State) (a : Act) : Option State :=
  if s.failed then none
  else match a with
    | .retire n =>
      if s.upd = .ready ∧ n ∉ s.pending ∧ s.cb.node ≠ some n then
        some { s with upd := .called, pending := s.pending ++ [n] }
      else none
    | .update => s.update atm
    | .run n =>
      if s.cb = .idle ∧ n ∈ s.pending then some { s with cb := .load n, pending := s.pending.erase n }
      else none
    | .callback => s.callback atm

/-- No `free_node_later` and no callback is under way: `pending` are the nodes retired and not yet freed. -/
def State.Quiet (s : State) : Prop := s.upd = .ready ∧ s.cb = .idle

/-- What the updater has passed to `call_rcu` and not counted. -/
def Updater.uncounted : Updater → Nat
  | .ready => 0
  | .called | .store _ => 1

/-- What the callback thread has taken and not counted. -/
def Callback.uncounted : Callback → Nat
  | .load _ | .max .. | .count .. | .store .. => 1
  | .idle | .check _ | .free _ => 0

variable {atm} {s t : State} {a : Act}

/-- There are no more nodes than the address space holds. -/
theorem length_pending_le (h : s.pending.Nodup) : s.pending.length ≤ 2 ^ 58 := by
  have hle := h.length_le_card
  rwa [Fintype.card_fin] at hle

theorem toUlong_counter {x : Int} (h₀ : 0 ≤ x) (h : x < 2 ^ 63) : (toUlong x : Int) = x :=
  toUlong_of_nonneg h₀ (by omega)

theorem toLong_of_lt {x : Nat} (h : x < 2 ^ 63) : toLong x = x := by
  unfold toLong
  apply Int.bmod_eq_of_le <;> omega

@[simp] theorem Updater.uncounted_ready : Updater.ready.uncounted = 0 := rfl
@[simp] theorem Updater.uncounted_called : Updater.called.uncounted = 1 := rfl
@[simp] theorem Updater.uncounted_store (v : Int) : (Updater.store v).uncounted = 1 := rfl

theorem Updater.uncounted_le (u : Updater) : u.uncounted ≤ 1 := by cases u <;> simp

section atomic

/-- The invariant with `RCU_COUNT_ATM`: `c` nodes were counted by the updater and `d` by the callbacks,
a block of 16 is added with its first node and taken away with its last. -/
structure Blocks (s : State) (c d : Nat) : Prop where
  nodup : s.pending.Nodup
  nodes : c + s.upd.uncounted = d + s.pending.length + s.cb.uncounted
  updAmort : s.updAmort = c % 16
  cbAmort : s.cbAmort = d % 16
  counter : s.qsblockeds = 16 * ((c + 15) / 16 : Nat) - 16 * (d / 16 : Nat)
  upd : ∀ v, s.upd ≠ .store v
  cb : ∀ n v, s.cb ≠ .store n v
  tmp : ∀ n tmp, s.cb = .max n tmp ∨ s.cb = .count n tmp → d % 16 = 15 → 16 ≤ tmp
  passed : s.failed = false

theorem Blocks.init : Blocks .init 0 0 := by
  constructor <;> simp [State.init, Updater.uncounted, Callback.uncounted]

variable {c d : Nat}

/-- The updater counts a node. -/
theorem Blocks.update (h : Blocks s c d) (hs : s.update true = some t) : Blocks t (c + 1) d := by
  obtain ⟨hnd, hnodes, hua, hca, hq, hu, hcb, htmp, hf⟩ := h
  unfold State.update at hs
  split at hs
  case h_1 => contradiction
  case h_3 v he => exact (hu v he).elim
  rename_i he
  rw [he, Updater.uncounted_called] at hnodes
  simp only [if_true] at hs
  have h16 : amortCount = 16 := rfl
  by_cases hlast : amortCount ≤ s.updAmort + 1
  · rw [if_pos hlast] at hs
    cases hs
    exact ⟨hnd, by simpa using hnodes, by simp only; omega, hca, by simp only; omega, by simp, hcb, htmp, hf⟩
  rw [if_neg hlast] at hs
  by_cases hfirst : s.updAmort + 1 = 1
  · rw [if_pos hfirst] at hs
    cases hs
    exact ⟨hnd, by simpa using hnodes, by simp only; omega, hca, by simp only; omega, by simp, hcb, htmp, hf⟩
  · rw [if_neg hfirst] at hs
    cases hs
    exact ⟨hnd, by simpa using hnodes, by simp only; omega, hca, by simp only; omega, by simp, hcb, htmp, hf⟩

/-- The callback thread moves on, and counts a node if it was about to; neither `assert` fails. -/
theorem Blocks.callback (h : Blocks s c d) (hs : s.callback true = some t) : ∃ d', Blocks t c d' := by
  obtain ⟨hnd, hnodes, hua, hca, hq, hu, hcb, htmp, hf⟩ := h
  have hle := length_pending_le hnd
  have hu1 := s.upd.uncounted_le
  unfold State.callback at hs
  split at hs
  case h_1 => contradiction
  case h_2 n he =>
    cases hs
    rw [he] at hnodes
    simp only [Callback.uncounted] at hnodes
    refine ⟨d, hnd, by simpa [Callback.uncounted] using hnodes, hua, hca, hq, hu, by simp, fun n' tmp' ht hd => ?_, hf⟩
    -- the block that ends with this node was added with its first
    have htmp' : tmp' = toUlong s.qsblockeds := (Callback.max.inj (ht.resolve_right (by simp))).2.symm
    have hq16 : 16 ≤ s.qsblockeds := by omega
    have hul := toUlong_counter (x := s.qsblockeds) (by omega) (by omega)
    rw [htmp']
    omega
  case h_3 n tmp he =>
    have hcount (r : Int) : Blocks { s with cb := .count n tmp, rcublockeds := r } c d := by
      rw [he] at hnodes
      refine ⟨hnd, hnodes, hua, hca, hq, hu, by simp, fun n' tmp' ht hd => ?_, hf⟩
      obtain ⟨rfl, rfl⟩ := Callback.count.inj (ht.resolve_left (by simp))
      exact htmp n tmp (.inl he) hd
    split at hs <;> cases hs <;> exact ⟨d, hcount _⟩
  case h_4 n tmp he =>
    rw [he] at hnodes
    simp only [Callback.uncounted] at hnodes
    simp only [if_true] at hs
    have h16 : amortCount = 16 := rfl
    by_cases hlast : amortCount ≤ s.cbAmort + 1
    · have hd : d % 16 = 15 := by omega
      rw [if_pos hlast, if_pos (h16 ▸ htmp n tmp (.inr he) hd)] at hs
      cases hs
      exact ⟨d + 1, hnd, by simp only [Callback.uncounted]; omega, hua, by simp only; omega, by simp only; omega, hu,
        by simp, by simp, hf⟩
    · rw [if_neg hlast] at hs
      cases hs
      exact ⟨d + 1, hnd, by simp only [Callback.uncounted]; omega, hua, by simp only; omega, by simp only; omega, hu,
        by simp, by simp, hf⟩
  case h_5 n v he => exact (hcb n v he).elim
  case h_6 n he =>
    rw [he] at hnodes
    simp only [Callback.uncounted] at hnodes
    have hq0 : 0 ≤ s.qsblockeds := by omega
    rw [if_pos hq0] at hs
    cases hs
    exact ⟨d, hnd, by simpa [Callback.uncounted] using hnodes, hua, hca, hq, hu, by simp, by simp, hf⟩
  case h_7 n he =>
    cases hs
    rw [he] at hnodes
    exact ⟨d, hnd, hnodes, hua, hca, hq, hu, by simp, by simp, hf⟩

theorem Blocks.step (h : Blocks s c d) (hs : Backlog.step true s a = some t) : ∃ c' d', Blocks t c' d' := by
  unfold Backlog.step at hs
  rw [if_neg (by simp [h.passed])] at hs
  cases a with
  | retire n =>
    simp only [Option.ite_none_right_eq_some, Option.some.injEq] at hs
    obtain ⟨⟨hready, hn, _⟩, rfl⟩ := hs
    have hnodes := h.nodes
    rw [hready] at hnodes
    refine ⟨c, d, { h with nodup := ?_, nodes := ?_, upd := by simp }⟩
    · exact List.nodup_append.mpr ⟨h.nodup, by simp, fun x hx y hy he => hn (by rwa [← List.mem_singleton.mp hy, ← he])⟩
    · simp only [Updater.uncounted_called, List.length_append, List.length_singleton]
      simp only [Updater.uncounted_ready] at hnodes
      omega
  | update => exact ⟨c + 1, d, h.update hs⟩
  | run n =>
    simp only [Option.ite_none_right_eq_some, Option.some.injEq] at hs
    obtain ⟨⟨hidle, hn⟩, rfl⟩ := hs
    have hnodes := h.nodes
    have hpos := List.length_pos_of_mem hn
    rw [hidle] at hnodes
    refine ⟨c, d, { h with nodup := h.nodup.erase n, nodes := ?_, cb := by simp, tmp := by simp }⟩
    simp only [Callback.uncounted, List.length_erase_of_mem hn] at hnodes ⊢
    omega
  | callback =>
    obtain ⟨d', hd⟩ := h.callback hs
    exact ⟨c, d', hd⟩

/-- With `RCU_COUNT_ATM` no `assert` of the callback ever fails, and between the calls the counter is
at least the number of nodes that are waiting to be freed, and by less than two blocks more. -/
theorem atomic_backlog (h : Reachable (Steps (Backlog.step true)) .init s) :
    s.failed = false ∧ (s.Quiet → s.pending.length ≤ s.qsblockeds ∧
      s.qsblockeds < s.pending.length + 2 * amortCount) := by
  obtain ⟨c, d, hb⟩ := h.invariant (P := fun s => ∃ c d, Blocks s c d) ⟨0, 0, .init⟩
    fun _ _ _ ⟨_, _, hb⟩ hs => hb.step hs
  refine ⟨hb.passed, fun ⟨hu, hc⟩ => ?_⟩
  have hnodes := hb.nodes
  have hq := hb.counter
  rw [hu, hc] at hnodes
  simp only [Updater.uncounted_ready, Callback.uncounted] at hnodes
  simp only [amortCount]
  omega

/-- One node retired, counted, and freed by its callback. -/
def cycle : List Act := [Act.retire 0, .update, .run 0, .callback, .callback, .callback, .callback, .callback]

theorem atomic_backlog_cycle : ∃ s, exec (Backlog.step true) .init cycle = some s ∧ s.pending = [] ∧ s.cb = .idle ∧
    s.qsblockeds = 16 ∧ s.failed = false ∧ s.pending.length ≤ s.qsblockeds ∧
    s.qsblockeds < s.pending.length + 2 * amortCount := by
  have h : (exec (Backlog.step true) .init cycle).any fun s => s.upd == .ready && s.pending == [] && s.cb == .idle &&
      s.qsblockeds == 16 := by decide
  obtain ⟨s, hs, hp⟩ := Option.any_eq_true _ _ |>.mp h
  simp only [Bool.and_eq_true, beq_iff_eq] at hp
  obtain ⟨⟨⟨hu, hpend⟩, hcb⟩, hq⟩ := hp
  obtain ⟨hf, hb⟩ := atomic_backlog ⟨_, exec_run hs⟩
  exact ⟨s, hs, hpend, hcb, hq, hf, hb ⟨hu, hcb⟩⟩

end atomic

section plain

/-- The condition on the state before a step: neither thread loads for its `++` or `--` between the load
and the store of the other's, and the last `assert` is not reached while a node is retired and not counted
unless another one is still pending. -/
def Apart (s : State) (a : Act) : Prop :=
  (a = .update → s.upd = .called → ∀ n v, s.cb ≠ .store n v) ∧
  (a = .callback → (∃ n tmp, s.cb = .count n tmp) → ∀ v, s.upd ≠ .store v) ∧
  (a = .callback → (∃ n, s.cb = .check n) → s.upd.uncounted ≤ s.pending.length)

/-- The invariant without `RCU_COUNT_ATM`, as long as the steps meet the condition. -/
structure Exact (s : State) : Prop where
  nodup : s.pending.Nodup
  counter : s.qsblockeds + s.upd.uncounted = s.pending.length + s.cb.uncounted
  upd : ∀ v, s.upd = .store v → v = s.qsblockeds ∧ ∀ n w, s.cb ≠ .store n w
  cb : ∀ n v, s.cb = .store n v → v = s.qsblockeds
  tmp : ∀ n tmp, s.cb = .max n tmp → tmp < 2 ^ 63
  rcublockeds : 0 ≤ s.rcublockeds ∧ s.rcublockeds < 2 ^ 63
  passed : s.failed = false

theorem Exact.init : Exact .init := by
  constructor <;> simp [State.init, Callback.uncounted]

theorem Exact.update (h : Exact s) (ha : Apart s .update) (hs : s.update false = some t) : Exact t := by
  have hq := h.counter
  unfold State.update at hs
  split at hs
  case h_1 => contradiction
  case h_2 he =>
    cases hs
    rw [he] at hq
    exact { h with counter := hq, upd := fun v hv => ⟨(Updater.store.inj hv).symm, ha.1 rfl he⟩ }
  case h_3 v he =>
    cases hs
    obtain ⟨rfl, hno⟩ := h.upd v he
    rw [he] at hq
    refine { h with counter := ?_, upd := by simp, cb := fun n w hw => (hno n w hw).elim }
    simp only [Updater.uncounted_ready, Updater.uncounted_store] at hq ⊢
    omega

/-- The callback moves on; the counter that it loads is not negative, and `rcublockeds` does not fall. -/
theorem Exact.callback (h : Exact s) (ha : Apart s .callback) (hs : s.callback false = some t) : Exact t := by
  have hq := h.counter
  unfold State.callback at hs
  split at hs
  case h_1 => contradiction
  case h_2 n he =>
    cases hs
    rw [he] at hq
    simp only [Callback.uncounted] at hq
    have hle := length_pending_le h.nodup
    have hu1 := s.upd.uncounted_le
    have hul := toUlong_counter (x := s.qsblockeds) (by omega) (by omega)
    refine { h with counter := hq, upd := fun v hv => ⟨(h.upd v hv).1, by simp⟩, cb := by simp, tmp := fun n tmp ht => ?_ }
    rw [← (Callback.max.inj ht).2]
    omega
  case h_3 n tmp he =>
    have hlt := h.tmp n tmp he
    rw [he] at hq
    have htmp : 0 ≤ (tmp : Int) ∧ (tmp : Int) < 2 ^ 63 := by omega
    by_cases hr : toUlong s.rcublockeds < tmp
    · rw [if_pos hr, toLong_of_lt hlt] at hs
      cases hs
      exact { h with
        counter := hq, upd := fun v hv => ⟨(h.upd v hv).1, by simp⟩, cb := by simp, tmp := by simp,
        rcublockeds := htmp }
    · rw [if_neg hr] at hs
      cases hs
      exact { h with counter := hq, upd := fun v hv => ⟨(h.upd v hv).1, by simp⟩, cb := by simp, tmp := by simp }
  case h_4 n tmp he =>
    cases hs
    rw [he] at hq
    exact { h with
      counter := hq, upd := fun v hv => (ha.2.1 rfl ⟨n, tmp, he⟩ v hv).elim,
      cb := fun n v hv => (Callback.store.inj hv).2.symm, tmp := by simp }
  case h_5 n v he =>
    cases hs
    have hv := h.cb n v he
    have hno (w : Int) : s.upd ≠ .store w := fun hw => (h.upd w hw).2 n v he
    rw [he] at hq
    refine { h with counter := ?_, upd := fun w hw => (hno w hw).elim, cb := by simp, tmp := by simp }
    simp only [Callback.uncounted] at hq ⊢
    omega
  case h_6 n he =>
    have hc := ha.2.2 rfl ⟨n, he⟩
    rw [he] at hq
    simp only [Callback.uncounted] at hq
    rw [if_pos (by omega)] at hs
    cases hs
    exact { h with counter := hq, upd := fun v hv => ⟨(h.upd v hv).1, by simp⟩, cb := by simp, tmp := by simp }
  case h_7 n he =>
    cases hs
    rw [he] at hq
    exact { h with counter := hq, upd := fun v hv => ⟨(h.upd v hv).1, by simp⟩, cb := by simp, tmp := by simp }

theorem Exact.step (h : Exact s) (ha : Apart s a) (hs : Backlog.step false s a = some t) : Exact t := by
  unfold Backlog.step at hs
  rw [if_neg (by simp [h.passed])] at hs
  have hq := h.counter
  cases a with
  | retire n =>
    simp only [Option.ite_none_right_eq_some, Option.some.injEq] at hs
    obtain ⟨⟨hready, hn, _⟩, rfl⟩ := hs
    rw [hready] at hq
    refine { h with nodup := ?_, counter := ?_, upd := by simp }
    · exact List.nodup_append.mpr ⟨h.nodup, by simp, fun x hx y hy he => hn (by rwa [← List.mem_singleton.mp hy, ← he])⟩
    · simp only [Updater.uncounted_ready, Updater.uncounted_called, List.length_append, List.length_singleton] at hq ⊢
      omega
  | update => exact h.update ha hs
  | run n =>
    simp only [Option.ite_none_right_eq_some, Option.some.injEq] at hs
    obtain ⟨⟨hidle, hn⟩, rfl⟩ := hs
    have hpos := List.length_pos_of_mem hn
    rw [hidle] at hq
    refine { h with nodup := h.nodup.erase n, counter := ?_, upd := fun v hv => ⟨(h.upd v hv).1, by simp⟩, cb := by simp, tmp := by simp }
    simp only [Callback.uncounted, List.length_erase_of_mem hn] at hq ⊢
    omega
  | callback => exact h.callback ha hs

/-- No step lowers `rcublockeds`. -/
theorem Exact.rcublockeds_le (h : Exact s) (hs : Backlog.step false s a = some t) : s.rcublockeds ≤ t.rcublockeds := by
  unfold Backlog.step at hs
  rw [if_neg (by simp [h.passed])] at hs
  cases a with
  | retire | run =>
    simp only [Option.ite_none_right_eq_some, Option.some.injEq] at hs
    obtain ⟨_, rfl⟩ := hs
    exact le_rfl
  | update =>
    simp only [State.update] at hs
    split at hs <;> cases hs <;> exact le_rfl
  | callback =>
    simp only [State.callback] at hs
    split at hs
    case h_3 n tmp he =>
      have hlt := h.tmp n tmp he
      obtain ⟨h₀, hr⟩ := h.rcublockeds
      have hul := toUlong_counter h₀ hr
      have hlong := toLong_of_lt hlt
      split at hs <;> cases hs
      · simp only [hlong]
        omega
      · exact le_rfl
    case h_6 => split at hs <;> cases hs <;> exact le_rfl
    case h_1 => contradiction
    all_goals
      cases hs
      exact le_rfl

/-- Where the two counts do not meet, an `assert` fails exactly if it is reached while the only node not
counted is the one retired last. -/
theorem Exact.failed_iff (h : Exact s) {n : Node} (hc : s.cb = .check n) (hs : Backlog.step false s .callback = some t) :
    t.failed = true ↔ s.pending.length < s.upd.uncounted := by
  have hq := h.counter
  rw [hc] at hq
  simp only [Callback.uncounted] at hq
  simp only [Backlog.step, State.callback, h.passed, hc, Bool.false_eq_true, if_false] at hs
  split at hs <;> cases hs
  · simp only [Bool.false_eq_true, false_iff]
    omega
  · simp only [true_iff]
    omega

/-- Without `RCU_COUNT_ATM`, in a run whose steps all meet the condition: no `assert` fails, between the calls the
counter is the number of nodes that wait to be freed, and `rcublockeds` does not fall at any next step; and an
`assert` that is reached against the condition does fail. -/
theorem plain_backlog {tr : List (Act × State)}
    (h : Run (fun s a t => step false s a = some t ∧ Apart s a) .init tr s) :
    s.failed = false ∧ (s.Quiet → s.qsblockeds = s.pending.length) ∧
    (∀ a t, step false s a = some t → s.rcublockeds ≤ t.rcublockeds) ∧
    ∀ n t, s.cb = .check n → step false s .callback = some t → (t.failed = true ↔ ¬ Apart s .callback) := by
  have he : Exact s := h.invariant .init fun _ _ _ he hs => he.step hs.2 hs.1
  refine ⟨he.passed, fun ⟨hu, hc⟩ => ?_, fun a t hs => he.rcublockeds_le hs, fun n t hc hs => ?_⟩
  · have hq := he.counter
    rw [hu, hc] at hq
    simpa [Callback.uncounted] using hq
  · rw [he.failed_iff hc hs, ← not_le]
    simp [Apart, hc]

/-- The updater counts the node before its callback counts it. -/
theorem plain_backlog_cycle : ∃ tr s, Run (fun s a t => step false s a = some t ∧ Apart s a) .init tr s ∧
    tr.map Prod.fst = [Act.retire 0, .update, .run 0, .callback, .update, .callback, .callback, .callback, .callback,
      .callback] ∧ s.Quiet ∧ s.failed = false ∧ s.qsblockeds = s.pending.length ∧
    ∀ a t, step false s a = some t → s.rcublockeds ≤ t.rcublockeds := by
  have h : Run (fun s a t => step false s a = some t ∧ Apart s a) .init _ _ :=
    .cons (a := .retire 0) ⟨rfl, by simp [Apart]⟩ <| .cons (a := .update) ⟨rfl, by simp [Apart, State.init]⟩ <|
    .cons (a := .run 0) ⟨rfl, by simp [Apart]⟩ <| .cons (a := .callback) ⟨rfl, by simp [Apart]⟩ <|
    .cons (a := .update) ⟨rfl, by simp [Apart]⟩ <| .cons (a := .callback) ⟨rfl, by simp [Apart]⟩ <|
    .cons (a := .callback) ⟨rfl, by simp [Apart]⟩ <| .cons (a := .callback) ⟨rfl, by simp [Apart]⟩ <|
    .cons (a := .callback) ⟨rfl, by simp [Apart]⟩ <| .cons (a := .callback) ⟨rfl, by simp [Apart]⟩ .nil
  obtain ⟨hf, hq, hr, _⟩ := plain_backlog h
  exact ⟨_, _, h, rfl, ⟨rfl, rfl⟩, hf, hq ⟨rfl, rfl⟩, hr⟩

/-- The callback of a node comes before the updater has counted it. -/
def overtaking : List Act := [Act.retire 0, .run 0, .callback, .callback, .callback, .callback, .callback]

theorem assert_fails : ∃ tr s, Run (Steps (step false)) .init tr s ∧ s.failed = true := by
  have h : (exec (step false) .init overtaking).any (·.failed) := by decide
  obtain ⟨s, hs, hf⟩ := Option.any_eq_true _ _ |>.mp h
  exact ⟨_, s, exec_run hs, hf⟩

end plain
end Gecos.Backlog
