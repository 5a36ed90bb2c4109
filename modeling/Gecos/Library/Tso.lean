import Mathlib.Data.List.Infix
import Mathlib.Logic.Function.Basic

/-! Total store order as on x86: every thread has a FIFO buffer of stores that memory does not have yet.
A thread reads memory as its own pending stores change it. -/
namespace Gecos.Library
variable {M W T γ : Type*}

/-- Memory, and the pending stores of each thread, oldest first. -/
structure Tso (M W T : Type*) where
  mem : M
  buf : T → List W

/-- What a program puts between two accesses. -/
inductive Instr where
  | compilerBarrier
  | sfence
  | mfence
  | locked
  deriving DecidableEq

/-- A compiler barrier is no instruction, and `sfence` orders stores only, which are in order anyway;
the other two wait until the buffer is empty. -/
def Instr.passes : Instr → List W → Bool
  | .compilerBarrier, _ | .sfence, _ => true
  | .mfence, buf | .locked, buf => buf.isEmpty

namespace Tso
variable (apply : W → M → M)

/-- Memory once the stores of `l` have reached it. -/
def after (m : M) (l : List W) : M := l.foldl (fun m w => apply w m) m

/-- Memory as thread `t` reads it. -/
def view (s : Tso M W T) (t : T) : M := after apply s.mem (s.buf t)

/-- The memories to come while the buffer of thread `t` drains and the others do not. -/
def Ahead (s : Tso M W T) (t : T) (m : M) : Prop := ∃ l, l <+: s.buf t ∧ m = after apply s.mem l

variable {apply}

@[simp] theorem after_nil (m : M) : after apply m [] = m := rfl

@[simp] theorem after_cons (m : M) (w : W) (l : List W) : after apply m (w :: l) = after apply (apply w m) l := rfl

theorem after_append (m : M) (l l' : List W) : after apply m (l ++ l') = after apply (after apply m l) l' :=
  List.foldl_append

/-- What no store of the list changes. -/
theorem after_same (g : M → γ) {l : List W} (h : ∀ w ∈ l, ∀ m, g (apply w m) = g m) (m : M) :
    g (after apply m l) = g m := by
  induction l generalizing m with
  | nil => rfl
  | cons w l ih =>
    rw [after_cons, ih fun w hw => h w (by simp [hw])]
    exact h w (by simp) m

/-- A change of memory that commutes with every store of the list. -/
theorem after_comm (f : M → M) {l : List W} (h : ∀ w ∈ l, ∀ m, apply w (f m) = f (apply w m)) (m : M) :
    after apply (f m) l = f (after apply m l) := by
  induction l generalizing m with
  | nil => rfl
  | cons w l ih =>
    rw [after_cons, after_cons, h w (by simp)]
    exact ih (fun w hw => h w (by simp [hw])) _

theorem ahead_mem (s : Tso M W T) (t : T) : s.Ahead apply t s.mem := ⟨[], List.nil_prefix, rfl⟩

variable [DecidableEq T]

/-- Thread `t` stores. -/
def issue (s : Tso M W T) (t : T) (w : W) : Tso M W T :=
  { s with buf := Function.update s.buf t (s.buf t ++ [w]) }

variable (apply) in
/-- The oldest pending store of thread `t` reaches memory. -/
def drain (s : Tso M W T) (t : T) : Option (Tso M W T) :=
  match s.buf t with
  | [] => none
  | w :: l => some { mem := apply w s.mem, buf := Function.update s.buf t l }

variable {s s' : Tso M W T} {t u : T} {w : W}

theorem drain_eq (h : s.drain apply t = some s') :
    ∃ w l, s.buf t = w :: l ∧ s' = { mem := apply w s.mem, buf := Function.update s.buf t l } := by
  unfold drain at h
  split at h <;> cases h
  exact ⟨_, _, by assumption, rfl⟩

/-- A thread sees its own stores at once. -/
theorem view_issue : (s.issue t w).view apply t = apply w (s.view apply t) := by
  simp [view, issue, after_append]

/-- Draining is invisible to the thread whose stores drain. -/
theorem view_drain (h : s.drain apply t = some s') : s'.view apply t = s.view apply t := by
  obtain ⟨w, l, hb, rfl⟩ := drain_eq h
  simp [view, hb]

theorem Ahead.of_drain {m : M} (h : s.drain apply t = some s') (ha : s'.Ahead apply t m) : s.Ahead apply t m := by
  obtain ⟨w, l, hb, rfl⟩ := drain_eq h
  obtain ⟨l', hl, rfl⟩ := ha
  simp only [Function.update_self] at hl
  refine ⟨w :: l', ?_, rfl⟩
  rw [hb]
  exact (List.prefix_cons_inj w).mpr hl

end Tso
end Gecos.Library
