import Gecos.Versioned.Retire

/-! list_gecos.c over list_writer.c: `search` with its two conditional variants, the
`free_node_later` of the build, and the interleaving of any number of readers and updaters. -/
namespace Gecos
open Library

/-- `ONE_WRITER` makes `lock_wlock` empty, which is meant for a single updater. Without it
the bucket lock is a POSIX spin lock. -/
structure Locking (υ : Type) where
  oneWriter : Bool
  single : oneWriter = true → ∀ u v : υ, u = v

/-- One updater in a build with `ONE_WRITER`. -/
def Locking.solo : Locking Unit := ⟨true, fun _ _ _ => rfl⟩

namespace ListGecos

/-- The conditional compilation of `search`: `GECOS_B`, `GECOS_R`, or neither. -/
inductive Variant where
  | plain
  | back
  | relink
  deriving DecidableEq

/-- The next shared access of `search`, named after what it loads. -/
inductive Pc where
  | head
  | curGc
  | headAgain
  | curKey
  | next
  | nextGc
  | nextAgain
  | curGcAgain
  | prevGcAgain
  deriving DecidableEq

/-- The local variables of `search`. C leaves them indeterminate when the call starts;
`prevSet` is not a variable of the program, it records that this call has assigned `prev`. -/
structure Locals where
  cur : Addr
  next : Ptr
  prev : Ptr
  curGc : Nat
  nextGc : Nat
  prevGc : Nat
  curKey : Int
  prevSet : Bool
  deriving DecidableEq

inductive Searcher (β : Type) where
  | idle
  | run (pc : Pc) (k : Int) (b : β) (l : Locals)
  | returned (res : Nat)
  deriving DecidableEq

namespace Searcher
variable {β : Type}

/-- `while (cur)` with `cur` set from `p`. -/
def loop (k : Int) (b : β) (l : Locals) : Ptr → Searcher β
  | some n => .run .curKey k b { l with cur := n }
  | none => .returned 0

/-- One shared load of `search`. A dereference of `NULL` has no step. -/
def step (v : Variant) (m : Mem β) : Searcher β → Option (Searcher β)
  | .run .head k b l => match m.heads b with
    | none => some (.returned 0)
    | some n => some (.run .curGc k b { l with cur := n })
  | .run .curGc k b l => some (.run .headAgain k b { l with curGc := m.gc l.cur })
  | .run .headAgain k b l =>
    if some l.cur ≠ m.heads b then some (.run .head k b l) else some (loop k b l (some l.cur))
  | .run .curKey k b l => some (.run .next k b { l with curKey := m.key l.cur })
  | .run .next k b l => match m.next l.cur with
    | none => some (.run .nextAgain k b { l with next := none })
    | some n => some (.run .nextGc k b { l with next := some n })
  | .run .nextGc k b l => match l.next with
    | none => none
    | some n => some (.run .nextAgain k b { l with nextGc := m.gc n })
  | .run .nextAgain k b l =>
    if l.next ≠ m.next l.cur then
      match v with
      | .plain => some (.run .head k b l)
      | .back | .relink => some (.run .next k b l)
    else some (.run .curGcAgain k b l)
  | .run .curGcAgain k b l =>
    if l.curGc ≠ m.gc l.cur then
      match v with
      | .back => some (.run .prevGcAgain k b l)
      | .plain | .relink => some (.run .head k b l)
    else if k ≤ l.curKey then some (.returned (if l.curKey = k then 1 else 0))
    else some (loop k b
      { l with prev := some l.cur, prevGc := l.curGc, curGc := l.nextGc, prevSet := true } l.next)
  | .run .prevGcAgain k b l => match l.prev with
    | none => none
    | some p =>
      if l.prevGc = m.gc p then some (loop k b { l with curGc := l.prevGc } (some p))
      else some (.run .head k b l)
  | .idle | .returned _ => none

end Searcher

/-- A label: a call of an updater, its next step, the node that `new_node` returns to it, a
call of a reader (with whatever its locals hold), its next step. -/
inductive Act (β υ ρ : Type) where
  | begin (u : υ) (op : Op) (k : Int) (b : β)
  | update (u : υ)
  | alloc (u : υ) (n : Addr)
  | call (r : ρ) (k : Int) (b : β) (l : Locals)
  | read (r : ρ)

variable {β υ ρ : Type} [DecidableEq β] [DecidableEq υ]

/-- One step of an updater: the lock macros, `free_node_later` (`n->gc++`, then `free_node`),
and the accesses of list_writer.c. -/
def update (cfg : Locking υ) (m : Mem β) : Writer β Bump → Option (Mem β × Writer β Bump)
  | .wlock op k b =>
    if cfg.oneWriter then some (m, .loadHead op k b)
    else if m.locks b = 0 then
      some ({ m with locks := Function.update m.locks b 1 }, .loadHead op k b)
    else none
  | .wunlock b res =>
    if cfg.oneWriter then some (m, .returned res)
    else some ({ m with locks := Function.update m.locks b 0 }, .returned res)
  | .freeNodeLater b n .load => some (m, .freeNodeLater b n (.store (m.gc n)))
  | .freeNodeLater b n (.store g) =>
    some ({ m with gc := Function.update m.gc n (g + 1) }, .freeNodeLater b n .free)
  | .freeNodeLater b n .free =>
    some ({ m with avail := Function.update m.avail n true }, .wunlock b 1)
  | w => w.step .load m

/-- The whole program: the shared part and every reader. -/
structure State (β υ ρ : Type) where
  shared : Shared β υ
  rd : ρ → Searcher β

def State.init (β υ ρ : Type) : State β υ ρ := ⟨.init β υ, fun _ => .idle⟩

variable [DecidableEq ρ]

def step (cfg : Locking υ) (v : Variant) (s : State β υ ρ) : Act β υ ρ → Option (State β υ ρ)
  | .begin u op k b => ((s.shared.upd u).begin op k b).map fun w =>
    { s with shared := s.shared.put u (s.shared.mem, w) }
  | .update u => (update cfg s.shared.mem (s.shared.upd u)).map fun mw =>
    { s with shared := s.shared.put u mw }
  | .alloc u n => ((s.shared.upd u).alloc s.shared.mem n).map fun mw =>
    { s with shared := s.shared.put u mw }
  | .call r k b l => match s.rd r with
    | .idle | .returned _ =>
      some { s with rd := Function.update s.rd r (.run .head k b { l with prevSet := false }) }
    | .run .. => none
  | .read r => ((s.rd r).step v s.shared.mem).map fun x =>
    { s with rd := Function.update s.rd r x }

end ListGecos
end Gecos
