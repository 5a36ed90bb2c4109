import Gecos.Versioned.Retire

/-! list_sgecos.c: one updater, any number of readers, and one counter for each bucket, kept
in its lock word. Its `insert` and `delete` take no lock and make no test for an empty bucket;
otherwise they access memory as those of list_writer.c do, and `wunlock` is their return. -/
namespace Gecos.ListSgecos
open Library

inductive Pc where
  | lock
  | head
  | curKey
  | next
  | lockAgain
  deriving DecidableEq

structure Locals where
  cur : Addr
  next : Ptr
  lgc : Nat
  curKey : Int
  deriving DecidableEq

inductive Searcher (β : Type) where
  | idle
  | run (pc : Pc) (k : Int) (b : β) (l : Locals)
  | returned (res : Nat)
  deriving DecidableEq

namespace Searcher
variable {β : Type}

/-- `while (cur)` with `cur` set from `p`. -/
def loop (k : Int) (b : β) (l : Locals) : Ptr → Searcher β
  | some n => .run .curKey k b { l with cur := n }
  | none => .returned 0

def step (m : Mem β) : Searcher β → Option (Searcher β)
  | .run .lock k b l => some (.run .head k b { l with lgc := m.locks b })
  | .run .head k b l => some (loop k b l (m.heads b))
  | .run .curKey k b l => some (.run .next k b { l with curKey := m.key l.cur })
  | .run .next k b l => some (.run .lockAgain k b { l with next := m.next l.cur })
  | .run .lockAgain k b l =>
    if l.lgc ≠ m.locks b then some (.run .lock k b l)
    else if k ≤ l.curKey then some (.returned (if l.curKey = k then 1 else 0))
    else some (loop k b l l.next)
  | .idle | .returned _ => none

end Searcher

inductive Act (β ρ : Type) where
  | begin (op : Op) (k : Int) (b : β)
  | update
  | alloc (n : Addr)
  | call (r : ρ) (k : Int) (b : β) (l : Locals)
  | read (r : ρ)

variable {β ρ : Type} [DecidableEq β]

def begin (w : Writer β Bump) (op : Op) (k : Int) (b : β) : Option (Writer β Bump) :=
  match w with
  | .ready | .returned _ => some (.loadHead op k b)
  | _ => none

/-- One step of the updater: after the unlink `(*lock)++`, then `free_node`. -/
def update (m : Mem β) : Writer β Bump → Option (Mem β × Writer β Bump)
  | .wunlock _ res => some (m, .returned res)
  | .freeNodeLater b n .load => some (m, .freeNodeLater b n (.store (m.locks b)))
  | .freeNodeLater b n (.store g) =>
    some ({ m with locks := Function.update m.locks b (g + 1) }, .freeNodeLater b n .free)
  | .freeNodeLater b n .free =>
    some ({ m with avail := Function.update m.avail n true }, .wunlock b 1)
  | w => w.step .load m

structure State (β ρ : Type) where
  shared : Shared β Unit
  rd : ρ → Searcher β

def State.init (β ρ : Type) : State β ρ := ⟨.init β Unit, fun _ => .idle⟩

variable [DecidableEq ρ]

def step (s : State β ρ) : Act β ρ → Option (State β ρ)
  | .begin op k b => (begin (s.shared.upd ()) op k b).map fun w =>
    { s with shared := s.shared.put () (s.shared.mem, w) }
  | .update => (update s.shared.mem (s.shared.upd ())).map fun mw =>
    { s with shared := s.shared.put () mw }
  | .alloc n => ((s.shared.upd ()).alloc s.shared.mem n).map fun mw =>
    { s with shared := s.shared.put () mw }
  | .call r k b l => match s.rd r with
    | .idle | .returned _ => some { s with rd := Function.update s.rd r (.run .lock k b l) }
    | .run .. => none
  | .read r => ((s.rd r).step s.shared.mem).map fun x =>
    { s with rd := Function.update s.rd r x }

end Gecos.ListSgecos
