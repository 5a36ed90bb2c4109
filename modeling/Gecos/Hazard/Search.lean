import Gecos.Hazard.Accounts
import Gecos.Table.WriterStep

/-! list_hp.c and hp.c over list_writer.c: one updater and any number of readers, one shared
load or store a step. -/
namespace Gecos.ListHp
open Library Hazard

/-- The next shared access of `search`, named after what it does. -/
inductive Pc where
  | head
  | protect
  | check
  | next
  | key
  | keyAgain
  deriving DecidableEq

/-- The local variables of `search`; `off` is the slot it writes next. -/
structure Locals (β : Type) where
  prev : Link β
  cur : Addr
  next : Ptr
  off : Bool
  deriving DecidableEq

inductive Searcher (β : Type) where
  | idle
  | run (pc : Pc) (k : Int) (b : β) (l : Locals β)
  | returned (res : Nat)
  deriving DecidableEq

namespace Searcher
variable {β : Type}

/-- The loop test, with `cur` set from `p`. Nothing marks pointers, so `clean_pointer` keeps them. -/
def loop (k : Int) (b : β) (l : Locals β) : Ptr → Searcher β
  | some n => .run .protect k b { l with cur := n }
  | none => .returned 0

/-- One shared load of `search`; the store to the hazard slot is `State.read`'s. -/
def step (m : Mem β) : Searcher β → Option (Searcher β)
  | .run .head k b l => some (loop k b { l with prev := .head b } (m.heads b))
  | .run .protect k b l => some (.run .check k b l)
  | .run .check k b l =>
    if m.load l.prev ≠ some l.cur then some (.run .head k b l) else some (.run .next k b l)
  | .run .next k b l => some (.run .key k b { l with next := m.next l.cur })
  | .run .key k b l =>
    if k ≤ m.key l.cur then some (.run .keyAgain k b l)
    else some (loop k b { l with prev := .next l.cur, off := !l.off } l.next)
  | .run .keyAgain k _ l => some (.returned (if m.key l.cur = k then 1 else 0))
  | .idle | .returned _ => none

end Searcher

/-- The number of threads, at most `MAX_THREAD`, and which of them is the updater. -/
structure Config where
  nbthreads : Nat
  updater : Nat
  atMost : nbthreads ≤ maxThread
  isThread : updater < nbthreads

structure State (β : Type) where
  smr : Smr
  mem : Mem β
  upd : Unit → Writer β Unit
  rd : Nat → Searcher β

/-- A call of the updater, its next step in list_writer.c, the node that `new_node` returns to
it, a step of `scan`, its `free_node`; a call of a reader, its next step. -/
inductive Act (β : Type) where
  | begin (op : Op) (k : Int) (b : β)
  | update
  | alloc (n : Addr)
  | scan
  | free (junk : Ptr)
  | call (t : Nat) (k : Int) (b : β) (l : Locals β)
  | read (t : Nat)

namespace State
variable {β : Type}

def init (β : Type) : State β := ⟨.init, .init β, fun _ => .ready, fun _ => .idle⟩

def put (s : State β) (mw : Mem β × Writer β Unit) : State β :=
  { s with mem := mw.1, upd := Function.update s.upd () mw.2 }

variable [DecidableEq β]

/-- One step of the updater outside `scan`. The lock macros do nothing for a single updater. -/
def update (cfg : Config) (s : State β) : Option (State β) :=
  match s.upd () with
  | .wlock op k b => some (s.put (s.mem, .loadHead op k b))
  | .wunlock _ res => some (s.put (s.mem, .returned res))
  | .freeNodeLater b n () =>
    some { s.put (s.mem, .wunlock b 1) with smr := (s.smr.retire cfg.nbthreads cfg.updater n).logRetired n }
  | w => (w.step () s.mem).map s.put

/-- `free_node(cur)` inside `scan` makes `cur` available to `new_node`. -/
def free (s : State β) (junk : Ptr) : Option (State β) :=
  (s.smr.free junk).map fun (smr, cur) =>
    { s with
      smr := smr.logFreed cur
      mem := { s.mem with avail := Function.update s.mem.avail cur true } }

/-- One step of the reader on thread `t`, which stores to its hazard slot before it validates. -/
def read (s : State β) (t : Nat) : Option (State β) :=
  ((s.rd t).step s.mem).map fun x =>
    { s with
      rd := Function.update s.rd t x
      smr := match s.rd t with
        | .run .protect _ _ l => s.smr.publish (slot t l.off) (some l.cur)
        | _ => s.smr }

end State

variable {β : Type} [DecidableEq β]

/-- The updater is either inside `scan` or in list_writer.c; the readers are the other threads. -/
def step (cfg : Config) (s : State β) : Act β → Option (State β)
  | .begin op k b => ((s.upd ()).begin op k b).map fun w => s.put (s.mem, w)
  | .update => if s.smr.call.isNone then s.update cfg else none
  | .alloc n => ((s.upd ()).alloc s.mem n).map s.put
  | .scan => s.smr.scan.map fun smr => { s with smr }
  | .free junk => s.free junk
  | .call t k b l =>
    if t < cfg.nbthreads ∧ t ≠ cfg.updater then
      match s.rd t with
      | .idle | .returned _ =>
        some { s with rd := Function.update s.rd t (.run .head k b { l with off := false }) }
      | .run .. => none
    else none
  | .read t => s.read t

end Gecos.ListHp
