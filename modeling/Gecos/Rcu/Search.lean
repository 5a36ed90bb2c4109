import Gecos.Table.Writer
import Mathlib.Data.Fintype.Basic

/-! list_rcu.c and rcu.c over list_writer.c: one updater, any number of readers, and the callbacks
that liburcu runs, one shared access a step. -/
namespace Gecos.ListRcu
open Library

/-- A reader in `search(k, _, _)`: at `rcu_read_lock`, at a load, or at `rcu_read_unlock`. -/
inductive Searcher (β : Type) where
  | idle
  | lock (k : Int) (b : β)
  | head (k : Int) (b : β)
  | key (k : Int) (cur : Addr)
  | next (k : Int) (cur : Addr)
  | unlock (res : Nat)
  | returned (res : Nat)
  deriving DecidableEq

namespace Searcher
variable {β : Type}

/-- The loop test. -/
def loop (k : Int) : Ptr → Searcher β
  | some cur => .key k cur
  | none => .unlock 0

def step (m : Mem β) : Searcher β → Option (Searcher β)
  | .lock k b => some (.head k b)
  | .head k b => some (loop k (m.heads b))
  | .key k cur =>
    some (if k ≤ m.key cur then .unlock (if m.key cur = k then 1 else 0) else .next k cur)
  | .next k cur => some (loop k (m.next cur))
  | .unlock res => some (.returned res)
  | .idle | .returned _ => none

/-- Between `rcu_read_lock` and `rcu_read_unlock`. -/
def inSection : Searcher β → Bool
  | .head .. | .key .. | .next .. | .unlock _ => true
  | .idle | .lock .. | .returned _ => false

/-- The node that the reader stands on. -/
def on : Searcher β → Option Addr
  | .key _ cur | .next _ cur => some cur
  | _ => none

end Searcher

/-- `pending n` says that `n->head` was passed to `call_rcu` and its callback is yet to run, and
`waits n` which of the read-side critical sections that were open then are open still. -/
structure State (β ρ : Type) where
  mem : Mem β
  upd : Unit → Writer β Unit
  rd : ρ → Searcher β
  pending : Addr → Bool
  waits : Addr → ρ → Bool

/-- A call of the updater, its next step, the node that `new_node` returns to it; the callback of
a node; a call of a reader, its next step. -/
inductive Act (β ρ : Type) where
  | begin (op : Op) (k : Int) (b : β)
  | update
  | alloc (n : Addr)
  | callback (n : Addr)
  | call (r : ρ) (k : Int) (b : β)
  | read (r : ρ)

namespace State
variable {β ρ : Type}

def init (β ρ : Type) : State β ρ :=
  ⟨.init β, fun _ => .ready, fun _ => .idle, fun _ => false, fun _ _ => false⟩

def put (s : State β ρ) (mw : Mem β × Writer β Unit) : State β ρ :=
  { s with mem := mw.1, upd := Function.update s.upd () mw.2 }

variable [DecidableEq β]

/-- One step of the updater. The lock macros do nothing for a single updater; `free_node_later` is
`call_rcu(&node->head, free_node_cb)`. -/
def update (s : State β ρ) : Option (State β ρ) :=
  match s.upd () with
  | .wlock op k b => some (s.put (s.mem, .loadHead op k b))
  | .wunlock _ res => some (s.put (s.mem, .returned res))
  | .freeNodeLater b n () => some { s.put (s.mem, .wunlock b 1) with
      pending := Function.update s.pending n true
      waits := Function.update s.waits n fun r => (s.rd r).inSection }
  | w => (w.step () s.mem).map s.put

/-- `free_node_cb`, which liburcu runs once for a `call_rcu`, and not before every section that was
open then has closed. -/
def callback [Fintype ρ] (s : State β ρ) (n : Addr) : Option (State β ρ) :=
  if s.pending n = true ∧ ∀ r, s.waits n r = false then
    some { s with
      mem := { s.mem with avail := Function.update s.mem.avail n true }
      pending := Function.update s.pending n false }
  else none

variable [DecidableEq ρ]

/-- One step of a reader; `rcu_read_unlock` closes its section. -/
def read (s : State β ρ) (r : ρ) : Option (State β ρ) :=
  ((s.rd r).step s.mem).map fun x =>
    { s with
      rd := Function.update s.rd r x
      waits := fun n => Function.update (s.waits n) r (s.waits n r && x.inSection) }

end State

variable {β ρ : Type} [DecidableEq β] [DecidableEq ρ] [Fintype ρ]

def step (s : State β ρ) : Act β ρ → Option (State β ρ)
  | .begin op k b => ((s.upd ()).begin op k b).map fun w => s.put (s.mem, w)
  | .update => s.update
  | .alloc n => ((s.upd ()).alloc s.mem n).map s.put
  | .callback n => s.callback n
  | .call r k b => match s.rd r with
    | .idle | .returned _ => some { s with rd := Function.update s.rd r (.lock k b) }
    | _ => none
  | .read r => s.read r

end Gecos.ListRcu
