import Gecos.Table.WriterStep

/-! rc.c, list_rc.c and list_writer.c: one updater and any number of readers, one shared load,
store, compare-and-swap or fetch-and-add a step. -/
namespace Gecos.ListRc
open Library

/-- Where `lfrc_refcnt_dec(p)` stands. `stack` are the nodes whose `free_node` waits for the
recursive call to return, the innermost first. -/
inductive Dec where
  | check (stack : List Addr) (p : Addr)
  | xadd (stack : List Addr) (p : Addr)
  | gcLoad (stack : List Addr) (p : Addr)
  | gcStore (stack : List Addr) (p : Addr) (gc : Nat)
  | next (stack : List Addr) (p : Addr)
  | free (stack : List Addr) (p : Addr)
  deriving DecidableEq

namespace Dec
variable {β : Type}

/-- The call for `p`, which returns at once for a null pointer: to the `free_node` that waits
on the stack, if any. -/
def call (stack : List Addr) : Ptr → Option Dec
  | some p => some (.check stack p)
  | none => match stack with
    | [] => none
    | q :: stack => some (.free stack q)

/-- One shared access, `none` in second place where the outermost call returns. A failed
assertion stops the program. -/
def step (m : Mem β) : Dec → Option (Mem β × Option Dec)
  | .check stack p => if 0 < m.rc p then some (m, some (.xadd stack p)) else none
  | .xadd stack p =>
    some ({ m with rc := Function.update m.rc p (m.rc p - 1) },
      if m.rc p = 1 then some (.gcLoad stack p) else call stack none)
  | .gcLoad stack p => some (m, some (.gcStore stack p (m.gc p)))
  | .gcStore stack p gc => some ({ m with gc := Function.update m.gc p (gc + 1) }, some (.next stack p))
  | .next stack p => some (m, call (p :: stack) (m.next p))
  | .free stack p => some ({ m with avail := Function.update m.avail p true }, call stack none)

end Dec

/-- A reader in `search(k, _, _)`: in `safe_read(l)`, where a link that is not a bucket's head
belongs to the node `cur` that the reader holds; in the loop body at `cur`; or releasing it. -/
inductive Searcher (β : Type) where
  | idle
  | load (k : Int) (l : Link β)
  | loadRc (k : Int) (l : Link β) (q : Addr)
  | cas (k : Int) (l : Link β) (q : Addr) (old : Nat)
  | recheck (k : Int) (l : Link β) (q : Addr)
  | undo (k : Int) (l : Link β) (d : Dec)
  | pass (k : Int) (next : Ptr) (d : Dec)
  | key (k : Int) (cur : Addr)
  | keyAgain (k : Int) (cur : Addr)
  | release (res : Nat) (d : Dec)
  | returned (res : Nat)
  deriving DecidableEq

namespace Searcher
variable {β : Type}

/-- The loop test. `lfrc_refcnt_dec(NULL)` after the loop does nothing. -/
def loop (k : Int) : Ptr → Searcher β
  | some cur => .key k cur
  | none => .returned 0

/-- `safe_read(l)` returns `q`, whereupon `cur`, if there is one, is released. -/
def got (k : Int) (l : Link β) (q : Ptr) : Searcher β :=
  match l with
  | .head _ => loop k q
  | .next cur => .pass k q (.check [] cur)

/-- One shared access. Nothing marks pointers, so `safe` is `q`. -/
def step (m : Mem β) : Searcher β → Option (Mem β × Searcher β)
  | .load k l => some (m, match m.load l with
    | none => got k l none
    | some q => .loadRc k l q)
  | .loadRc k l q => some (m, if m.rc q = 0 then .load k l else .cas k l q (m.rc q))
  | .cas k l q old =>
    if m.rc q = old then some ({ m with rc := Function.update m.rc q (old + 1) }, .recheck k l q)
    else some (m, .loadRc k l q)
  | .recheck k l q => some (m, if m.load l = some q then got k l (some q) else .undo k l (.check [] q))
  | .undo k l d => (d.step m).map fun (m, d) => (m, d.elim (.load k l) (.undo k l))
  | .pass k next d => (d.step m).map fun (m, d) => (m, d.elim (loop k next) (.pass k next))
  | .key k cur =>
    some (m, if k ≤ m.key cur then .keyAgain k cur else .load k (.next cur))
  | .keyAgain k cur => some (m, .release (if m.key cur = k then 1 else 0) (.check [] cur))
  | .release res d => (d.step m).map fun (m, d) => (m, d.elim (.returned res) (.release res))
  | .idle | .returned _ => none

end Searcher

/-- Where `free_node_later(_, n)` stands. -/
inductive Later where
  | loadNext
  | inc (s : Addr)
  | dec (d : Dec)
  deriving DecidableEq

/-- One shared access of `free_node_later(_, n)`. -/
def Later.step {β : Type} (m : Mem β) (n : Addr) : Later → Option (Mem β × Option Later)
  | .loadNext => some (m, some (match m.next n with
    | none => .dec (.check [] n)
    | some s => .inc s))
  | .inc s => some ({ m with rc := Function.update m.rc s (m.rc s + 1) }, some (.dec (.check [] n)))
  | .dec d => (d.step m).map fun (m, d) => (m, d.map .dec)

/-- The `lfrc_refcnt_dec` that a reader is in. -/
def Searcher.dec {β : Type} : Searcher β → Option Dec
  | .undo _ _ d | .pass _ _ d | .release _ d => some d
  | _ => none

/-- The `lfrc_refcnt_dec` that the updater is in. -/
def decOf {β : Type} : Writer β Later → Option Dec
  | .freeNodeLater _ _ (.dec d) => some d
  | _ => none

/-- The node that the next step of `lfrc_refcnt_dec` passes to `free_node`. -/
def freeing : Option Dec → Option Addr
  | some (.free _ p) => some p
  | _ => none

/-- Ghost: the nodes that `delete` unlinked and that have not been freed since. -/
structure State (β ρ : Type) where
  mem : Mem β
  upd : Unit → Writer β Later
  rd : ρ → Searcher β
  unlinked : Addr → Bool

/-- A call of the updater, its next step, the node that `new_node` returns to it; a call of a
reader, its next step. -/
inductive Act (β ρ : Type) where
  | begin (op : Op) (k : Int) (b : β)
  | update
  | alloc (n : Addr)
  | call (r : ρ) (k : Int) (b : β)
  | read (r : ρ)

namespace State
variable {β ρ : Type}

def init (β ρ : Type) : State β ρ := ⟨.init β, fun _ => .ready, fun _ => .idle, fun _ => false⟩

def put (s : State β ρ) (mw : Mem β × Writer β Later) : State β ρ :=
  { s with mem := mw.1, upd := Function.update s.upd () mw.2 }

/-- The record of unlinked nodes after a step of `d`. -/
def forget (s : State β ρ) (d : Option Dec) : Addr → Bool :=
  (freeing d).elim s.unlinked (Function.update s.unlinked · false)

variable [DecidableEq β]

/-- One step of the updater. The lock macros do nothing for a single updater. -/
def update (s : State β ρ) : Option (State β ρ) :=
  match s.upd () with
  | .wlock op k b => some (s.put (s.mem, .loadHead op k b))
  | .wunlock _ res => some (s.put (s.mem, .returned res))
  | .handOver k b prev cur new =>
    some (s.put ({ s.mem with rc := Function.update s.mem.rc new (s.mem.rc new + 1) }, .storeKey k b prev cur new))
  | .freeNodeLater b n r => (r.step s.mem n).map fun (m, r) =>
    { s.put (m, r.elim (.wunlock b 1) (.freeNodeLater b n)) with unlinked := s.forget (decOf (s.upd ())) }
  | .unlink k b prev cur next => ((Writer.unlink k b prev cur next).step .loadNext s.mem).map fun mw =>
    { s.put mw with unlinked := Function.update s.unlinked cur true }
  | w => (w.step .loadNext s.mem).map s.put

/-- `init_new_node` up to its fetch-and-add. -/
def alloc (s : State β ρ) (n : Addr) : Option (State β ρ) :=
  match s.upd () with
  | .initNewNode k b prev cur =>
    if s.mem.avail n then
      some (s.put ({ s.mem with avail := Function.update s.mem.avail n false }, .handOver k b prev cur n))
    else none
  | _ => none

variable [DecidableEq ρ]

def read (s : State β ρ) (r : ρ) : Option (State β ρ) :=
  ((s.rd r).step s.mem).map fun (m, x) =>
    { s with mem := m, rd := Function.update s.rd r x, unlinked := s.forget (s.rd r).dec }

end State

variable {β ρ : Type} [DecidableEq β] [DecidableEq ρ]

def step (s : State β ρ) : Act β ρ → Option (State β ρ)
  | .begin op k b => ((s.upd ()).begin op k b).map fun w => s.put (s.mem, w)
  | .update => s.update
  | .alloc n => s.alloc n
  | .call r k b => match s.rd r with
    | .idle | .returned _ => some { s with rd := Function.update s.rd r (.load k (.head b)) }
    | _ => none
  | .read r => s.read r

end Gecos.ListRc
