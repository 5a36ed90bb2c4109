import Gecos.Table.Writer

/-! list_lock.c over list_writer.c with the SEQLOCK and the GCLOCK macros of lock.h: one word for
each bucket, one shared access a step. -/
namespace Gecos.ListLock
open Library

inductive Macros where
  | seqlock
  | gclock
  deriving DecidableEq

/-- The flags of a build; `ONE_WRITER` is for a single updater. -/
structure Build (υ : Type) where
  macros : Macros
  oneWriter : Bool
  seqlockVld : Bool
  single : oneWriter = true → ∀ u v : υ, u = v

section build
variable {υ : Type} (B : Build υ)

/-- What `lock_rlock` saves of the word, and `lock_runlock` compares. -/
def Build.version (word : Nat) : Nat :=
  match B.macros, B.oneWriter with
  | .gclock, false => word >>> 1
  | _, _ => word

/-- `lock_validate` is `lock_runlock`, but empty for GCLOCK without `ONE_WRITER`. -/
def Build.validates : Bool :=
  match B.macros with
  | .seqlock => true
  | .gclock => B.oneWriter

/-- The value that `lock_wlock` puts in the place of `old`. -/
def Build.marked (old : Nat) : Nat :=
  match B.macros with
  | .seqlock => old + 1
  | .gclock => old ||| 1

end build

/-- A reader in `search(k, &heads[b], &locks[b])`, with `v` for `__loc_val`. -/
inductive Searcher (β : Type) where
  | idle
  | rlock (k : Int) (b : β)
  | head (k : Int) (b : β) (v : Nat)
  | validate (k : Int) (b : β) (v : Nat) (cur : Addr)
  | key (k : Int) (b : β) (v : Nat) (cur : Addr)
  | next (k : Int) (b : β) (v : Nat) (cur : Addr)
  | validateCur (k : Int) (b : β) (v : Nat) (cur : Ptr)
  | runlock (k : Int) (b : β) (v : Nat) (res : Nat)
  | returned (res : Nat)
  deriving DecidableEq

namespace Searcher
variable {β υ : Type} (B : Build υ)

/-- The loop test, and what the loop starts with. -/
def loop (k : Int) (b : β) (v : Nat) : Ptr → Searcher β
  | some cur => if B.validates then .validate k b v cur else .key k b v cur
  | none => .runlock k b v 0

/-- `lock_runlock` goes to `search_retry` unless the word is as it was. -/
def validated (m : Mem β) (k : Int) (b : β) (v : Nat) (x : Searcher β) : Searcher β :=
  if v ≠ B.version (m.locks b) then .rlock k b else x

def step (m : Mem β) : Searcher β → Option (Searcher β)
  | .rlock k b =>
    some (if B.macros = .seqlock ∧ m.locks b % 2 = 1 then .rlock k b else .head k b (B.version (m.locks b)))
  | .head k b v => some (loop B k b v (m.heads b))
  | .validate k b v cur => some (validated B m k b v (.key k b v cur))
  | .key k b v cur =>
    some (if k ≤ m.key cur then .runlock k b v (if m.key cur = k then 1 else 0) else .next k b v cur)
  | .next k b v cur =>
    some (if B.seqlockVld then .validateCur k b v (m.next cur) else loop B k b v (m.next cur))
  | .validateCur k b v cur => some (validated B m k b v (loop B k b v cur))
  | .runlock k b v res => some (validated B m k b v (.returned res))
  | .idle | .returned _ => none

end Searcher

/-- What follows a `lock_wunlock`: the return, or in GCLOCK's `delete` the `free_node` of the unlinked node. -/
inductive Exit where
  | ret (res : Nat)
  | free (n : Addr)
  deriving DecidableEq

/-- An updater in list_writer.c, inside `lock_wlock` with the word loaded or before its assertion,
inside `lock_wunlock` with the word loaded, or past it with a node to free. -/
inductive Updater (β : Type) where
  | list (w : Writer β Unit)
  | take (op : Op) (k : Int) (b : β) (old : Nat)
  | check (op : Op) (k : Int) (b : β)
  | release (b : β) (e : Exit) (old : Nat)
  | free (n : Addr)
  | aborted
  deriving DecidableEq

namespace Updater
variable {β υ : Type} (B : Build υ)

def leave : Exit → Updater β
  | .ret res => .list (.returned res)
  | .free n => .free n

/-- `lock_wunlock`: an increment, atomic unless there is one writer. -/
def unlock [DecidableEq β] (m : Mem β) (b : β) (e : Exit) : Mem β × Updater β :=
  if B.oneWriter then (m, .release b e (m.locks b))
  else ({ m with locks := Function.update m.locks b (m.locks b + 1) }, leave e)

/-- One step of an updater. SEQLOCK frees the unlinked node before it unlocks, GCLOCK after. -/
def step [DecidableEq β] (m : Mem β) : Updater β → Option (Mem β × Updater β)
  | .list (.wlock op k b) => some (m,
    if B.oneWriter then
      match B.macros with
      | .seqlock => .take op k b (m.locks b)
      | .gclock => .list (.loadHead op k b)
    else if m.locks b % 2 = 1 then .list (.wlock op k b) else .take op k b (m.locks b))
  | .take op k b old => some (
    if B.oneWriter then
      ({ m with locks := Function.update m.locks b (old + 1) }, .list (.loadHead op k b))
    else if m.locks b = old then
      ({ m with locks := Function.update m.locks b (B.marked old) }, .check op k b)
    else (m, .list (.wlock op k b)))
  | .check op k b => some (m, if m.locks b % 2 = 1 then .list (.loadHead op k b) else .aborted)
  | .list (.freeNodeLater b n ()) => some (
    match B.macros with
    | .seqlock => ({ m with avail := Function.update m.avail n true }, .list (.wunlock b 1))
    | .gclock => unlock B m b (.free n))
  | .list (.wunlock b res) => some (unlock B m b (.ret res))
  | .release b e old => some ({ m with locks := Function.update m.locks b (old + 1) }, leave e)
  | .free n => some ({ m with avail := Function.update m.avail n true }, .list (.returned 1))
  | .list w => (w.step () m).map fun mw => (mw.1, .list mw.2)
  | .aborted => none

/-- The bucket whose lock the next step of an updater takes. -/
def takes [DecidableEq β] (m : Mem β) : Updater β → Option β
  | .list (.wlock _ _ b) => if B.oneWriter ∧ B.macros = .gclock then some b else none
  | .take _ _ b old => if B.oneWriter ∨ m.locks b = old then some b else none
  | _ => none

/-- The bucket whose lock the next step of an updater releases. -/
def gives : Updater β → Option β
  | .list (.wunlock b _) => if B.oneWriter then none else some b
  | .list (.freeNodeLater b _ _) => if B.macros = .seqlock ∨ B.oneWriter then none else some b
  | .release b _ _ => some b
  | _ => none

def begin (x : Updater β) (op : Op) (k : Int) (b : β) : Option (Updater β) :=
  match x with
  | .list w => (w.begin op k b).map .list
  | _ => none

def alloc (m : Mem β) (x : Updater β) (n : Addr) : Option (Mem β × Updater β) :=
  match x with
  | .list w => (w.alloc m n).map fun mw => (mw.1, .list mw.2)
  | _ => none

/-- Where the updater stands in list_writer.c. -/
def writer : Updater β → Writer β Unit
  | .list w => w
  | .take op k b _ => .wlock op k b
  | .check op k b => .loadHead op k b
  | .release b (.ret res) _ => .wunlock b res
  | .release b (.free n) _ => .freeNodeLater b n ()
  | .free _ | .aborted => .returned 1

/-- The bucket between whose `lock_wlock` and `lock_wunlock` the updater is. -/
def inside (x : Updater β) : Option β := x.writer.inside

end Updater

/-- `took u b` and `gave u b` count how often updater `u` took and released the lock of `b`. -/
structure State (β υ ρ : Type) where
  mem : Mem β
  upd : υ → Updater β
  rd : ρ → Searcher β
  took : υ → β → Nat
  gave : υ → β → Nat

inductive Act (β υ ρ : Type) where
  | begin (u : υ) (op : Op) (k : Int) (b : β)
  | update (u : υ)
  | alloc (u : υ) (n : Addr)
  | call (r : ρ) (k : Int) (b : β)
  | read (r : ρ)

def State.init (β υ ρ : Type) : State β υ ρ :=
  ⟨.init β, fun _ => .list .ready, fun _ => .idle, fun _ _ => 0, fun _ _ => 0⟩

variable {β υ ρ : Type} [DecidableEq β] [DecidableEq υ] [DecidableEq ρ]

/-- One more for `b`. -/
def count (c : υ → β → Nat) (u : υ) : Option β → υ → β → Nat
  | some b => Function.update c u (Function.update (c u) b (c u b + 1))
  | none => c

def step (B : Build υ) (s : State β υ ρ) : Act β υ ρ → Option (State β υ ρ)
  | .begin u op k b => ((s.upd u).begin op k b).map fun x => { s with upd := Function.update s.upd u x }
  | .update u => ((s.upd u).step B s.mem).map fun mx =>
    { s with
      mem := mx.1
      upd := Function.update s.upd u mx.2
      took := count s.took u ((s.upd u).takes B s.mem)
      gave := count s.gave u ((s.upd u).gives B) }
  | .alloc u n => ((s.upd u).alloc s.mem n).map fun mx =>
    { s with mem := mx.1, upd := Function.update s.upd u mx.2 }
  | .call r k b => match s.rd r with
    | .idle | .returned _ => some { s with rd := Function.update s.rd r (.rlock k b) }
    | _ => none
  | .read r => ((s.rd r).step B s.mem).map fun x => { s with rd := Function.update s.rd r x }

end Gecos.ListLock
