import Gecos.Allocation.Allocator
import Gecos.Library.Run
import Gecos.Mrow.Hash

/-! `delete_allocator` and `allocator_thread_free` of allocator_malloc.c, after any calls of `insert`, `delete` and
`hash_init` by any threads: which nodes `free_nodes` walks over. -/
namespace Gecos.Mrow.Source
variable {β : Type} [DecidableEq β]

/-- `insert` of the file. -/
def insert : Source → Mem β → Int → Nat → β → Addr → Option (Outcome β)
  | .listWriter => ListWriter.insert
  | .listSgecos => ListSgecos.insert

/-- `delete` of the file. -/
def delete : Source → Mem β → Int → Nat → β → Option (Outcome β)
  | .listWriter => ListWriter.delete
  | .listSgecos => ListSgecos.delete

variable {m : Mem β} {k : Int} {fuel : Nat} {b : β} {new : Addr}

theorem inserts (src : Source) (ht : m.Table) (hlen : (m.chain b).length < fuel) :
    m.Inserts k b new (src.insert m k fuel b new) := by
  cases src with
  | listWriter => exact ht.writer_insert hlen
  | listSgecos => exact ht.sgecos_insert hlen

theorem deletes (src : Source) (ht : m.Table) (hlen : (m.chain b).length < fuel) :
    m.Deletes k b (src.delete m k fuel b) := by
  cases src with
  | listWriter => exact ht.writer_delete hlen
  | listSgecos => exact ht.sgecos_delete hlen

end Gecos.Mrow.Source

namespace Gecos.Teardown
open Library Mrow

/-- The `__thread` variables of the allocator. -/
structure Local where
  lfl : Ptr
  lflTail : Ptr
  lcnt : Nat

/-- The table and the allocator. `obtained` are the nodes that `calloc` returned, `retired` those that `delete`
unlinked and that a `free_node_later` which does not free at once keeps for a later `free_node`. -/
structure State (β τ : Type) where
  mem : Mem β
  mrNext : Addr → Ptr
  freelist : Ptr
  locals : τ → Local
  obtained : List Addr
  retired : List Addr

/-- A call by thread `t`; for an `insert` with the node that `calloc` returns if it is asked, for a `delete` whether
its node is freed `later`, which `free` does. `hashInit` is `hash_init` up to the `insert` calls of `POPULATE`. -/
inductive Call (β τ : Type) where
  | hashInit
  | insert (t : τ) (k : Int) (b : β) (fresh : Addr)
  | delete (t : τ) (later : Bool) (k : Int) (b : β)
  | free (t : τ) (n : Addr)

namespace State
variable {β τ : Type}

def init (β τ : Type) : State β τ := ⟨.init β, fun _ => none, none, fun _ => ⟨none, none, 0⟩, [], []⟩

/-- The allocator as thread `t` sees it. -/
def pool (s : State β τ) (t : τ) : Pool :=
  ⟨s.mrNext, s.freelist, (s.locals t).lfl, (s.locals t).lflTail, (s.locals t).lcnt⟩

/-- `heads` and `locks` are new and zeroed. -/
def hashInit (s : State β τ) : State β τ := { s with mem := { s.mem with heads := fun _ => none, locks := fun _ => 0 } }

section calls
variable [DecidableEq τ]

def putPool (s : State β τ) (t : τ) (a : Pool) : State β τ :=
  { s with
    mrNext := a.mrNext, freelist := a.freelist, locals := Function.update s.locals t ⟨a.lfl, a.lflTail, a.lcnt⟩ }

/-- `free_node(n)` -/
def freeNode (s : State β τ) (t : τ) (n : Addr) : State β τ := s.putPool t ((s.pool t).freeNode n)

/-- The nodes that are obtained once `new_node` has returned. -/
def obtain (s : State β τ) (t : τ) (fresh : Addr) : List Addr :=
  if (s.pool t).getFree.2 = none then fresh :: s.obtained else s.obtained

variable [DecidableEq β] (src : Source)

/-- `insert(k, &heads[b], _)`, which calls `new_node` unless the key is there. No bucket has more nodes than were
obtained. -/
def insert (s : State β τ) (t : τ) (k : Int) (b : β) (fresh : Addr) : Option (State β τ) :=
  let r := (s.pool t).newNode fresh
  -- it is the pool that says which node is available
  let m := s.mem.freeNode r.2
  (src.insert m k (s.obtained.length + 1) b r.2).bind fun o =>
    if o.res = 0 then some s
    else if (s.pool t).getFree.2 = none ∧ fresh ∈ s.obtained then none
    else some { s.putPool t r.1 with mem := o.mem, obtained := s.obtain t fresh }

/-- `delete(k, &heads[b], _)` -/
def delete (s : State β τ) (t : τ) (later : Bool) (k : Int) (b : β) : Option (State β τ) :=
  (src.delete s.mem k (s.obtained.length + 1) b).map fun o =>
    let s' := { s with mem := o.mem }
    if later then { s' with retired := o.freed ++ s.retired } else o.freed.foldl (freeNode · t) s'

end calls
end State

/-- `free_nodes(p, f)`: neither `free` nor `free_node` writes a `next` field. `none` is a walk that takes more than
`fuel` nodes. -/
def freeNodes {γ : Type} (next : Addr → Ptr) (f : γ → Addr → γ) : Nat → Ptr → γ → Option γ
  | _, none, c => some c
  | 0, some _, _ => none
  | fuel + 1, some n, c => freeNodes next f fuel (next n) (f c n)

namespace State
variable {β τ : Type}

/-- The nodes that `free_nodes(p, _)` walks over. -/
def walk (s : State β τ) (fuel : Nat) (p : Ptr) : Option (List Addr) :=
  freeNodes s.mem.next (fun visited n => visited ++ [n]) fuel p []

/-- What `delete_allocator` passes to `free`. -/
def deleteAllocator (s : State β τ) (fuel : Nat) : Option (List Addr) := s.walk fuel s.freelist

/-- `allocator_thread_free` by thread `t`. -/
def allocatorThreadFree (s : State β τ) (t : τ) (fuel : Nat) : Option Pool :=
  (freeNodes s.mem.next Pool.freeNode fuel (s.locals t).lfl (s.pool t)).map fun a => { a with lfl := none, lflTail := none }

/-- Both walks end. -/
def WalksEnd (s : State β τ) : Prop :=
  (∃ fuel, (s.deleteAllocator fuel).isSome) ∧ ∀ t, ∃ fuel, (s.allocatorThreadFree t fuel).isSome

/-- `delete_allocator` frees each node of the global list once, and no other. -/
def DeletesList (s : State β τ) : Prop :=
  ∃ fuel freed, s.deleteAllocator fuel = some freed ∧ freed.Nodup ∧ (∀ n, n ∈ freed ↔ Reach s.mrNext s.freelist n) ∧
    ∀ n ∈ freed, (∀ b, ¬ Reach s.mem.next (s.mem.heads b) n) ∧ (∀ t, ¬ Reach s.mrNext (s.locals t).lfl n) ∧ n ∉ s.retired

/-- `allocator_thread_free` walks over each node of the thread's list once and over no other, and leaves it on one
of the two lists once. -/
def FreesList (s : State β τ) (t : τ) : Prop :=
  (∃ fuel visited, s.walk fuel (s.locals t).lfl = some visited ∧ visited.Nodup ∧
    ∀ n, n ∈ visited ↔ Reach s.mrNext (s.locals t).lfl n) ∧
  ∃ fuel a l g, s.allocatorThreadFree t fuel = some a ∧ a.Lists l g ∧
    ∀ n, Reach s.mrNext (s.locals t).lfl n → n ∈ l ∨ n ∈ g

/-- The global list is empty, or it is one node with a null `next`. -/
def GlobalOk (s : State β τ) : Prop :=
  s.freelist = none ∨ ∃ h, s.freelist = some h ∧ s.mrNext h = none ∧ s.mem.next h = none

/-- The thread's list is empty, or it is one node with a null `next`, which `lfl_tail` does not miss, and the next
`free_node` flushes. -/
def LocalOk (s : State β τ) (t : τ) : Prop :=
  (s.locals t).lfl = none ∨
  ∃ h, (s.locals t).lfl = some h ∧ s.mrNext h = none ∧ s.mem.next h = none ∧ amortFreeOn ≤ (s.locals t).lcnt + 1 ∧
    ((s.locals t).lflTail = none ∨ (s.locals t).lflTail = some h)

/-- A flush by thread `t`, if the next `free_node` makes one, writes to no node of another thread's list. -/
def TailApart (s : State β τ) (t : τ) : Prop :=
  ∀ tail, (s.locals t).lflTail = some tail → amortFreeOn ≤ (s.locals t).lcnt + 1 →
    ∀ u ≠ t, ¬ Reach s.mrNext (s.locals u).lfl tail

/-- The condition on the state before a call that frees. -/
def Clean (s : State β τ) : Call β τ → Prop
  | .delete t later k b => later = false → s.mem.Member b k → s.TailApart t
  | .free t _ => s.TailApart t
  | .hashInit | .insert .. => True

end State

/-- Only thread `t` makes calls, and it frees at once. -/
def Call.Prompt {β τ : Type} (t : τ) : Call β τ → Prop
  | .insert u .. => u = t
  | .delete u later .. => u = t ∧ later = false
  | .free .. => False
  | .hashInit => True

variable {β τ : Type} [DecidableEq β] [DecidableEq τ] (src : Source)

def step (s : State β τ) : Call β τ → Option (State β τ)
  | .hashInit => some s.hashInit
  | .insert t k b fresh => s.insert src t k b fresh
  | .delete t later k b => s.delete src t later k b
  | .free t n => if n ∈ s.retired then some ({ s with retired := s.retired.erase n }.freeNode t n) else none

def CleanStep (s : State β τ) (x : Call β τ) (s' : State β τ) : Prop := step src s x = some s' ∧ s.Clean x

section invariant
variable {src} {s s' : State β τ} {own : τ → List Addr} {g l' g' : List Addr} {t u : τ} {k : Int} {b : β} {n p new fresh : Addr}
  {prev : Link β} {l₁ l₂ : List Addr} {x : Call β τ}

/-- Of no bucket, and not waiting to be freed. -/
structure Loose (s : State β τ) (n : Addr) : Prop where
  outside : ∀ b, n ∉ s.mem.chain b
  retired : n ∉ s.retired
  obtained : n ∈ s.obtained

/-- The chains of the buckets, of the threads, `own`, and of the global list, `g`, share no node. -/
structure Inv (s : State β τ) (own : τ → List Addr) (g : List Addr) : Prop where
  table : s.mem.Table
  linked : ∀ b, ∀ n ∈ s.mem.chain b, n ∈ s.obtained
  ends : Ends s.mem.next
  lfl : ∀ t, Chain s.mrNext (s.locals t).lfl (own t)
  freelist : Chain s.mrNext s.freelist g
  apart : ∀ t, ∀ n ∈ own t, n ∉ g ∧ ∀ u ≠ t, n ∉ own u
  ownLoose : ∀ t, ∀ n ∈ own t, Loose s n
  freeLoose : ∀ n ∈ g, Loose s n
  retired : ∀ n ∈ s.retired, (∀ b, n ∉ s.mem.chain b) ∧ n ∈ s.obtained
  nodup : s.retired.Nodup

omit [DecidableEq β] [DecidableEq τ] in
theorem Inv.init : Inv (.init β τ) (fun _ => []) [] where
  table := .init
  linked b n hn := by
    rw [show (State.init β τ).mem.chain b = [] from Mem.chain_eq rfl] at hn
    cases hn
  ends n := ⟨[n], rfl, rfl⟩
  lfl _ := rfl
  freelist := rfl
  apart _ _ hn := nomatch hn
  ownLoose _ _ hn := nomatch hn
  freeLoose _ hn := nomatch hn
  retired _ hn := nomatch hn
  nodup := .nil

omit [DecidableEq β] [DecidableEq τ] in
theorem Inv.lists (h : Inv s own g) (t : τ) : (s.pool t).Lists (own t) g :=
  ⟨h.lfl t, h.freelist, fun n hn => (h.apart t n hn).1⟩

omit [DecidableEq β] [DecidableEq τ] in
theorem Inv.length_lt (h : Inv s own g) (b : β) : (s.mem.chain b).length < s.obtained.length + 1 :=
  Nat.lt_succ_of_le (List.subperm_of_subset (h.table.ends b).nodup (h.linked b)).length_le

omit [DecidableEq β] [DecidableEq τ] in
theorem Inv.hashInit (h : Inv s own g) : Inv s.hashInit own g := by
  have hc (b : β) : s.hashInit.mem.chain b = [] := Mem.chain_eq rfl
  have hno (n : Addr) (b : β) : n ∉ s.hashInit.mem.chain b := by simp [hc]
  have hloose (n : Addr) (hn : Loose s n) : Loose s.hashInit n := ⟨hno n, hn.retired, hn.obtained⟩
  refine ⟨⟨fun b => ?_, fun b => ?_, fun b b' n hn => absurd hn (hno n b), fun b n hn => absurd hn (hno n b)⟩,
    fun b n hn => absurd hn (hno n b), h.ends, h.lfl, h.freelist, h.apart, fun t n hn => hloose n (h.ownLoose t n hn),
    fun n hn => hloose n (h.freeLoose n hn), fun n hn => ⟨hno n, (h.retired n hn).2⟩, h.nodup⟩
  · rw [hc]
    rfl
  · rw [hc]
    exact .nil

/-- `p` is on no list, and may be put on one. -/
structure Freeable (s : State β τ) (own : τ → List Addr) (g : List Addr) (p : Addr) : Prop extends Loose s p where
  notOwn : ∀ t, p ∉ own t
  notFree : p ∉ g

omit [DecidableEq τ] in
/-- `delete` takes a node out of its bucket. -/
theorem Inv.unlink (h : Inv s own g) (hp : s.mem.Place b k prev l₁ (p :: l₂)) (lk : β → Nat) :
    Inv { s with mem := { s.mem.unlink prev p with locks := lk }.freeNode p } own g ∧
      Freeable { s with mem := { s.mem.unlink prev p with locks := lk }.freeNode p } own g p := by
  obtain ⟨ht, _, _⟩ := h.table.unlink hp
  have hmem := h.table.mem_unlink hp
  have hb : p ∈ s.mem.chain b := by simp [hp.split]
  have hloose (n : Addr) (hn : Loose s n) :
      Loose { s with mem := { s.mem.unlink prev p with locks := lk }.freeNode p } n :=
    ⟨fun b' hb' => hn.outside b' ((hmem b' n).mp hb').1, hn.retired, hn.obtained⟩
  have hin (n : Addr) (hn : Loose s n) : n ≠ p := by
    rintro rfl
    exact hn.outside b hb
  have hlk : ({ s.mem.unlink prev p with locks := lk } : Mem β).Table := ⟨ht.ends, ht.sorted, ht.apart, ht.inUse⟩
  refine ⟨⟨hlk.freeNode fun b' hb' => ((hmem b' p).mp hb').2 rfl,
    fun b' n hn => h.linked b' n ((hmem b' n).mp hn).1, h.table.unlink_ends hp h.ends, h.lfl, h.freelist, h.apart,
    fun t n hn => hloose n (h.ownLoose t n hn), fun n hn => hloose n (h.freeLoose n hn),
    fun n hn => ⟨fun b' hb' => (h.retired n hn).1 b' ((hmem b' n).mp hb').1, (h.retired n hn).2⟩, h.nodup⟩,
    ⟨fun b' hb' => ((hmem b' p).mp hb').2 rfl, fun hr => (h.retired p hr).1 b hb, h.linked b p hb⟩,
    fun t hm => hin p (h.ownLoose t p hm) rfl, fun hm => hin p (h.freeLoose p hm) rfl⟩

omit [DecidableEq τ] in
/-- `insert` puts a node into its bucket. -/
theorem Inv.link (h : Inv s own g) (hf : Freeable s own g new) (hp : s.mem.Place b k prev l₁ l₂)
    (hk : ∀ x ∈ l₂, k < s.mem.key x) : Inv { s with mem := s.mem.linkNew k prev l₂.head? new } own g := by
  obtain ⟨ht, _, _⟩ := h.table.linkNew hp hk hf.outside
  have hmem := h.table.mem_linkNew hp hk hf.outside
  have hout (n : Addr) (hn : ∀ b, n ∉ s.mem.chain b) (hne : n ≠ new) (b' : β) :
      n ∉ (s.mem.linkNew k prev l₂.head? new).chain b' := by
    rw [hmem]
    rintro (hb | ⟨_, rfl⟩)
    · exact hn b' hb
    · exact hne rfl
  have hloose (n : Addr) (hn : Loose s n) (hne : n ≠ new) : Loose { s with mem := s.mem.linkNew k prev l₂.head? new } n :=
    ⟨hout n hn.outside hne, hn.retired, hn.obtained⟩
  refine ⟨ht, fun b' n hn => ?_, h.table.linkNew_ends hp hf.outside h.ends, h.lfl, h.freelist, h.apart,
    fun t n hn => hloose n (h.ownLoose t n hn) (ne_of_mem_of_not_mem hn (hf.notOwn t)),
    fun n hn => hloose n (h.freeLoose n hn) (ne_of_mem_of_not_mem hn hf.notFree),
    fun n hn => ⟨hout n (h.retired n hn).1 (ne_of_mem_of_not_mem hn hf.retired), (h.retired n hn).2⟩, h.nodup⟩
  rcases (hmem b' n).mp hn with hn | ⟨_, rfl⟩
  · exact h.linked b' n hn
  · exact hf.obtained

omit [DecidableEq β] in
theorem Loose.putPool (h : Loose s n) (t : τ) (a : Pool) : Loose (s.putPool t a) n := ⟨h.outside, h.retired, h.obtained⟩

omit [DecidableEq β] in
/-- The lists of the other threads are as they were. -/
theorem Inv.putPool {a : Pool} (h : Inv s own g) (ha : a.Lists l' g')
    (hin : ∀ n, n ∈ l' ∨ n ∈ g' → Loose s n ∧ ∀ u ≠ t, n ∉ own u)
    (hmr : ∀ u ≠ t, ∀ n ∈ own u, a.mrNext n = s.mrNext n) :
    Inv (s.putPool t a) (Function.update own t l') g' := by
  refine ⟨h.table, h.linked, h.ends, ?_, ha.freelist, ?_, ?_, fun n hn => (hin n (.inr hn)).1.putPool t a, h.retired,
    h.nodup⟩
  · refine (Function.forall_update_iff own fun u l => Chain a.mrNext ((s.putPool t a).locals u).lfl l).mpr
      ⟨?_, fun u hu => ?_⟩
    · simpa [State.putPool] using ha.lfl
    · simpa [State.putPool, hu] using (h.lfl u).congr (hmr u hu)
  · refine (Function.forall_update_iff own fun u l => ∀ n ∈ l, n ∉ g' ∧ ∀ v ≠ u, n ∉ Function.update own t l' v).mpr
      ⟨fun n hn => ⟨ha.apart n hn, fun v hv => ?_⟩, fun u hu n hn => ⟨fun hg => (hin n (.inr hg)).2 u hu hn, ?_⟩⟩
    · rw [Function.update_of_ne hv]
      exact (hin n (.inl hn)).2 v hv
    · refine (Function.forall_update_iff own fun v l => v ≠ u → n ∉ l).mpr ⟨fun _ hl => ?_, fun v _ => (h.apart u n hn).2 v⟩
      exact (hin n (.inl hl)).2 u hu hn
  · refine (Function.forall_update_iff own fun _ l => ∀ n ∈ l, Loose (s.putPool t a) n).mpr ⟨fun n hn => ?_, fun u hu n hn => ?_⟩
    · exact (hin n (.inl hn)).1.putPool t a
    · exact (h.ownLoose u n hn).putPool t a

omit [DecidableEq β] in
/-- `free_node` puts its node on a list. -/
theorem Inv.freeNode (h : Inv s own g) (hp : Freeable s own g p) (ht : s.TailApart t) :
    ∃ l' g', Inv (s.freeNode t p) (Function.update own t l') g' ∧ (l' ++ g').Sublist (p :: (own t ++ g)) ∧
      (((s.freeNode t p).locals t).lflTail = none ∨
        g' = g ∧ ((s.freeNode t p).locals t).lflTail = some ((s.pool t).tail p)) := by
  obtain ⟨l', g', ha, hsub, htail⟩ := (h.lists t).freeNode_sublist (hp.notOwn t) hp.notFree
  have hin (n : Addr) (hn : n ∈ l' ∨ n ∈ g') : Loose s n ∧ ∀ u ≠ t, n ∉ own u := by
    have hm : n = p ∨ n ∈ own t ∨ n ∈ g := by simpa using hsub.subset (List.mem_append.mpr hn)
    rcases hm with rfl | hm | hm
    · exact ⟨hp.toLoose, fun u _ => hp.notOwn u⟩
    · exact ⟨h.ownLoose t n hm, (h.apart t n hm).2⟩
    · exact ⟨h.freeLoose n hm, fun u _ hu => (h.apart u n hu).1 hm⟩
  have hmr (u : τ) (hu : u ≠ t) (n : Addr) (hn : n ∈ own u) : ((s.pool t).freeNode p).mrNext n = s.mrNext n := by
    have hnp : n ≠ p := ne_of_mem_of_not_mem hn (hp.notOwn u)
    refine Pool.freeNode_mrNext hnp fun hc htl => ?_
    cases hlt : (s.locals t).lflTail with
    | none => exact absurd (show n = p by simpa [Pool.tail, State.pool, hlt] using htl) hnp
    | some x =>
      obtain rfl : n = x := by simpa [Pool.tail, State.pool, hlt] using htl
      exact absurd (Chain.reach_iff (h.lfl u) |>.mpr hn) (ht n hlt hc u hu)
  exact ⟨l', g', h.putPool ha hin hmr, hsub, by simpa [State.freeNode, State.putPool] using htail⟩

omit [DecidableEq β] [DecidableEq τ] in
/-- A node of no list may become available again. -/
theorem Inv.hand (h : Inv s own g) (hp : Freeable s own g p) :
    Inv { s with mem := s.mem.freeNode p } own g ∧ Freeable { s with mem := s.mem.freeNode p } own g p := by
  have hloose (n : Addr) (hn : Loose s n) : Loose { s with mem := s.mem.freeNode p } n :=
    ⟨hn.outside, hn.retired, hn.obtained⟩
  exact ⟨⟨h.table.freeNode hp.outside, h.linked, h.ends, h.lfl, h.freelist, h.apart,
    fun t n hn => hloose n (h.ownLoose t n hn), fun n hn => hloose n (h.freeLoose n hn), h.retired, h.nodup⟩,
    hloose p hp.toLoose, hp.notOwn, hp.notFree⟩

omit [DecidableEq β] [DecidableEq τ] in
/-- `calloc` returns a node that is nowhere. -/
theorem Inv.gain (h : Inv s own g) (hf : fresh ∉ s.obtained) :
    Inv { s with obtained := fresh :: s.obtained } own g ∧ Freeable { s with obtained := fresh :: s.obtained } own g fresh := by
  have hloose (n : Addr) (hn : Loose s n) : Loose { s with obtained := fresh :: s.obtained } n :=
    ⟨hn.outside, hn.retired, List.mem_cons_of_mem _ hn.obtained⟩
  exact ⟨⟨h.table, fun b n hn => List.mem_cons_of_mem _ (h.linked b n hn), h.ends, h.lfl, h.freelist, h.apart,
    fun t n hn => hloose n (h.ownLoose t n hn), fun n hn => hloose n (h.freeLoose n hn),
    fun n hn => ⟨(h.retired n hn).1, List.mem_cons_of_mem _ (h.retired n hn).2⟩, h.nodup⟩,
    ⟨fun b hb => hf (h.linked b _ hb), fun hr => hf (h.retired _ hr).2, List.mem_cons_self⟩,
    fun t hn => hf (h.ownLoose t _ hn).obtained, fun hn => hf (h.freeLoose _ hn).obtained⟩

omit [DecidableEq β] in
theorem Loose.freeable {a : Pool} (h : Loose s p) (hl : p ∉ l') (hg : p ∉ g') (hother : ∀ u ≠ t, p ∉ own u) :
    Freeable (s.putPool t a) (Function.update own t l') g' p :=
  ⟨h.putPool t a, (Function.forall_update_iff own fun _ l => p ∉ l).mpr ⟨hl, hother⟩, hg⟩

omit [DecidableEq β] in
/-- `new_node` takes a node from the lists, or gets one that was on none. -/
theorem Inv.newNode {a : Pool} (h : Inv s own g) (hf : ¬ ((s.pool t).getFree.2 = none ∧ fresh ∈ s.obtained))
    (hr : (s.pool t).newNode fresh = (a, new)) :
    ∃ l' g', Inv { s.putPool t a with obtained := s.obtain t fresh } (Function.update own t l') g' ∧
      Freeable { s.putPool t a with obtained := s.obtain t fresh } (Function.update own t l') g' new ∧
      (l' ++ g').Sublist (own t ++ g) ∧ (g' = g ∨ g' = []) := by
  rcases (h.lists t).getFree with ⟨hl, hg, he⟩ | ⟨n, a', l', g', he, ha, hmr, hcase⟩
  · have hfresh : fresh ∉ s.obtained := fun hm => hf ⟨by rw [he], hm⟩
    simp only [Pool.newNode, he, Prod.mk.injEq] at hr
    obtain ⟨rfl, rfl⟩ := hr
    have hlists := h.lists t
    rw [hl, hg] at hlists
    have hinv := h.putPool (t := t) (a := { s.pool t with mrNext := Function.update (s.pool t).mrNext fresh none })
      (hlists.frame (by simp)) (by simp) fun u _ n hn =>
        Function.update_of_ne (ne_of_mem_of_not_mem (h.ownLoose u n hn).obtained hfresh) _ _
    have hob : s.obtain t fresh = fresh :: s.obtained := by simp [State.obtain, he]
    obtain ⟨hgain, hfree⟩ := hinv.gain hfresh
    rw [hob]
    exact ⟨[], [], hgain, hfree, by simp, .inr rfl⟩
  · simp only [Pool.newNode, he, Prod.mk.injEq] at hr
    obtain ⟨rfl, rfl⟩ := hr
    have hob : s.obtain t fresh = s.obtained := by simp [State.obtain, he]
    have hperm : own t ++ g = n :: (l' ++ g') := by
      rcases hcase with ⟨hl, hg⟩ | ⟨hl, hg, hg'⟩
      · rw [hl, hg, List.cons_append]
      · rw [hl, hg, hg', List.nil_append, List.append_nil]
    have hin (x : Addr) (hx : x ∈ own t ++ g) : Loose s x ∧ ∀ u ≠ t, x ∉ own u := by
      rcases List.mem_append.mp hx with hx | hx
      · exact ⟨h.ownLoose t x hx, (h.apart t x hx).2⟩
      · exact ⟨h.freeLoose x hx, fun u _ hu => (h.apart u x hu).1 hx⟩
    have hnd : (own t ++ g).Nodup :=
      List.nodup_append.mpr ⟨(h.lfl t).nodup, h.freelist.nodup, fun x hx y hy he => (h.apart t x hx).1 (he ▸ hy)⟩
    rw [hperm] at hin hnd
    obtain ⟨hn, _⟩ := List.nodup_cons.mp hnd
    have hinv := h.putPool ha (fun x hx => hin x (by simpa using .inr hx)) fun u _ x _ => congrFun hmr x
    obtain ⟨hloose, hother⟩ := hin n (by simp)
    have hfree := hloose.freeable (a := a') (fun hm : n ∈ l' => hn (by simp [hm])) (fun hm : n ∈ g' => hn (by simp [hm])) hother
    rw [hob]
    refine ⟨l', g', hinv, hfree, hperm ▸ List.sublist_cons_self _ _, ?_⟩
    rcases hcase with ⟨_, hg⟩ | ⟨_, _, hg⟩
    · exact .inl hg
    · exact .inr hg

theorem Inv.insert (h : Inv s own g) (hs : s.insert src t k b fresh = some s') :
    s' = s ∨
    ∃ l' g', Inv s' (Function.update own t l') g' ∧ (l' ++ g').Sublist (own t ++ g) ∧ (g' = g ∨ g' = []) ∧
      (s'.locals t).lflTail = (s.locals t).lflTail ∧ s'.retired = s.retired ∧
      ∀ n, n ∈ l' ∨ n ∈ g' → s'.mem.next n = s.mem.next n := by
  unfold State.insert at hs
  generalize hr : (s.pool t).newNode fresh = r at hs
  obtain ⟨a, new⟩ := r
  obtain ⟨o, ho, hs⟩ := Option.bind_eq_some_iff.mp hs
  by_cases hres : o.res = 0
  · rw [if_pos hres] at hs
    exact .inl (Option.some.inj hs).symm
  · by_cases hf : (s.pool t).getFree.2 = none ∧ fresh ∈ s.obtained
    · rw [if_neg hres, if_pos hf] at hs
      cases hs
    · rw [if_neg hres, if_neg hf] at hs
      obtain ⟨l', g', hinv, hfree, hsub, hg⟩ := h.newNode hf hr
      obtain ⟨hinv', hfree'⟩ := hinv.hand hfree
      have htable : (s.mem.freeNode new).Table := hinv'.table
      have hins : Mem.Inserts _ k b new _ := src.inserts htable (h.length_lt b)
      rw [ho] at hins
      rcases hins with ⟨_, he⟩ | ⟨hm, p, l₁, l₂, hst, he⟩
      · cases he
        exact absurd rfl hres
      · rw [if_pos (by simp [Mem.freeNode])] at he
        cases he
        cases hs
        have hk := hst.slot htable hm
        refine .inr ⟨l', g', hinv'.link hfree' hst.place hk, hsub, hg, ?_, rfl, fun n hn => ?_⟩
        · have hl := congrArg (fun r => r.1.lflTail) hr
          simpa [State.putPool, State.pool] using hl.symm
        · have hloose : Loose _ n := hn.elim (fun hn => hinv'.ownLoose t n (by simpa using hn)) (hinv'.freeLoose n)
          have hne : n ≠ new := by
            rintro rfl
            exact hn.elim (fun hn => hfree'.notOwn t (by simpa using hn)) hfree'.notFree
          exact hst.place.linkNew_next (hloose.outside b) hne

/-- What a `delete` leaves, its node unlinked but not freed. -/
theorem Inv.delete {later : Bool} (h : Inv s own g) (hs : s.delete src t later k b = some s') :
    s' = s ∨
    s.mem.Member b k ∧ ∃ s₁ p, Inv s₁ own g ∧ Freeable s₁ own g p ∧ s₁.mrNext = s.mrNext ∧ s₁.locals = s.locals ∧
      s₁.retired = s.retired ∧ (∀ q, s.mem.next p = some q → ∃ b, q ∈ s.mem.chain b) ∧
      (∀ n, n = p ∨ (∀ b, n ∉ s.mem.chain b) → s₁.mem.next n = s.mem.next n) ∧
      s' = if later then { s₁ with retired := p :: s₁.retired } else s₁.freeNode t p := by
  obtain ⟨o, ho, rfl⟩ := Option.map_eq_some_iff.mp hs
  have hdel := src.deletes (k := k) h.table (h.length_lt b)
  rw [ho] at hdel
  rcases hdel with ⟨_, he⟩ | ⟨prev, l₁, p, l₂, lk, hst, hk, he⟩
  · cases he
    refine .inl ?_
    cases later <;> rfl
  · cases he
    obtain ⟨hinv, hfree⟩ := h.unlink hst.place lk
    have hnd := (h.table.ends b).nodup
    rw [hst.place.split] at hnd
    refine .inr ⟨(hst.member_iff h.table).mp hk, _, p, hinv, hfree, rfl, rfl, rfl, fun q hq => ?_, fun n hn => ?_, rfl⟩
    · rw [h.table.next_eq hst.place.split] at hq
      exact ⟨b, by simp [hst.place.split, List.mem_of_mem_head? hq]⟩
    · refine hst.place.unlink_next fun hm => ?_
      rcases hn with rfl | hn
      · exact (List.nodup_append.mp hnd).2.2 n hm n (by simp) rfl
      · exact hn b (by simp [hst.place.split, hm])

omit [DecidableEq β] [DecidableEq τ] in
/-- An unlinked node is kept for a later `free_node`, -/
theorem Inv.retire (h : Inv s own g) (hp : Freeable s own g p) : Inv { s with retired := p :: s.retired } own g := by
  have hloose (n : Addr) (hn : Loose s n) (hne : n ≠ p) : Loose { s with retired := p :: s.retired } n :=
    ⟨hn.outside, List.not_mem_cons_of_ne_of_not_mem hne hn.retired, hn.obtained⟩
  refine ⟨h.table, h.linked, h.ends, h.lfl, h.freelist, h.apart,
    fun t n hn => hloose n (h.ownLoose t n hn) (ne_of_mem_of_not_mem hn (hp.notOwn t)),
    fun n hn => hloose n (h.freeLoose n hn) (ne_of_mem_of_not_mem hn hp.notFree), fun n hn => ?_,
    List.nodup_cons.mpr ⟨hp.retired, h.nodup⟩⟩
  rcases List.mem_cons.mp hn with rfl | hn
  · exact ⟨hp.outside, hp.obtained⟩
  · exact h.retired n hn

omit [DecidableEq β] [DecidableEq τ] in
/-- and then freed. -/
theorem Inv.unretire (h : Inv s own g) (hn : n ∈ s.retired) :
    Inv { s with retired := s.retired.erase n } own g ∧ Freeable { s with retired := s.retired.erase n } own g n := by
  have hloose (x : Addr) (hx : Loose s x) : Loose { s with retired := s.retired.erase n } x :=
    ⟨hx.outside, fun hr => hx.retired (List.mem_of_mem_erase hr), hx.obtained⟩
  exact ⟨⟨h.table, h.linked, h.ends, h.lfl, h.freelist, h.apart, fun t x hx => hloose x (h.ownLoose t x hx),
    fun x hx => hloose x (h.freeLoose x hx), fun x hx => h.retired x (List.mem_of_mem_erase hx), h.nodup.erase n⟩,
    ⟨(h.retired n hn).1, h.nodup.not_mem_erase, (h.retired n hn).2⟩, fun t hm => (h.ownLoose t n hm).retired hn,
    fun hm => (h.freeLoose n hm).retired hn⟩

theorem Inv.step (h : Inv s own g) (hs : CleanStep src s x s') : ∃ own' g', Inv s' own' g' := by
  obtain ⟨hs, hc⟩ := hs
  cases x with
  | hashInit =>
    cases hs
    exact ⟨own, g, h.hashInit⟩
  | insert t k b fresh =>
    rcases h.insert hs with rfl | ⟨l', g', hinv, _⟩
    · exact ⟨own, g, h⟩
    · exact ⟨_, g', hinv⟩
  | delete t later k b =>
    rcases h.delete hs with rfl | ⟨hm, s₁, p, hinv, hfree, hmr, hlo, _, _, _, rfl⟩
    · exact ⟨own, g, h⟩
    · cases later with
      | true => exact ⟨own, g, hinv.retire hfree⟩
      | false =>
        have ht : s₁.TailApart t := by
          unfold State.TailApart
          rw [hmr, hlo]
          exact hc rfl hm
        obtain ⟨l', g', hinv', _⟩ := hinv.freeNode hfree ht
        exact ⟨_, g', hinv'⟩
  | free t n =>
    obtain ⟨hn, hs⟩ := Option.ite_none_right_eq_some.mp hs
    cases hs
    obtain ⟨hinv, hfree⟩ := h.unretire hn
    obtain ⟨l', g', hinv', _⟩ := hinv.freeNode hfree hc
    exact ⟨_, g', hinv'⟩

theorem Inv.run {tr} (h : Run (CleanStep src) (.init β τ) tr s) : ∃ own g, Inv s own g :=
  h.invariant (P := fun s => ∃ own g, Inv s own g) ⟨_, _, .init⟩ fun _ _ _ ⟨_, _, hinv⟩ hs => hinv.step hs

/-- Where only thread `t` makes calls and frees at once, its list and the global one are in the order of a stack:
the `next` of a node on them leads to no node that was pushed before. -/
structure Ordered (s : State β τ) (t : τ) (own : τ → List Addr) (g : List Addr) : Prop where
  alone : ∀ u ≠ t, own u = []
  retired : s.retired = []
  tail : ∀ n, (s.locals t).lflTail = some n → n ∉ g
  stack : (own t ++ g).Pairwise fun x y => s.mem.next x ≠ some y

omit [DecidableEq β] [DecidableEq τ] in
theorem Ordered.init (t : τ) : Ordered (.init β τ) t (fun _ => []) [] where
  alone _ _ := rfl
  retired := rfl
  tail _ _ := by simp
  stack := .nil

omit [DecidableEq β] [DecidableEq τ] in
/-- There is no other list to write to. -/
theorem Ordered.tailApart (ho : Ordered s t own g) (h : Inv s own g) : s.TailApart t := by
  intro tail _ _ u hu hr
  rw [Chain.reach_iff (h.lfl u), ho.alone u hu] at hr
  cases hr

omit [DecidableEq β] [DecidableEq τ] in
theorem Ordered.clean (ho : Ordered s t own g) (h : Inv s own g) (hx : x.Prompt t) : s.Clean x := by
  cases x with
  | hashInit => trivial
  | insert => trivial
  | delete u later k b =>
    obtain ⟨rfl, _⟩ := hx
    exact fun _ _ => ho.tailApart h
  | free => exact hx.elim

theorem Ordered.step (ho : Ordered s t own g) (h : Inv s own g) (hx : x.Prompt t) (hs : step src s x = some s') :
    ∃ own' g', Inv s' own' g' ∧ Ordered s' t own' g' := by
  cases x with
  | hashInit =>
    cases hs
    exact ⟨own, g, h.hashInit, ho.alone, ho.retired, ho.tail, ho.stack⟩
  | insert u k b fresh =>
    obtain rfl : u = t := hx
    rcases h.insert hs with rfl | ⟨l', g', hinv, hsub, hg, htl, hret, hnext⟩
    · exact ⟨own, g, h, ho⟩
    · refine ⟨_, g', hinv, fun v hv => ?_, hret.trans ho.retired, fun n hn => ?_, ?_⟩
      · rw [Function.update_of_ne hv]
        exact ho.alone v hv
      · rcases hg with rfl | rfl
        · exact ho.tail n (htl ▸ hn)
        · simp
      · rw [Function.update_self]
        refine (ho.stack.sublist hsub).imp_of_mem fun hx _ hxy => ?_
        rwa [hnext _ (List.mem_append.mp hx)]
  | delete u later k b =>
    obtain ⟨rfl, rfl⟩ := hx
    rcases h.delete hs with rfl | ⟨hm, s₁, p, hinv, hfree, hmr, hlo, hret, hp, hnext, rfl⟩
    · exact ⟨own, g, h, ho⟩
    · have ht : s₁.TailApart u := by
        unfold State.TailApart
        rw [hmr, hlo]
        exact ho.tailApart h
      obtain ⟨l', g', hinv', hsub, htl⟩ := hinv.freeNode hfree ht
      refine ⟨_, g', hinv', fun v hv => ?_, hret.trans ho.retired, fun n hn => ?_, ?_⟩
      · rw [Function.update_of_ne hv]
        exact ho.alone v hv
      · rcases htl with htl | ⟨rfl, htl⟩
        · cases htl.symm.trans hn
        · have hn : (s₁.pool u).tail p = n := Option.some.inj (htl.symm.trans hn)
          cases hlt : (s.locals u).lflTail with
          | none =>
            obtain rfl : p = n := by simpa [Pool.tail, State.pool, hlo, hlt] using hn
            exact hfree.notFree
          | some y =>
            obtain rfl : y = n := by simpa [Pool.tail, State.pool, hlo, hlt] using hn
            exact ho.tail y hlt
      · rw [Function.update_self]
        have hloose (y : Addr) (hy : y ∈ own u ++ g) : Loose s y :=
          (List.mem_append.mp hy).elim (h.ownLoose u y) (h.freeLoose y)
        have hpush : (p :: (own u ++ g)).Pairwise fun x y => s.mem.next x ≠ some y := by
          refine List.pairwise_cons.mpr ⟨fun y hy he => ?_, ho.stack⟩
          obtain ⟨b', hb'⟩ := hp y he
          exact (hloose y hy).outside b' hb'
        refine (hpush.sublist hsub).imp_of_mem fun {x} _ hx _ hxy => ?_
        have hs₁ : s₁.mem.next x = s.mem.next x := by
          apply hnext
          rcases List.mem_cons.mp (hsub.subset hx) with rfl | hx
          · exact .inl rfl
          · exact .inr (hloose x hx).outside
        exact fun he => hxy (hs₁.symm.trans he)
  | free => exact hx.elim

theorem Ordered.run {tr} (h : Run (Steps (Teardown.step src)) (.init β τ) tr s) (hx : ∀ e ∈ tr, e.1.Prompt t) :
    ∃ own g, Inv s own g ∧ Ordered s t own g :=
  (h.guarded hx).invariant (P := fun s => ∃ own g, Inv s own g ∧ Ordered s t own g) ⟨_, _, .init, .init t⟩
    fun _ _ _ ⟨_, _, hinv, ho⟩ hs => ho.step hinv hs.2 hs.1

/-- No call hangs, and none is refused but an `insert` for which `calloc` is to return a node twice. -/
theorem calls_return {tr} (h : Run (CleanStep src) (.init β τ) tr s) (t : τ) (k : Int) (b : β) :
    (∀ fresh ∉ s.obtained, (s.insert src t k b fresh).isSome) ∧ ∀ later, (s.delete src t later k b).isSome := by
  obtain ⟨own, g, hinv⟩ := Inv.run h
  refine ⟨fun fresh hf => ?_, fun later => ?_⟩
  · unfold State.insert
    generalize hr : (s.pool t).newNode fresh = r
    obtain ⟨a, new⟩ := r
    obtain ⟨l', g', hinv', hfree, _⟩ := hinv.newNode (fun hn => hf hn.2) hr
    have htable : (s.mem.freeNode new).Table := (hinv'.hand hfree).1.table
    have hins : Mem.Inserts _ k b new _ := src.inserts htable (hinv.length_lt b)
    rcases hins with ⟨_, he⟩ | ⟨_, p, l₁, l₂, _, he⟩
    · exact Option.isSome_iff_exists.mpr ⟨s, Option.bind_eq_some_iff.mpr ⟨_, he, rfl⟩⟩
    · rw [if_pos (by simp [Mem.freeNode])] at he
      exact Option.isSome_iff_exists.mpr ⟨_, Option.bind_eq_some_iff.mpr ⟨_, he, by simp [hf]; rfl⟩⟩
  · unfold State.delete
    rcases src.deletes (k := k) hinv.table (hinv.length_lt b) with ⟨_, he⟩ | ⟨p, l₁, n, l₂, lk, _, _, he⟩ <;> rw [he] <;> rfl

end invariant

section walks
variable {γ : Type} {next : Addr → Ptr} {f : γ → Addr → γ} {fuel : Nat} {q : Ptr} {w : List Addr} {c d : γ}

/-- With enough fuel `free_nodes` takes each node of the chain in turn, -/
theorem freeNodes_chain (h : Chain next q w) (hlen : w.length ≤ fuel) : freeNodes next f fuel q c = some (w.foldl f c) := by
  induction w generalizing fuel q c with
  | nil =>
    cases h
    cases fuel <;> rfl
  | cons n w ih =>
    obtain ⟨rfl, h⟩ := h
    obtain ⟨fuel, rfl⟩ := Nat.exists_eq_add_one_of_ne_zero (Nat.ne_of_gt (Nat.lt_of_lt_of_le (Nat.succ_pos _) hlen))
    exact ih h (Nat.le_of_succ_le_succ hlen)

/-- and where it returns it has done so. -/
theorem freeNodes_some (h : freeNodes next f fuel q c = some d) : ∃ w, Chain next q w ∧ d = w.foldl f c := by
  induction fuel generalizing q c with
  | zero =>
    cases q with
    | none => exact ⟨[], rfl, (Option.some.inj h).symm⟩
    | some n => cases h
  | succ fuel ih =>
    cases q with
    | none => exact ⟨[], rfl, (Option.some.inj h).symm⟩
    | some n =>
      obtain ⟨w, hw, rfl⟩ := ih h
      exact ⟨n :: w, ⟨rfl, hw⟩, rfl⟩

theorem foldl_visited (w v : List Addr) : w.foldl (fun visited n => visited ++ [n]) v = v ++ w := by
  induction w generalizing v with
  | nil => simp
  | cons n w ih => simp [ih]

omit [DecidableEq β] [DecidableEq τ] in
theorem walk_chain {s : State β τ} (h : Chain s.mem.next q w) (hlen : w.length ≤ fuel) : s.walk fuel q = some w := by
  rw [State.walk, freeNodes_chain h hlen, foldl_visited, List.nil_append]

omit [DecidableEq β] [DecidableEq τ] in
theorem chain_walk {s : State β τ} (h : s.walk fuel q = some w) : Chain s.mem.next q w := by
  obtain ⟨w', hw, rfl⟩ := freeNodes_some h
  rwa [foldl_visited, List.nil_append]

/-- A walk by `next` takes exactly the nodes of a stack only where there is at most one. -/
theorem walk_stack {l v : List Addr} (hw : Chain next q v) (hl : q = l.head?) (hnd : l.Nodup) (hv : ∀ n, n ∈ v ↔ n ∈ l)
    (hs : l.Pairwise fun x y => next x ≠ some y) : l = [] ∨ ∃ h, l = [h] ∧ next h = none := by
  cases l with
  | nil => exact .inl rfl
  | cons h l =>
    cases v with
    | nil => exact absurd ((hv h).mpr (by simp)) (by simp)
    | cons h' v =>
      have hndv := Chain.nodup hw
      obtain ⟨hq, hw⟩ := hw
      obtain rfl : h = h' := Option.some.inj (hl.symm.trans hq)
      have hnil : v = [] := by
        cases v with
        | nil => rfl
        | cons y v =>
          have hy : y ∈ l := by
            refine List.mem_of_ne_of_mem ?_ ((hv y).mp (by simp))
            rintro rfl
            simp at hndv
          exact absurd hw.1 ((List.pairwise_cons.mp hs).1 y hy)
      subst hnil
      refine .inr ⟨h, ?_, hw⟩
      rw [List.cons.injEq, List.eq_nil_iff_forall_not_mem]
      refine ⟨rfl, fun y hy => ?_⟩
      have hyh : y = h := by simpa using (hv y).mpr (by simp [hy])
      exact (List.nodup_cons.mp hnd).1 (hyh ▸ hy)

/-- A lone node that is freed again while `lfl` still holds it stays on a list only where `add_free` flushes it through
its own `mr_next`. -/
theorem refree_iff {a : Pool} {h : Addr} {g : List Addr} (ha : a.Lists [h] g) :
    (∃ l' g', Pool.Lists { a.freeNode h with lfl := none, lflTail := none } l' g' ∧ (h ∈ l' ∨ h ∈ g')) ↔
      amortFreeOn ≤ a.lcnt + 1 ∧ (a.lflTail = none ∨ a.lflTail = some h) := by
  have hlfl : a.lfl = some h := Seg.head ha.lfl
  have hg : h ∉ g := ha.apart h (by simp)
  have htail : a.tail h = h ↔ a.lflTail = none ∨ a.lflTail = some h := by
    cases ht : a.lflTail <;> simp [Pool.tail, ht]
  rw [← htail]
  constructor
  · rintro ⟨l', g', hlists, hin⟩
    obtain rfl : l' = [] := Chain.unique hlists.lfl rfl
    have hin : h ∈ g' := hin.resolve_left (by simp)
    have hfree := hlists.freelist
    simp only [Pool.freeNode, Pool.addFree] at hfree
    by_cases hc : amortFreeOn ≤ a.lcnt + 1
    · refine ⟨hc, ?_⟩
      by_contra hne
      rw [if_pos (by simpa using hc)] at hfree
      have hself : (Function.update (Function.update a.mrNext h a.lfl) (a.tail h) a.freelist) h = some h := by
        rw [Function.update_of_ne (Ne.symm hne), Function.update_self, hlfl]
      obtain ⟨l₁, l₂, rfl⟩ := List.append_of_mem hin
      have hnext := Seg.next_eq hfree
      rw [show ((a.push h).flush (a.tail h)).mrNext h = some h from hself] at hnext
      have hnd := Chain.nodup hfree
      have hm : h ∈ l₂ := List.mem_of_mem_head? hnext.symm
      exact (List.nodup_cons.mp (List.nodup_append.mp hnd).2.1).1 hm
    · rw [if_neg (by simpa using hc)] at hfree
      have hsame : Chain (Function.update a.mrNext h a.lfl) a.freelist g := ha.freelist.update hg
      exact absurd (Chain.unique hfree hsame ▸ hin) hg
  · rintro ⟨hc, ht⟩
    have hfree : (a.push h).flush (a.tail h) = a.freeNode h := by
      simp [Pool.freeNode, Pool.addFree, hc]
    refine ⟨[], h :: g, ⟨rfl, ⟨?_, ?_⟩, by simp⟩, .inr (by simp)⟩
    · rw [← hfree]
      rfl
    · have hnext : (a.freeNode h).mrNext h = a.freelist := by
        rw [← hfree, ht]
        exact Function.update_self ..
      have hchain : Chain (a.freeNode h).mrNext a.freelist g := by
        rw [← hfree, ht]
        exact (ha.freelist.update hg).update hg
      exact hnext ▸ hchain

end walks

section teardown
variable {src} {s : State β τ} {own : τ → List Addr} {g : List Addr} {t : τ} {h : Addr}

omit [DecidableEq β] [DecidableEq τ] in
theorem Inv.walksEnd (hinv : Inv s own g) : s.WalksEnd := by
  refine ⟨?_, fun t => ?_⟩
  · obtain ⟨w, hw⟩ := hinv.ends.chain s.freelist
    exact ⟨w.length, by rw [State.deleteAllocator, walk_chain hw le_rfl]; rfl⟩
  · obtain ⟨w, hw⟩ := hinv.ends.chain (s.locals t).lfl
    exact ⟨w.length, by rw [State.allocatorThreadFree, freeNodes_chain hw le_rfl]; rfl⟩

omit [DecidableEq β] [DecidableEq τ] in
theorem Inv.deletesList (hinv : Inv s own g) (hok : s.GlobalOk) : s.DeletesList := by
  rcases hok with hn | ⟨h, hh, hmr, hnx⟩
  · refine ⟨0, [], ?_, .nil, fun n => ?_, by simp⟩
    · rw [State.deleteAllocator, hn]
      rfl
    · rw [hn, Chain.reach_iff (l := []) rfl]
  · have hg : Chain s.mrNext s.freelist [h] := ⟨hh, hmr⟩
    obtain rfl : g = [h] := Chain.unique hinv.freelist hg
    refine ⟨1, [h], walk_chain ⟨hh, hnx⟩ le_rfl, by simp, fun n => (Chain.reach_iff hg).symm, fun n hn => ?_⟩
    have hloose := hinv.freeLoose n hn
    refine ⟨fun b => ?_, fun t => ?_, hloose.retired⟩
    · rw [Chain.reach_iff (hinv.table.ends b)]
      exact hloose.outside b
    · rw [Chain.reach_iff (hinv.lfl t)]
      exact fun hm => (hinv.apart t n hm).1 hn

omit [DecidableEq β] [DecidableEq τ] in
/-- A lone node: the walk takes it alone, and what matters is how `add_free` puts it back. -/
theorem Inv.freesList_single (hinv : Inv s own g) (ho : own t = [h]) (hnx : s.mem.next h = none) :
    s.FreesList t ↔
      amortFreeOn ≤ (s.locals t).lcnt + 1 ∧ ((s.locals t).lflTail = none ∨ (s.locals t).lflTail = some h) := by
  have hl := hinv.lfl t
  have hlists := hinv.lists t
  rw [ho] at hl hlists
  have hw : Chain s.mem.next (s.locals t).lfl [h] := ⟨Seg.head hl, hnx⟩
  have hreach (n : Addr) : Reach s.mrNext (s.locals t).lfl n ↔ n = h := by rw [Chain.reach_iff hl, List.mem_singleton]
  change _ ↔ amortFreeOn ≤ (s.pool t).lcnt + 1 ∧ ((s.pool t).lflTail = none ∨ (s.pool t).lflTail = some h)
  rw [← refree_iff hlists]
  constructor
  · rintro ⟨_, fuel, a, l', g', ha, hlg, hin⟩
    obtain ⟨d, hd, rfl⟩ := Option.map_eq_some_iff.mp ha
    obtain ⟨w, hw', rfl⟩ := freeNodes_some hd
    obtain rfl : w = [h] := Chain.unique hw' hw
    exact ⟨l', g', hlg, hin h ((hreach h).mpr rfl)⟩
  · rintro ⟨l', g', hlg, hin⟩
    refine ⟨⟨1, [h], walk_chain hw le_rfl, by simp, fun n => ?_⟩, 1, _, l', g', ?_, hlg, fun n hn => ?_⟩
    · rw [hreach, List.mem_singleton]
    · have hrun : freeNodes s.mem.next Pool.freeNode 1 (s.locals t).lfl (s.pool t) = some ((s.pool t).freeNode h) :=
        freeNodes_chain hw le_rfl
      rw [State.allocatorThreadFree, hrun]
      rfl
    · rw [(hreach n).mp hn]
      exact hin

omit [DecidableEq β] [DecidableEq τ] in
theorem Inv.freesList (hinv : Inv s own g) (hok : s.LocalOk t) : s.FreesList t := by
  rcases hok with hn | ⟨h, hh, hmr, hnx, hc, ht⟩
  · have hl := hinv.lfl t
    rw [hn] at hl
    have ho : own t = [] := Chain.unique hl rfl
    have hno (n : Addr) : ¬ Reach s.mrNext (s.locals t).lfl n := by
      rw [Chain.reach_iff (hinv.lfl t), ho]
      simp
    refine ⟨⟨0, [], ?_, .nil, fun n => by simpa using hno n⟩, 0, { s.pool t with lfl := none, lflTail := none }, [], g, ?_,
      ⟨rfl, hinv.freelist, by simp⟩, fun n hn => absurd hn (hno n)⟩
    · rw [hn]
      rfl
    · rw [State.allocatorThreadFree, hn]
      rfl
  · exact (hinv.freesList_single (Chain.unique (hinv.lfl t) ⟨hh, hmr⟩) hnx).mpr ⟨hc, ht⟩

omit [DecidableEq β] [DecidableEq τ] in
theorem Ordered.globalOk (ho : Ordered s t own g) (hinv : Inv s own g) (hd : s.DeletesList) : s.GlobalOk := by
  obtain ⟨fuel, freed, hw, _, hin, _⟩ := hd
  simp only [Chain.reach_iff hinv.freelist] at hin
  rcases walk_stack (chain_walk hw) (Seg.head hinv.freelist) hinv.freelist.nodup hin
    (ho.stack.sublist (List.sublist_append_right _ _)) with rfl | ⟨h, rfl, hnx⟩
  · exact .inl hinv.freelist
  · exact .inr ⟨h, hinv.freelist.1, hinv.freelist.2, hnx⟩

omit [DecidableEq β] [DecidableEq τ] in
theorem Ordered.localOk (ho : Ordered s t own g) (hinv : Inv s own g) (hf : s.FreesList t) : s.LocalOk t := by
  obtain ⟨fuel, visited, hw, _, hin⟩ := hf.1
  have hl := hinv.lfl t
  simp only [Chain.reach_iff hl] at hin
  rcases walk_stack (chain_walk hw) (Seg.head hl) hl.nodup hin
    (ho.stack.sublist (List.sublist_append_left _ _)) with hnil | ⟨h, hh, hnx⟩
  · rw [hnil] at hl
    exact .inl hl
  · rw [hh] at hl
    exact .inr ⟨h, hl.1, hl.2, hnx, (hinv.freesList_single hh hnx).mp hf⟩

end teardown

/-- Wherever calls lead whose flushes write to no other thread's list, both walks end, and they are exact where the
list that they take has at most one node, with no `next`. Where one thread makes all calls and frees at once, they are
exact nowhere else. -/
theorem teardown_exact {s : State β τ} {tr : List (Call β τ × State β τ)} (h : Run (Steps (step src)) (.init β τ) tr s) :
    (Run (CleanStep src) (.init β τ) tr s →
      s.WalksEnd ∧ (s.GlobalOk → s.DeletesList) ∧ ∀ t, s.LocalOk t → s.FreesList t) ∧
    ∀ t, (∀ e ∈ tr, e.1.Prompt t) →
      s.WalksEnd ∧ (s.DeletesList ↔ s.GlobalOk) ∧ (s.FreesList t ↔ s.LocalOk t) := by
  refine ⟨fun hc => ?_, fun t ht => ?_⟩
  · obtain ⟨own, g, hinv⟩ := Inv.run hc
    exact ⟨hinv.walksEnd, hinv.deletesList, fun t => hinv.freesList⟩
  · obtain ⟨own, g, hinv, ho⟩ := Ordered.run h ht
    exact ⟨hinv.walksEnd, ⟨ho.globalOk hinv, hinv.deletesList⟩, ⟨ho.localOk hinv, hinv.freesList⟩⟩

section cycles

/-- A key goes in and out. -/
def cycle : List (Call Unit Unit) := [.insert () 1 () 0, .delete () false 1 ()]

/-- The 99th cycle leaves one node on the local list, and the next `free_node` flushes. -/
theorem teardown_exact_cycles : ∃ tr s, Run (Steps (step .listWriter)) (.init Unit Unit) tr s ∧
    (s.locals ()).lfl = some 0 ∧ s.WalksEnd ∧ s.DeletesList ∧ s.FreesList () := by
  have hrun : (exec (step .listWriter) (.init Unit Unit) (List.replicate 99 cycle).flatten).any fun s =>
      decide (s.freelist = none ∧ (s.locals ()).lfl = some 0 ∧ s.mrNext 0 = none ∧ s.mem.next 0 = none ∧
        (s.locals ()).lcnt = 99 ∧ (s.locals ()).lflTail = some 0) := by decide +kernel
  obtain ⟨s, hs, hp⟩ := Option.any_eq_true _ _ |>.mp hrun
  obtain ⟨hg, hl, hmr, hnx, hc, ht⟩ := of_decide_eq_true hp
  have hprompt (e : Call Unit Unit × State Unit Unit)
      (he : e ∈ execTrace (step .listWriter) (.init Unit Unit) (List.replicate 99 cycle).flatten) : e.1.Prompt () := by
    obtain ⟨l, hl, he⟩ := List.mem_flatten.mp (execTrace_label he)
    have hcycle : e.1 = .insert () 1 () 0 ∨ e.1 = .delete () false 1 () := by
      simpa [List.eq_of_mem_replicate hl, cycle] using he
    rcases hcycle with h | h <;> rw [h]
    · rfl
    · exact ⟨rfl, rfl⟩
  obtain ⟨hends, hdel, hfree⟩ := (teardown_exact .listWriter (exec_run hs)).2 () hprompt
  refine ⟨_, s, exec_run hs, hl, hends, hdel.mpr (.inl hg), hfree.mpr (.inr ⟨0, hl, hmr, hnx, ?_, .inr ht⟩)⟩
  simp [hc, amortFreeOn]

/-- Of two nodes on the global list `delete_allocator` frees one. Where one of two linked nodes is deleted,
`allocator_thread_free` passes the linked one to `free_node`, and drops the other. -/
theorem teardown_misses :
    (∃ tr s, Run (Steps (step .listWriter)) (.init Unit Unit) tr s ∧ Chain s.mrNext s.freelist [1, 0] ∧
      s.deleteAllocator 1 = some [1] ∧ ¬ s.DeletesList) ∧
    ∃ tr s, Run (Steps (step .listWriter)) (.init Unit Unit) tr s ∧ Chain s.mrNext (s.locals ()).lfl [1] ∧
      s.walk 2 (s.locals ()).lfl = some [1, 0] ∧ Chain s.mem.next (s.mem.heads ()) [0] ∧
      ((s.allocatorThreadFree () 2).any fun a => decide (Chain a.mrNext a.lfl [] ∧ Chain a.mrNext a.freelist [])) ∧
      ¬ s.FreesList () := by
  have hdel : (exec (step .listWriter) (.init Unit Unit) ((List.replicate 98 cycle).flatten ++
      [.insert () 1 () 0, .insert () 2 () 1, .delete () false 1 (), .delete () false 2 ()])).any fun s =>
      decide (Chain s.mrNext s.freelist [1, 0] ∧ s.deleteAllocator 1 = some [1]) := by decide +kernel
  have hfree : (exec (step .listWriter) (.init Unit Unit)
      [.insert () 2 () 0, .insert () 1 () 1, .delete () false 1 ()]).any fun s =>
      decide (Chain s.mrNext (s.locals ()).lfl [1] ∧ s.walk 2 (s.locals ()).lfl = some [1, 0] ∧
        Chain s.mem.next (s.mem.heads ()) [0] ∧
        (s.allocatorThreadFree () 2).any fun a => decide (Chain a.mrNext a.lfl [] ∧ Chain a.mrNext a.freelist [])) := by
    decide
  constructor
  · obtain ⟨s, hs, hp⟩ := Option.any_eq_true _ _ |>.mp hdel
    obtain ⟨hg, hw⟩ := of_decide_eq_true hp
    refine ⟨_, s, exec_run hs, hg, hw, ?_⟩
    rintro ⟨fuel, freed, hf, _, hin, _⟩
    obtain rfl := Chain.unique (chain_walk hf) (chain_walk hw)
    have hm := (hin 0).mpr (hg.reach_iff.mpr (by simp))
    simp at hm
  · obtain ⟨s, hs, hp⟩ := Option.any_eq_true _ _ |>.mp hfree
    obtain ⟨hl, hw, hb, ha⟩ := of_decide_eq_true hp
    refine ⟨_, s, exec_run hs, hl, hw, hb, ha, ?_⟩
    rintro ⟨⟨fuel, visited, hv, _, hin⟩, _⟩
    obtain rfl := Chain.unique (chain_walk hv) (chain_walk hw)
    have hm := hl.reach_iff.mp ((hin 0).mp (by simp))
    simp at hm

end cycles

end Gecos.Teardown
