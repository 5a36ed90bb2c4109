import Gecos.Table.Memory

/-! The updaters of list_writer.c: `insert` and `delete`, one shared load or store a step.
The calls they make (lock macros, `init_new_node`, `free_node_later`) belong to the builds. -/
namespace Gecos
open Library

inductive Op where
  | insert
  | delete
  deriving DecidableEq

/-- Where an updater stands, with the locals it still needs. `ρ` is the progress of
`free_node_later`, whose body each build supplies. -/
inductive Writer (β ρ : Type) where
  | ready
  | emptyTest (k : Int) (b : β)
  | wlock (op : Op) (k : Int) (b : β)
  | loadHead (op : Op) (k : Int) (b : β)
  | loadKey (op : Op) (k : Int) (b : β) (prev : Link β) (cur : Addr)
  | loadKeyAgain (op : Op) (k : Int) (b : β) (prev : Link β) (cur : Addr)
  | advance (op : Op) (k : Int) (b : β) (cur : Addr)
  | loadNext (k : Int) (b : β) (prev : Link β) (cur : Addr)
  | unlink (k : Int) (b : β) (prev : Link β) (cur : Addr) (next : Ptr)
  | freeNodeLater (b : β) (cur : Addr) (r : ρ)
  | initNewNode (k : Int) (b : β) (prev : Link β) (cur : Ptr)
  | handOver (k : Int) (b : β) (prev : Link β) (cur : Ptr) (new : Addr)
  | storeKey (k : Int) (b : β) (prev : Link β) (cur : Ptr) (new : Addr)
  | storeNext (k : Int) (b : β) (prev : Link β) (cur : Ptr) (new : Addr)
  | link (k : Int) (b : β) (prev : Link β) (cur : Ptr) (new : Addr)
  | wunlock (b : β) (res : Nat)
  | returned (res : Nat)
  deriving DecidableEq

namespace Writer
variable {β ρ : Type}

/-- An updater may start a call when it is in none. -/
def begin (w : Writer β ρ) (op : Op) (k : Int) (b : β) : Option (Writer β ρ) :=
  match w with
  | .ready | .returned _ => match op with
    | .insert => some (.wlock .insert k b)
    | .delete => some (.emptyTest k b)
  | _ => none

/-- `init_new_node` where it just returns what `new_node` hands out, here `n`. -/
def alloc (m : Mem β) (w : Writer β ρ) (n : Addr) : Option (Mem β × Writer β ρ) :=
  match w with
  | .initNewNode k b prev cur =>
    if m.avail n then
      some ({ m with avail := Function.update m.avail n false }, .storeKey k b prev cur n)
    else none
  | _ => none

/-- The loop test on `cur`, with `prev` the link it was read from. -/
def loop (op : Op) (k : Int) (b : β) (prev : Link β) : Ptr → Writer β ρ
  | some cur => .loadKey op k b prev cur
  | none => match op with
    | .insert => .initNewNode k b prev none
    | .delete => .wunlock b 0

/-- One shared access of list_writer.c. The two functions search alike and differ once a
key that is not smaller is met; only `delete` makes the unlocked test for an empty bucket. -/
def step [DecidableEq β] (start : ρ) (m : Mem β) : Writer β ρ → Option (Mem β × Writer β ρ)
  | .emptyTest k b => some (m, if m.heads b = none then .returned 0 else .wlock .delete k b)
  | .loadHead op k b => some (m, loop op k b (.head b) (m.heads b))
  | .loadKey op k b prev cur =>
    some (m, if k ≤ m.key cur then .loadKeyAgain op k b prev cur else .advance op k b cur)
  | .loadKeyAgain .insert k b prev cur =>
    some (m, if m.key cur = k then .wunlock b 0 else .initNewNode k b prev (some cur))
  | .loadKeyAgain .delete k b prev cur =>
    some (m, if m.key cur ≠ k then .wunlock b 0 else .loadNext k b prev cur)
  | .advance op k b cur => some (m, loop op k b (.next cur) (m.next cur))
  | .loadNext k b prev cur => some (m, .unlink k b prev cur (m.next cur))
  | .unlink _ b prev cur next => some (m.store prev next, .freeNodeLater b cur start)
  | .storeKey k b prev cur new =>
    some ({ m with key := Function.update m.key new k }, .storeNext k b prev cur new)
  | .storeNext k b prev cur new =>
    some ({ m with next := Function.update m.next new cur }, .link k b prev cur new)
  | .link _ b prev _ new => some (m.store prev (some new), .wunlock b 1)
  | _ => none

/-- The bucket between whose `lock_wlock` and `lock_wunlock` the updater stands. -/
def inside : Writer β ρ → Option β
  | .ready | .emptyTest .. | .wlock .. | .returned _ => none
  | .loadHead _ _ b | .loadKey _ _ b _ _ | .loadKeyAgain _ _ b _ _ | .advance _ _ b _
  | .loadNext _ b _ _ | .unlink _ b _ _ _ | .freeNodeLater b _ _ | .initNewNode _ b _ _
  | .handOver _ b _ _ _ | .storeKey _ b _ _ _ | .storeNext _ b _ _ _ | .link _ b _ _ _
  | .wunlock b _ => some b

/-- The node that only the updater holds: not linked yet, or unlinked and not given up. -/
def inHand : Writer β ρ → Option Addr
  | .freeNodeLater _ n _ | .handOver _ _ _ _ n | .storeKey _ _ _ _ n | .storeNext _ _ _ _ n
  | .link _ _ _ _ n => some n
  | _ => none

/-- What the locals of an updater say about the bucket it stands in. -/
def Facts (m : Mem β) : Writer β ρ → Prop
  | .loadKey _ k b prev cur => ∃ l₁ l₂, m.Place b k prev l₁ (cur :: l₂)
  | .loadKeyAgain _ k b prev cur => (∃ l₁ l₂, m.Place b k prev l₁ (cur :: l₂)) ∧ k ≤ m.key cur
  | .advance _ k b cur => (∃ prev l₁ l₂, m.Place b k prev l₁ (cur :: l₂)) ∧ m.key cur < k
  | .loadNext k b prev cur => (∃ l₁ l₂, m.Place b k prev l₁ (cur :: l₂)) ∧ m.key cur = k
  | .unlink k b prev cur next =>
    (∃ l₁ l₂, m.Place b k prev l₁ (cur :: l₂)) ∧ m.key cur = k ∧ next = m.next cur
  | .freeNodeLater b cur _ => m.Around b cur
  | .initNewNode k b prev cur | .handOver k b prev cur _ | .storeKey k b prev cur _ =>
    m.Slot b k prev cur
  | .storeNext k b prev cur new => m.Slot b k prev cur ∧ m.key new = k
  | .link k b prev cur new => m.Slot b k prev cur ∧ m.key new = k ∧ m.next new = cur
  | _ => True

end Writer

section agree
variable {β ρ : Type} {m m' : Mem β} {b : β} {k : Int} {prev : Link β} {cur : Ptr} {n : Addr}
  {l₁ l₂ : List Addr} {w : Writer β ρ}

theorem Mem.Place.agree (h : m.Place b k prev l₁ l₂) (ha : m.Agree m' b) :
    m'.Place b k prev l₁ l₂ where
  split := ha.chain.trans h.split
  link := h.link
  below x hx := by rw [ha.key x (by simp [h.split, hx])]; exact h.below x hx

theorem Mem.Slot.agree (h : m.Slot b k prev cur) (ha : m.Agree m' b) : m'.Slot b k prev cur := by
  obtain ⟨l₁, l₂, hp, hc, hk⟩ := h
  refine ⟨l₁, l₂, hp.agree ha, hc, fun x hx => ?_⟩
  rw [ha.key x (by simp [hp.split, hx])]
  exact hk x hx

theorem Mem.Around.agree (h : m.Around b n) (ha : m.Agree m' b) (hk : m'.key n = m.key n)
    (hn : m'.next n = m.next n) : m'.Around b n := by
  obtain ⟨l₁, l₂, hc, hx, h₁, h₂⟩ := h
  have hm (x : Addr) (hx : x ∈ l₁ ∨ x ∈ l₂) : m'.key x = m.key x := by
    apply ha.key
    rcases hc with hc | hc <;> rcases hx with hx | hx <;> simp [hc, hx]
  refine ⟨l₁, l₂, by rwa [ha.chain], by rw [hn, hx], fun x hx => ?_, fun x hx => ?_⟩
  · rw [hk, hm x (.inl hx)]; exact h₁ x hx
  · rw [hk, hm x (.inr hx)]; exact h₂ x hx

/-- An updater's knowledge survives what other updaters do in other buckets. -/
theorem Writer.Facts.agree (h : w.Facts m) (hb : ∀ b, w.inside = some b → m.Agree m' b)
    (hn : ∀ n, w.inHand = some n → m'.key n = m.key n ∧ m'.next n = m.next n) : w.Facts m' := by
  cases w with
  | ready | emptyTest | wlock | loadHead | wunlock | returned => trivial
  | loadKey op k b prev cur =>
    obtain ⟨l₁, l₂, hp⟩ := h
    exact ⟨l₁, l₂, hp.agree (hb b rfl)⟩
  | loadKeyAgain op k b prev cur | loadNext k b prev cur =>
    obtain ⟨⟨l₁, l₂, hp⟩, hk⟩ := h
    refine ⟨⟨l₁, l₂, hp.agree (hb b rfl)⟩, ?_⟩
    rwa [(hb b rfl).key cur (by simp [hp.split])]
  | advance op k b cur =>
    obtain ⟨⟨prev, l₁, l₂, hp⟩, hk⟩ := h
    refine ⟨⟨prev, l₁, l₂, hp.agree (hb b rfl)⟩, ?_⟩
    rwa [(hb b rfl).key cur (by simp [hp.split])]
  | unlink k b prev cur next =>
    obtain ⟨⟨l₁, l₂, hp⟩, hk, hx⟩ := h
    refine ⟨⟨l₁, l₂, hp.agree (hb b rfl)⟩, ?_⟩
    rw [(hb b rfl).key cur (by simp [hp.split]), (hb b rfl).next cur (by simp [hp.split])]
    exact ⟨hk, hx⟩
  | freeNodeLater b cur r => exact Mem.Around.agree h (hb b rfl) (hn cur rfl).1 (hn cur rfl).2
  | initNewNode k b prev cur | handOver k b prev cur new | storeKey k b prev cur new =>
    exact Mem.Slot.agree h (hb b rfl)
  | storeNext k b prev cur new => exact ⟨h.1.agree (hb b rfl), (hn new rfl).1.trans h.2⟩
  | link k b prev cur new =>
    exact ⟨h.1.agree (hb b rfl), (hn new rfl).1.trans h.2.1, (hn new rfl).2.trans h.2.2⟩

end agree
end Gecos
