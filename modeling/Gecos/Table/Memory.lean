import Gecos.Library.Chain
import Mathlib.Algebra.Group.Int.Defs
import Mathlib.Algebra.Group.Nat.Defs
import Mathlib.Data.Int.Order.Basic
import Mathlib.Data.Nat.Basic

/-! The shared memory of the table: `node_t` and `struct hash` of test.h, one function for
each field of a node. -/
namespace Gecos
open Library

abbrev Addr := Nat

/-- A pointer to a node; `none` is `NULL`. -/
abbrev Ptr := Option Addr

/-- A `node_t **`: the head of a bucket or the `next` field of a node. -/
inductive Link (β : Type) where
  | head (b : β)
  | next (n : Addr)
  deriving DecidableEq

/-- `avail n` says that `new_node` may return `n`: it was never allocated, or it was passed
to `free_node` and has not been handed out since. -/
structure Mem (β : Type) where
  key : Addr → Int
  next : Addr → Ptr
  rc : Addr → Nat
  gc : Addr → Nat
  heads : β → Ptr
  locks : β → Nat
  avail : Addr → Bool

/-- After `hash_init` without `POPULATE`: zeroed heads and locks, and zeroed nodes to come from `calloc`. -/
def Mem.init (β : Type) : Mem β where
  key _ := 0
  next _ := none
  rc _ := 0
  gc _ := 0
  heads _ := none
  locks _ := 0
  avail _ := true

namespace Mem
variable {β : Type}

/-- A node with key `k` is reachable from the head of bucket `b`. -/
def Member (m : Mem β) (b : β) (k : Int) : Prop := ∃ n, Reach m.next (m.heads b) n ∧ m.key n = k

/-- The nodes linked in bucket `b`, in order. -/
noncomputable def chain (m : Mem β) (b : β) : List Addr := chainOf m.next (m.heads b)

/-- The buckets are finite, strictly increasing, disjoint chains of nodes in use. -/
structure Table (m : Mem β) : Prop where
  ends : ∀ b, Chain m.next (m.heads b) (m.chain b)
  sorted : ∀ b, (m.chain b).Pairwise (m.key · < m.key ·)
  apart : ∀ b b' n, n ∈ m.chain b → n ∈ m.chain b' → b = b'
  inUse : ∀ b, ∀ n ∈ m.chain b, m.avail n = false

/-- The link field that `l₁` leaves to be followed. -/
def tailLink (b : β) (l₁ : List Addr) : Link β :=
  match l₁.getLast? with
  | none => .head b
  | some n => .next n

/-- `prev` separates the nodes `l₁`, all below `k`, from the rest `l₂` of bucket `b`. -/
structure Place (m : Mem β) (b : β) (k : Int) (prev : Link β) (l₁ l₂ : List Addr) : Prop where
  split : m.chain b = l₁ ++ l₂
  link : prev = tailLink b l₁
  below : ∀ x ∈ l₁, m.key x < k

/-- The place in bucket `b` where a node with key `k` is to go, before `cur`. -/
def Slot (m : Mem β) (b : β) (k : Int) (prev : Link β) (cur : Ptr) : Prop :=
  ∃ l₁ l₂, m.Place b k prev l₁ l₂ ∧ cur = l₂.head? ∧ ∀ x ∈ l₂, k < m.key x

/-- `n` is at its place in bucket `b`, linked or just unlinked: it still leads to the
nodes above its key, and the others are below. -/
def Around (m : Mem β) (b : β) (n : Addr) : Prop :=
  ∃ l₁ l₂, (m.chain b = l₁ ++ n :: l₂ ∨ m.chain b = l₁ ++ l₂) ∧ m.next n = l₂.head? ∧
    (∀ x ∈ l₁, m.key x < m.key n) ∧ ∀ x ∈ l₂, m.key n < m.key x

/-- The two memories agree on bucket `b` and its nodes. -/
structure Agree (m m' : Mem β) (b : β) : Prop where
  chain : m'.chain b = m.chain b
  key : ∀ n ∈ m.chain b, m'.key n = m.key n
  next : ∀ n ∈ m.chain b, m'.next n = m.next n

variable {m m' : Mem β} {b : β} {k : Int} {prev : Link β} {cur p : Ptr} {n : Addr}
  {l₁ l₂ l₃ : List Addr}

theorem chain_eq (h : Chain m.next (m.heads b) l₁) : m.chain b = l₁ := chainOf_eq h

theorem Table.init : (Mem.init β).Table := by
  have hc (b : β) : (Mem.init β).chain b = [] := chain_eq rfl
  constructor <;> intro b <;> simp [hc]
  rfl

theorem Table.member_iff (h : m.Table) : m.Member b k ↔ ∃ n ∈ m.chain b, m.key n = k := by
  simp only [Member, Chain.reach_iff (h.ends b)]

theorem Table.next_eq (h : m.Table) (hc : m.chain b = l₁ ++ n :: l₂) : m.next n = l₂.head? :=
  Seg.next_eq (hc ▸ h.ends b)

theorem Table.below_above (h : m.Table) (hc : m.chain b = l₁ ++ n :: l₂) :
    (∀ x ∈ l₁, m.key x < m.key n) ∧ ∀ x ∈ l₂, m.key n < m.key x := by
  have hs := h.sorted b
  rw [hc, List.pairwise_append, List.pairwise_cons] at hs
  exact ⟨fun x hx => hs.2.2 x hx n (by simp), hs.2.1.1⟩

theorem Table.around (h : m.Table) (hn : n ∈ m.chain b) : m.Around b n := by
  obtain ⟨l₁, l₂, hc⟩ := List.append_of_mem hn
  have hk := h.below_above hc
  exact ⟨l₁, l₂, .inl hc, h.next_eq hc, hk.1, hk.2⟩

/-- Writing fields of a node that no bucket has. -/
theorem Table.write_off (h : m.Table) (hn : ∀ b, n ∉ m.chain b) (hh : m'.heads = m.heads)
    (hk : ∀ x, x ≠ n → m'.key x = m.key x) (hx : ∀ x, x ≠ n → m'.next x = m.next x)
    (hav : ∀ x, x ≠ n → m'.avail x = m.avail x) : m'.Table ∧ ∀ b, m.Agree m' b := by
  have hne (b : β) : ∀ x ∈ m.chain b, x ≠ n := fun x hm => ne_of_mem_of_not_mem hm (hn b)
  have hc (b : β) : Chain m'.next (m'.heads b) (m.chain b) := by
    rw [hh]; exact (h.ends b).congr fun x hm => hx x (hne b x hm)
  have hag (b : β) : m.Agree m' b :=
    ⟨chain_eq (hc b), fun x hm => hk x (hne b x hm), fun x hm => hx x (hne b x hm)⟩
  refine ⟨⟨fun b => ?_, fun b => ?_, fun b b' x => ?_, fun b x hb => ?_⟩, hag⟩
  · rw [(hag b).chain]; exact hc b
  · rw [(hag b).chain]
    exact (h.sorted b).imp_of_mem fun ha hb hab => by
      rwa [(hag b).key _ ha, (hag b).key _ hb]
  · rw [(hag b).chain, (hag b').chain]; exact h.apart b b' x
  · rw [(hag b).chain] at hb
    rw [hav x (hne b x hb)]
    exact h.inUse b x hb

@[simp] theorem tailLink_nil (b : β) : tailLink b [] = .head b := rfl
@[simp] theorem tailLink_concat (b : β) (l : List Addr) (n : Addr) :
    tailLink b (l ++ [n]) = .next n := by simp [tailLink]

/-- The load of `*l`. -/
def load (m : Mem β) : Link β → Ptr
  | .head b => m.heads b
  | .next n => m.next n

section store
variable [DecidableEq β]

/-- `*l = p`. -/
def store (m : Mem β) (l : Link β) (p : Ptr) : Mem β :=
  match l with
  | .head b => { m with heads := Function.update m.heads b p }
  | .next n => { m with next := Function.update m.next n p }

@[simp] theorem store_key (m : Mem β) (l : Link β) (p : Ptr) : (m.store l p).key = m.key := by
  cases l <;> rfl
@[simp] theorem store_rc (m : Mem β) (l : Link β) (p : Ptr) : (m.store l p).rc = m.rc := by
  cases l <;> rfl
@[simp] theorem store_gc (m : Mem β) (l : Link β) (p : Ptr) : (m.store l p).gc = m.gc := by
  cases l <;> rfl
@[simp] theorem store_locks (m : Mem β) (l : Link β) (p : Ptr) : (m.store l p).locks = m.locks := by
  cases l <;> rfl
@[simp] theorem store_avail (m : Mem β) (l : Link β) (p : Ptr) : (m.store l p).avail = m.avail := by
  cases l <;> rfl

/-- Storing through the link between `l₁` and `l₂` replaces what follows `l₁`, and no other
bucket changes. -/
theorem Table.chain_store (h : m.Table) (hp : m.chain b = l₁ ++ l₂)
    (h₃ : Chain m.next p l₃) (hd : ∀ x ∈ l₁, x ∉ l₃) (b' : β) :
    Chain (m.store (tailLink b l₁) p).next ((m.store (tailLink b l₁) p).heads b')
      (if b' = b then l₁ ++ l₃ else m.chain b') := by
  rcases List.eq_nil_or_concat l₁ with rfl | ⟨l, a, rfl⟩
  · by_cases hb : b' = b
    · subst hb
      simpa [store] using h₃
    · simpa [store, hb] using h.ends b'
  · have ha : a ∈ m.chain b := by simp [hp]
    simp only [List.concat_eq_append, tailLink_concat, store]
    by_cases hb : b' = b
    · subst hb
      have hc := h.ends b'
      rw [hp, List.concat_eq_append] at hc
      obtain ⟨r, hr, _⟩ := seg_append.mp hc
      have hn := (h.ends b').nodup
      rw [hp, List.concat_eq_append, List.append_assoc, List.nodup_append] at hn
      rw [if_pos rfl, List.append_assoc]
      exact Seg.redirect hr (fun hm => hn.2.2 a hm a (by simp) rfl) h₃ (hd a (by simp))
    · rw [if_neg hb]
      exact (h.ends b').update fun hm => hb (h.apart _ _ a hm ha)

theorem Table.store_chain (h : m.Table) (hp : m.chain b = l₁ ++ l₂)
    (h₃ : Chain m.next p l₃) (hd : ∀ x ∈ l₁, x ∉ l₃) :
    (m.store (tailLink b l₁) p).chain b = l₁ ++ l₃ := by
  have := h.chain_store hp h₃ hd b
  rw [if_pos rfl] at this
  exact chain_eq this

theorem Table.store_chain_ne (h : m.Table) (hp : m.chain b = l₁ ++ l₂)
    (h₃ : Chain m.next p l₃) (hd : ∀ x ∈ l₁, x ∉ l₃) {b' : β} (hb : b' ≠ b) :
    (m.store (tailLink b l₁) p).chain b' = m.chain b' := by
  have := h.chain_store hp h₃ hd b'
  rw [if_neg hb] at this
  exact chain_eq this

/-- The new bucket must be sorted, in use and apart from the others. -/
theorem Table.store (h : m.Table) (hp : m.chain b = l₁ ++ l₂) (h₃ : Chain m.next p l₃)
    (hd : ∀ x ∈ l₁, x ∉ l₃) (hs : (l₁ ++ l₃).Pairwise (m.key · < m.key ·))
    (hu : ∀ x ∈ l₃, m.avail x = false) (ha : ∀ b' ≠ b, ∀ x ∈ l₃, x ∉ m.chain b') :
    (m.store (tailLink b l₁) p).Table := by
  have hc := h.store_chain hp h₃ hd
  have hne (b' : β) (hb : b' ≠ b) := h.store_chain_ne hp h₃ hd hb
  have hmem (x : Addr) (b' : β) (hb : b' ≠ b) (hx : x ∈ l₁ ++ l₃) : x ∉ m.chain b' := by
    intro hx'
    rcases List.mem_append.mp hx with hx | hx
    · exact hb (h.apart _ _ x hx' (by simp [hp, hx]))
    · exact ha b' hb x hx hx'
  constructor
  · intro b'
    have := h.chain_store hp h₃ hd b'
    rwa [← chain_eq this] at this
  · intro b'
    by_cases hb : b' = b
    · subst hb; simpa [hc] using hs
    · simpa [hne b' hb] using h.sorted b'
  · intro b₁ b₂ x h₁ h₂
    by_cases hb₁ : b₁ = b <;> by_cases hb₂ : b₂ = b
    · rw [hb₁, hb₂]
    · subst hb₁; rw [hc] at h₁; rw [hne b₂ hb₂] at h₂; exact (hmem x b₂ hb₂ h₁ h₂).elim
    · subst hb₂; rw [hc] at h₂; rw [hne b₁ hb₁] at h₁; exact (hmem x b₁ hb₁ h₂ h₁).elim
    · rw [hne b₁ hb₁] at h₁; rw [hne b₂ hb₂] at h₂; exact h.apart _ _ x h₁ h₂
  · intro b' x hx
    rw [store_avail]
    by_cases hb : b' = b
    · subst hb
      rw [hc] at hx
      rcases List.mem_append.mp hx with hx | hx
      · exact h.inUse b' x (by simp [hp, hx])
      · exact hu x hx
    · rw [hne b' hb] at hx; exact h.inUse b' x hx

end store
end Mem
end Gecos
