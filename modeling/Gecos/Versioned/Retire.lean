import Gecos.Table.Walk
import Gecos.Table.WriterStep

/-! Reclamation under a version: a counter is incremented between the unlinking of a node
and its `free_node`, for a node in list_gecos.c and for a bucket in list_sgecos.c. -/
namespace Gecos
open Library

/-- `n->gc++` or `(*lock)++` as a load and a store, then `free_node`. -/
inductive Bump where
  | load
  | store (v : Nat)
  | free
  deriving DecidableEq

/-- What the updaters and the readers share, with where each updater stands. -/
structure Shared (β υ : Type) where
  mem : Mem β
  upd : υ → Writer β Bump

namespace Shared
variable {β υ : Type}

def init (β υ : Type) : Shared β υ := ⟨.init β, fun _ => .ready⟩

def put [DecidableEq υ] (s : Shared β υ) (u : υ) (mw : Mem β × Writer β Bump) : Shared β υ :=
  ⟨mw.1, Function.update s.upd u mw.2⟩

/-- Linked in `b`, or unlinked from it with the version not incremented yet. -/
def Live (s : Shared β υ) (b : β) (n : Addr) : Prop :=
  n ∈ s.mem.chain b ∨ ∃ u r, s.upd u = .freeNodeLater b n r ∧ r ≠ .free

/-- The table as the readers of `Library.Traversal` see it, for a given version counter. -/
def view (stamp : Mem β → β → Addr → Nat) : Traversal (Shared β υ) β Addr Int where
  first s b := s.mem.heads b
  next s n := s.mem.next n
  key s n := s.mem.key n
  stamp s b n := stamp s.mem b n
  live := Live
  member s b k := s.mem.Member b k

variable {s s' : Shared β υ} {stamp : Mem β → β → Addr → Nat} {b : β} {n : Addr} {u : υ} {k : Int}

theorem Live.around (h : s.Live b n) (hw : Writers s.mem s.upd) : s.mem.Around b n := by
  rcases h with h | ⟨u, r, h, _⟩
  · exact hw.table.around h
  · have hf := hw.facts u
    rwa [h] at hf

/-- A table kept by serialised updaters is one that readers can walk. -/
theorem sound (hw : Writers s.mem s.upd) : (view stamp).Sound s :=
  Mem.walk_sound Shared.mem (fun s => stamp s.mem) Live hw.table (fun _ _ hn => .inl hn)
    fun _ _ hl => Live.around hl hw

variable [DecidableEq υ]

theorem Live.put {m' : Mem β} {w' : Writer β Bump} (h : s.Live b n)
    (hc : n ∈ s.mem.chain b → n ∈ m'.chain b ∨ ∃ r, w' = .freeNodeLater b n r ∧ r ≠ .free)
    (hu : ∀ r, s.upd u = .freeNodeLater b n r → r ≠ .free →
      ∃ r', w' = .freeNodeLater b n r' ∧ r' ≠ .free) :
    (s.put u (m', w')).Live b n := by
  have hself : ∀ r, w' = .freeNodeLater b n r ∧ r ≠ .free → (s.put u (m', w')).Live b n :=
    fun r hr => .inr ⟨u, r, by simp [Shared.put, hr.1], hr.2⟩
  rcases h with h | ⟨v, r, hv, hr⟩
  · rcases hc h with h | ⟨r, hr⟩
    · exact .inl h
    · exact hself r hr
  · by_cases e : v = u
    · subst e
      obtain ⟨r', hr'⟩ := hu r hv hr
      exact hself r' hr'
    · exact .inr ⟨v, r, by simp [Shared.put, Function.update_of_ne e, hv], hr⟩

/-- An access of list_writer.c leaves the readers' knowledge intact. -/
theorem evolves_step [DecidableEq β] (hw : Writers s.mem s.upd) {m' : Mem β} {w' : Writer β Bump}
    (hs : (s.upd u).step .load s.mem = some (m', w')) (hst : ∀ b n, stamp m' b n = stamp s.mem b n) :
    (view stamp).Evolves s (s.put u (m', w')) := by
  obtain ⟨hkey, hch, _⟩ := hw.step_keeps hs
  have hnot (b : β) (n : Addr) (r : Bump) : s.upd u ≠ .freeNodeLater b n r := by
    intro he
    simp [he, Writer.step] at hs
  intro b n
  refine ⟨le_of_eq (hst b n).symm, fun hl _ => ⟨?_, hkey n fun hin => ?_⟩⟩
  · refine hl.put (fun hn => ?_) fun r hr => (hnot b n r hr).elim
    exact (hch b n hn).imp_right fun he => ⟨.load, he, by simp⟩
  · rcases hl with hl | ⟨v, r, hv, _⟩
    · exact (hw.fresh u n hin).2 b hl
    · have he := hw.alone v u n (by rw [hv]; rfl) hin
      exact hnot b n r (he ▸ hv)

/-- A step that changes neither links nor keys, and takes no live node from an updater's hand. -/
theorem evolves_frame {m' : Mem β} {w' : Writer β Bump} (hk : m'.key = s.mem.key)
    (hn : m'.next = s.mem.next) (hh : m'.heads = s.mem.heads)
    (hst : ∀ b n, stamp s.mem b n ≤ stamp m' b n)
    (hu : ∀ b n r, s.upd u = .freeNodeLater b n r → r ≠ .free →
      stamp m' b n = stamp s.mem b n → ∃ r', w' = .freeNodeLater b n r' ∧ r' ≠ .free) :
    (view stamp).Evolves s (s.put u (m', w')) := by
  intro b n
  refine ⟨hst b n, fun hl he => ⟨?_, congrFun hk n⟩⟩
  refine hl.put (fun hm => .inl ?_) fun r hr hne => hu b n r hr hne he
  simpa [Mem.chain, hn, hh] using hm

end Shared
end Gecos
