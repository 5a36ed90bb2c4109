import Gecos.Library.Trail
import Gecos.Table.Walk
import Gecos.Table.WriterStep

/-! What a step of the system leaves alone for readers that follow the links of unlinked nodes. -/
namespace Gecos
open Library
variable {β ρ υ S : Type} {m m' : Mem β} {out out' : Addr → Prop}

namespace Mem

/-- `out` are nodes that were unlinked and not freed since: these and the linked ones keep their
keys, the unlinked ones also their links, and stay among them until they are freed. -/
structure Frame (m m' : Mem β) (out out' : Addr → Prop) : Prop where
  key : ∀ x, out x ∨ (∃ b, x ∈ m.chain b) → m'.key x = m.key x
  next : ∀ x, out x ∨ (∃ b, x ∈ m.chain b) → (∀ b, x ∉ m'.chain b) → m'.next x = m.next x
  linked : ∀ b, ∀ x ∈ m.chain b, x ∈ m'.chain b ∨ out' x
  out : ∀ x, out x → out' x ∨ m'.avail x = true

/-- Steps that change neither keys nor links. -/
theorem Frame.still (hk : m'.key = m.key) (hn : m'.next = m.next) (hh : m'.heads = m.heads)
    (ho : ∀ x, out x → out' x ∨ m'.avail x = true) : m.Frame m' out out' := by
  refine ⟨fun x _ => by rw [hk], fun x _ _ => by rw [hn], fun b x hx => .inl ?_, ho⟩
  simpa [Mem.chain, hn, hh] using hx

/-- The table as a reader walks it that validates nothing. -/
abbrev linkedWalk (mem : S → Mem β) : Traversal S β Addr Int :=
  walk mem (fun _ _ _ => 0) fun s b n => n ∈ (mem s).chain b

theorem linkedWalk_sound {mem : S → Mem β} {s : S} (ht : (mem s).Table) : (linkedWalk mem).Sound s :=
  walk_sound _ _ _ ht (fun _ _ h => h) fun _ _ h => ht.around h

section trail
variable {mem : S → Mem β} {hist : List S} {s s' : S} {b : β} {k : Int} {L L' : Addr → Prop} {n : Addr}

theorem Frame.key_same (hf : (mem s).Frame (mem s') out out') (hL : ∀ x, L x → out x)
    (h : n ∈ (mem s).chain b ∨ L n) : (mem s').key n = (mem s).key n :=
  hf.key n (h.elim (fun h => .inr ⟨b, h⟩) fun h => .inl (hL n h))

/-- The trail after a step, of nodes that are not linked any more and lead on to none but such. -/
theorem Frame.trail (hf : (mem s).Frame (mem s') out out') (hs : (linkedWalk mem).Sound s) (hm : s ∈ hist)
    (ht : (linkedWalk mem).Trail hist s b k L) (hL : ∀ x, L x → out x)
    (hL' : ∀ x, L' x → (x ∈ (mem s).chain b ∨ L x) ∧ ∀ b, x ∉ (mem s').chain b)
    (hsucc : ∀ x q, L' x → (mem s').next x = some q → q ∈ (mem s).chain b ∨ L q → q ∈ (mem s').chain b ∨ L' q) :
    (linkedWalk mem).Trail (hist ++ [s']) s' b k L' := by
  have hnext (x : Addr) (hx : L' x) : (mem s').next x = (mem s).next x := by
    apply hf.next x
    · exact (hL' x hx).1.elim (fun h => .inr ⟨b, h⟩) fun h => .inl (hL x h)
    · exact (hL' x hx).2
  refine ht.evolve hs hm (fun x hx => ⟨(hL' x hx).1, hnext x hx, hf.key_same hL (hL' x hx).1⟩) fun x q hx hq hreach => ?_
  exact ⟨hsucc x q hx ((hnext x hx).trans hq) hreach, hf.key_same hL hreach⟩

end trail
end Mem

variable [DecidableEq β] {upd : υ → Writer β ρ} {u : υ} {w' : Writer β ρ} {start : ρ}

/-- An access of list_writer.c, after which the node that `delete` unlinks is out. -/
theorem Writers.frame_access (h : Writers m upd) (hs : (upd u).step start m = some (m', w'))
    (hhand : ∀ x, out x → (upd u).inHand ≠ some x) (hout : ∀ x, out x → out' x)
    (hunlink : ∀ b x, w' = .freeNodeLater b x start → out' x) : m.Frame m' out out' := by
  obtain ⟨hkey, hch, _⟩ := h.step_keeps hs
  have hnot (x : Addr) (hx : out x ∨ ∃ b, x ∈ m.chain b) : (upd u).inHand ≠ some x := by
    rcases hx with hx | ⟨b, hx⟩
    · exact hhand x hx
    · exact fun hin => (h.fresh u x hin).2 b hx
  refine ⟨fun x hx => hkey x (hnot x hx), fun x hx ho => h.step_next hs (hnot x hx) ho, fun b x hx => ?_,
    fun x hx => .inl (hout x hx)⟩
  exact (hch b x hx).imp_right (hunlink b x)

end Gecos
