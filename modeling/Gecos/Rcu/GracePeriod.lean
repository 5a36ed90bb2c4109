import Gecos.Rcu.Search
import Gecos.Table.Frame

/-! What a grace period protects. The section of a reader that follows the link of an unlinked node
comes to a node that is linked, or whose callback the same section holds back. -/
namespace Gecos.ListRcu
open Library
variable {β ρ : Type} {s s' : State β ρ} {n q : Addr} {r : ρ}

/-- `n` is unlinked and on its way to `call_rcu`. -/
def Leaving (w : Writer β Unit) (n : Addr) : Prop := ∃ b, w = .freeNodeLater b n ()

/-- Unlinked, and its callback cannot run before the section of `r` closes. -/
def Lingers (s : State β ρ) (r : ρ) (n : Addr) : Prop := Leaving (s.upd ()) n ∨ s.waits n r = true

/-- What a reader in its section may come to. -/
def Guarded (s : State β ρ) (r : ρ) (n : Addr) : Prop := (∃ b, n ∈ s.mem.chain b) ∨ Lingers s r n

/-- Unlinked and not freed. -/
def Out (s : State β ρ) (n : Addr) : Prop := Leaving (s.upd ()) n ∨ s.pending n = true

structure Inv (s : State β ρ) : Prop where
  writers : Writers s.mem s.upd
  pending : ∀ n, s.pending n = true →
    s.mem.avail n = false ∧ (∀ b, n ∉ s.mem.chain b) ∧ (s.upd ()).inHand ≠ some n
  waits : ∀ n r, s.waits n r = true → s.pending n = true ∧ (s.rd r).inSection = true
  order : ∀ n r q, s.waits n r = true → s.mem.next n = some q → Guarded s r q
  on : ∀ n r, (s.rd r).on = some n → Guarded s r n

theorem Inv.init : Inv (.init β ρ) where
  writers := .init
  pending _ h := by simp [State.init] at h
  waits _ _ h := by simp [State.init] at h
  order _ _ _ h := by simp [State.init] at h
  on _ _ h := by simp [State.init, Searcher.on] at h

theorem Leaving.inHand {w : Writer β Unit} (h : Leaving w n) : w.inHand = some n := by
  obtain ⟨b, rfl⟩ := h
  rfl

theorem on_inSection {x : Searcher β} (h : x.on = some n) : x.inSection = true := by
  cases x with
  | key | next => rfl
  | idle | lock | head | unlock | returned => cases h

namespace Inv

/-- No unlinked node is linked or available. -/
theorem out (h : Inv s) (ho : Out s n) : s.mem.avail n = false ∧ ∀ b, n ∉ s.mem.chain b := by
  rcases ho with ho | ho
  · exact h.writers.fresh () n ho.inHand
  · exact ⟨(h.pending n ho).1, (h.pending n ho).2.1⟩

theorem lingers_out (h : Inv s) (hl : Lingers s r n) : Out s n := hl.imp_right fun hw => (h.waits n r hw).1

/-- A node that lingers for a reader leads to one that is guarded for it. -/
theorem lingers_next (h : Inv s) (hl : Lingers s r n) (hx : s.mem.next n = some q) : Guarded s r q := by
  rcases hl with ⟨b, hu⟩ | hw
  · have hf := h.writers.facts ()
    rw [hu] at hf
    have hq := (h.writers.table.next_some (k := s.mem.key n + 1) hf (by omega) hx).1
    exact .inl ⟨b, hq⟩
  · exact h.order n r q hw hx

theorem guarded_next (h : Inv s) (hg : Guarded s r n) (hx : s.mem.next n = some q) : Guarded s r q := by
  rcases hg with ⟨b, hb⟩ | hl
  · have ha := h.writers.table.around hb
    have hq := (h.writers.table.next_some (k := s.mem.key n + 1) ha (by omega) hx).1
    exact .inl ⟨b, hq⟩
  · exact h.lingers_next hl hx

/-- What is guarded is not available. -/
theorem guarded_inUse (h : Inv s) (hg : Guarded s r n) : s.mem.avail n = false := by
  rcases hg with ⟨b, hb⟩ | hl
  · exact h.writers.table.inUse b n hb
  · exact (h.out (h.lingers_out hl)).1

/-- The general rule for a move of the updater. -/
theorem put (h : Inv s) {m' : Mem β} {w' : Writer β Unit} (hw : Writers m' (Function.update s.upd () w'))
    (hpend : ∀ n, s.pending n = true → m'.avail n = false ∧ (∀ b, n ∉ m'.chain b) ∧ w'.inHand ≠ some n)
    (hnext : ∀ n, s.pending n = true → m'.next n = s.mem.next n)
    (hkeep : ∀ n, (∃ b, n ∈ s.mem.chain b) ∨ Leaving (s.upd ()) n → (∃ b, n ∈ m'.chain b) ∨ Leaving w' n) :
    Inv (s.put (m', w')) := by
  have hg (r : ρ) (n : Addr) (hg : Guarded s r n) : Guarded (s.put (m', w')) r n := by
    rcases hg with hb | hl | hw
    · rcases hkeep n (.inl hb) with hk | hk
      · exact .inl hk
      · exact .inr (.inl (by simpa [State.put] using hk))
    · rcases hkeep n (.inr hl) with hk | hk
      · exact .inl hk
      · exact .inr (.inl (by simpa [State.put] using hk))
    · exact .inr (.inr hw)
  refine ⟨hw, fun n hn => ?_, h.waits, fun n r q hn hq => hg r q ?_, fun n r hn => hg r n (h.on n r hn)⟩
  · simpa [State.put] using hpend n hn
  · apply h.order n r q hn
    rw [← hnext n (h.waits n r hn).1]
    exact hq

/-- A move that leaves keys and links alone, and takes no pending node in hand. -/
theorem still (h : Inv s) {m' : Mem β} {w' : Writer β Unit} (hw : Writers m' (Function.update s.upd () w'))
    (hn : m'.next = s.mem.next) (hh : m'.heads = s.mem.heads)
    (hav : ∀ n, s.pending n = true → m'.avail n = false ∧ w'.inHand ≠ some n)
    (hno : ∀ n, ¬ Leaving (s.upd ()) n) : Inv (s.put (m', w')) := by
  have hc (b : β) : m'.chain b = s.mem.chain b := by simp [Mem.chain, hn, hh]
  apply h.put hw
  · intro n hp
    refine ⟨(hav n hp).1, fun b => ?_, (hav n hp).2⟩
    rw [hc]
    exact (h.pending n hp).2.1 b
  · intro n _
    rw [hn]
  · rintro n (⟨b, hb⟩ | hl)
    · exact .inl ⟨b, by rwa [hc]⟩
    · exact (hno n hl).elim

theorem begin (h : Inv s) {op : Op} {k : Int} {b : β} {w : Writer β Unit}
    (hs : (s.upd ()).begin op k b = some w) : Inv (s.put (s.mem, w)) := by
  have hw : (∀ b, w.inside ≠ some b) ∧ w.inHand = none ∧ w.Facts s.mem ∧ ∀ n, ¬ Leaving (s.upd ()) n := by
    unfold Writer.begin at hs
    split at hs
    case h_3 => contradiction
    all_goals
      rename_i he
      cases op <;> cases hs <;>
        exact ⟨by simp [Writer.inside], rfl, trivial, by rintro n ⟨b, hl⟩; rw [he] at hl; cases hl⟩
  obtain ⟨hin, hhand, hf, hno⟩ := hw
  refine h.still (h.writers.stay (fun b' hb => (hin b' hb).elim) (by simp [hhand]) hf) rfl rfl (fun n hp => ?_) hno
  exact ⟨(h.pending n hp).1, by simp [hhand]⟩

theorem alloc (h : Inv s) {mw : Mem β × Writer β Unit} (hs : (s.upd ()).alloc s.mem n = some mw) :
    Inv (s.put mw) := by
  unfold Writer.alloc at hs
  split at hs
  case h_2 => contradiction
  rename_i k b prev cur he
  split at hs
  case isFalse => contradiction
  rename_i hav
  cases hs
  refine h.still (h.writers.handOut he hav rfl rfl id) rfl rfl (fun x hp => ?_) ?_
  · have hx : x ≠ n := by
      rintro rfl
      rw [(h.pending x hp).1] at hav
      cases hav
    exact ⟨by simpa [Function.update_of_ne hx] using (h.pending x hp).1, by simpa [Writer.inHand] using hx.symm⟩
  · rintro x ⟨b', hl⟩
    rw [he] at hl
    cases hl

section update
variable [DecidableEq β]

/-- An access of list_writer.c. -/
theorem access (h : Inv s) {mw : Mem β × Writer β Unit} (hs : (s.upd ()).step () s.mem = some mw) :
    Inv (s.put mw) := by
  obtain ⟨m', w'⟩ := mw
  obtain ⟨_, hch, _, _, _, hav, hback⟩ := h.writers.step_keeps hs
  have hin (n : Addr) (hp : s.pending n = true) : (∀ b, n ∉ m'.chain b) ∧ w'.inHand ≠ some n := by
    obtain ⟨_, hout, hhand⟩ := h.pending n hp
    have hnot : ¬ ((∃ b, n ∈ m'.chain b) ∨ w'.inHand = some n) := fun hn =>
      (hback n hn).elim (fun ⟨b, hb⟩ => hout b hb) hhand
    exact ⟨fun b hb => hnot (.inl ⟨b, hb⟩), fun hn => hnot (.inr hn)⟩
  apply h.put (h.writers.step hs)
  · intro n hp
    exact ⟨by rw [hav]; exact (h.pending n hp).1, hin n hp⟩
  · intro n hp
    exact h.writers.step_next hs (h.pending n hp).2.2 (hin n hp).1
  · rintro n (⟨b, hb⟩ | ⟨b, hl⟩)
    · rcases hch b n hb with hb | he
      · exact .inl ⟨b, hb⟩
      · exact .inr ⟨b, he⟩
    · rw [hl] at hs
      simp [Writer.step] at hs

omit [DecidableEq β] in
/-- `call_rcu` holds the node back for every section that is open, and no other section can come to it. -/
theorem callRcu (h : Inv s) {b : β} (he : s.upd () = .freeNodeLater b n ()) :
    Inv { s.put (s.mem, .wunlock b 1) with
      pending := Function.update s.pending n true
      waits := Function.update s.waits n fun r => (s.rd r).inSection } := by
  have hl : Leaving (s.upd ()) n := ⟨b, he⟩
  have hg (r : ρ) (x : Addr) (hr : (s.rd r).inSection = true) (hx : Guarded s r x) :
      (∃ b, x ∈ s.mem.chain b) ∨ Function.update s.waits n (fun r => (s.rd r).inSection) x r = true := by
    by_cases hxn : x = n
    · subst hxn
      simp [hr]
    · rcases hx with hb | ⟨b', hl'⟩ | hw
      · exact .inl hb
      · rw [he] at hl'
        cases hl'
        exact (hxn rfl).elim
      · exact .inr (by simpa [Function.update_of_ne hxn] using hw)
  have hw : Writers s.mem (Function.update s.upd () (.wunlock b 1)) :=
    h.writers.stay (fun b' hb => by rw [he]; exact hb) (by simp [Writer.inHand]) trivial
  refine ⟨hw, fun x hx => ?_, fun x r hx => ?_, fun x r q hx hq => ?_, fun x r hx => ?_⟩
  · by_cases hxn : x = n
    · subst hxn
      have hout := h.out (.inl hl)
      exact ⟨hout.1, hout.2, by simp [State.put, Writer.inHand]⟩
    · have hp := h.pending x (by simpa [Function.update_of_ne hxn] using hx)
      exact ⟨hp.1, hp.2.1, by simp [State.put, Writer.inHand]⟩
  · by_cases hxn : x = n
    · subst hxn
      exact ⟨by simp, by simpa [State.put] using hx⟩
    · have hw := h.waits x r (by simpa [Function.update_of_ne hxn] using hx)
      exact ⟨by simpa [Function.update_of_ne hxn] using hw.1, hw.2⟩
  · have hr : (s.rd r).inSection = true ∧ Guarded s r q := by
      by_cases hxn : x = n
      · subst hxn
        exact ⟨by simpa using hx, h.lingers_next (.inl hl) hq⟩
      · have hw : s.waits x r = true := by simpa [Function.update_of_ne hxn] using hx
        exact ⟨(h.waits x r hw).2, h.order x r q hw hq⟩
    exact (hg r q hr.1 hr.2).imp_right .inr
  · exact (hg r x (on_inSection hx) (h.on x r hx)).imp_right .inr

theorem update (h : Inv s) (hs : s.update = some s') : Inv s' := by
  unfold State.update at hs
  split at hs
  case h_1 op k b he =>
    cases hs
    refine h.still (h.writers.frame rfl rfl rfl (fun _ hx => .inl hx) (fun b' _ => .inr fun v => ?_)
      (by simp [Writer.inHand]) trivial) rfl rfl (fun n hp => ⟨(h.pending n hp).1, by simp [Writer.inHand]⟩) ?_
    · cases v
      simp [he, Writer.inside]
    · rintro n ⟨b', hl⟩
      rw [he] at hl
      cases hl
  case h_2 b res he =>
    cases hs
    refine h.still (h.writers.stay (by simp [Writer.inside]) (by simp [Writer.inHand]) trivial) rfl rfl
      (fun n hp => ⟨(h.pending n hp).1, by simp [Writer.inHand]⟩) ?_
    rintro n ⟨b', hl⟩
    rw [he] at hl
    cases hl
  case h_3 b n he =>
    cases hs
    exact h.callRcu he
  case h_4 =>
    obtain ⟨mw, hw, rfl⟩ := Option.map_eq_some_iff.mp hs
    exact h.access hw

end update

theorem callback [Fintype ρ] (h : Inv s) (hs : s.callback n = some s') : Inv s' := by
  unfold State.callback at hs
  split at hs
  case isFalse => contradiction
  rename_i hc
  cases hs
  obtain ⟨hp, hw⟩ := hc
  obtain ⟨_, hout, hhand⟩ := h.pending n hp
  have hne (x : Addr) (r : ρ) (hx : s.waits x r = true) : x ≠ n := by
    rintro rfl
    rw [hw r] at hx
    cases hx
  refine ⟨h.writers.reclaim hout fun _ => hhand, fun x hx => ?_, fun x r hx => ?_, h.order, h.on⟩
  · have hxn : x ≠ n := by
      rintro rfl
      simp at hx
    obtain ⟨hav, hrest⟩ := h.pending x (by simpa [Function.update_of_ne hxn] using hx)
    exact ⟨by simpa [Function.update_of_ne hxn] using hav, hrest⟩
  · have hxr := h.waits x r hx
    exact ⟨by simpa [Function.update_of_ne (hne x r hx)] using hxr.1, hxr.2⟩

/-- What a reader comes to by a step of its own. -/
theorem read_on {x' : Searcher β} (h : Inv s) (hs : (s.rd r).step s.mem = some x') (hx : x'.on = some n) :
    Guarded s r n ∧ x'.inSection = true := by
  refine ⟨?_, on_inSection hx⟩
  cases hr : s.rd r with
  | idle | returned => simp [hr, Searcher.step] at hs
  | lock k b | unlock res =>
    rw [hr] at hs
    cases hs
    cases hx
  | head k b =>
    rw [hr] at hs
    cases hs
    cases hh : s.mem.heads b with
    | none => simp [hh, Searcher.loop, Searcher.on] at hx
    | some c =>
      simp only [hh, Searcher.loop, Searcher.on, Option.some.injEq] at hx
      subst hx
      exact .inl ⟨b, (h.writers.table.head_some (k := 0) hh).1⟩
  | key k cur =>
    rw [hr] at hs
    cases hs
    split at hx <;> cases hx
    exact h.on n r (by rw [hr]; rfl)
  | next k cur =>
    rw [hr] at hs
    cases hs
    cases hc : s.mem.next cur with
    | none => simp [hc, Searcher.loop, Searcher.on] at hx
    | some c =>
      simp only [hc, Searcher.loop, Searcher.on, Option.some.injEq] at hx
      subst hx
      exact h.guarded_next (h.on cur r (by rw [hr]; rfl)) hc

variable [DecidableEq ρ]

theorem read (h : Inv s) (hs : s.read r = some s') : Inv s' := by
  obtain ⟨x', hx, rfl⟩ := Option.map_eq_some_iff.mp hs
  have hw (n : Addr) (r' : ρ) (hn : Function.update (s.waits n) r (s.waits n r && x'.inSection) r' = true) :
      s.waits n r' = true ∧ (Function.update s.rd r x' r').inSection = true := by
    by_cases hr : r' = r
    · subst hr
      simpa using hn
    · rw [Function.update_of_ne hr] at hn ⊢
      exact ⟨hn, (h.waits n r' hn).2⟩
  have hg (n : Addr) (r' : ρ) (hn : Guarded s r' n) (hin : (Function.update s.rd r x' r').inSection = true) :
      (∃ b, n ∈ s.mem.chain b) ∨ Leaving (s.upd ()) n ∨
        Function.update (s.waits n) r (s.waits n r && x'.inSection) r' = true := by
    rcases hn with hb | hl | hn
    · exact .inl hb
    · exact .inr (.inl hl)
    · right; right
      by_cases hr : r' = r
      · subst hr
        simpa [hn] using hin
      · rwa [Function.update_of_ne hr]
  refine ⟨h.writers, h.pending, fun n r' hn => ?_, fun n r' q hn hq => ?_, fun n r' hn => ?_⟩
  · exact ⟨(h.waits n r' (hw n r' hn).1).1, (hw n r' hn).2⟩
  · exact hg q r' (h.order n r' q (hw n r' hn).1 hq) (hw n r' hn).2
  · apply hg n r'
    · by_cases hr : r' = r
      · subst hr
        exact (h.read_on hx (by simpa using hn)).1
      · exact h.on n r' (by simpa [Function.update_of_ne hr] using hn)
    · exact on_inSection hn

theorem call (h : Inv s) {k : Int} {b : β} (hr : (s.rd r).inSection = false) :
    Inv { s with rd := Function.update s.rd r (.lock k b) } := by
  refine ⟨h.writers, h.pending, fun n r' hn => ?_, h.order, fun n r' hn => ?_⟩
  · obtain ⟨hp, hin⟩ := h.waits n r' hn
    have hne : r' ≠ r := by
      rintro rfl
      rw [hr] at hin
      cases hin
    exact ⟨hp, by simpa [Function.update_of_ne hne] using hin⟩
  · have hne : r' ≠ r := by
      rintro rfl
      simp [Searcher.on] at hn
    exact h.on n r' (by simpa [Function.update_of_ne hne] using hn)

variable [DecidableEq β] [Fintype ρ]

theorem step {a : Act β ρ} (h : Inv s) (hs : ListRcu.step s a = some s') : Inv s' := by
  cases a with
  | begin op k b =>
    obtain ⟨w, hw, rfl⟩ := Option.map_eq_some_iff.mp hs
    exact h.begin hw
  | update => exact h.update hs
  | alloc n =>
    obtain ⟨mw, hw, rfl⟩ := Option.map_eq_some_iff.mp hs
    exact h.alloc hw
  | callback n => exact h.callback hs
  | call r k b =>
    simp only [ListRcu.step] at hs
    split at hs
    case h_3 => contradiction
    all_goals
      rename_i he
      cases hs
      exact h.call (by rw [he]; rfl)
  | read r => exact h.read hs

end Inv

variable [DecidableEq β] [DecidableEq ρ] [Fintype ρ]

theorem inv_reachable (h : Reachable (Steps step) (.init β ρ) s) : Inv s :=
  h.invariant Inv.init fun _ _ _ hi hr => hi.step hr

end Gecos.ListRcu
