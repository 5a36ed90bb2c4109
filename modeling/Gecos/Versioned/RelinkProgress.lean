import Gecos.Table.Paths
import Gecos.Versioned.LockFree

/-! Lock freedom of the readers of list_gecos.c with `GECOS_R`: what sends a search back to `retry` and what to
`relink`, and that it returns once no updater moves. -/
namespace Gecos.ListGecos
open Library
variable {β υ ρ : Type} {m m' : Mem β} {k : Int} {b : β} {l : Locals} {x x' : Searcher β} {n n' : Nat} {p : Ptr} {c : List Addr}

namespace Searcher

/-- The head and the counters that the attempt is to load again are as it has read them. -/
def Current (m : Mem β) : Searcher β → Prop
  | .idle | .returned _ => True
  | .run pc _ b l => match pc with
    | .head => True
    | .curGc => m.heads b = some l.cur
    | .headAgain => m.heads b = some l.cur ∧ l.curGc = m.gc l.cur
    | .curKey | .next | .nextGc => l.curGc = m.gc l.cur
    | .nextAgain | .curGcAgain => l.curGc = m.gc l.cur ∧ ∀ q ∈ l.next, l.nextGc = m.gc q
    | .prevGcAgain => False

/-- So is the link that it is to load again. -/
def Linked (m : Mem β) : Searcher β → Prop
  | .run .nextGc _ _ l | .run .nextAgain _ _ l => l.next = m.next l.cur
  | _ => True

/-- The search goes back to `relink`. -/
def Reloads (x x' : Searcher β) : Prop :=
  match x, x' with
  | .run .nextAgain .., .run .next .. => True
  | _, _ => False

def bucket : Searcher β → Option β
  | .run _ _ b _ => some b
  | .idle | .returned _ => none

/-- The first of the nodes that the attempt would visit yet. -/
def ahead (m : Mem β) : Searcher β → Ptr
  | .idle | .returned _ => none
  | .run pc _ b l => match pc with
    | .head => m.heads b
    | .curGc | .headAgain | .curKey => some l.cur
    | .next | .nextGc | .nextAgain => m.next l.cur
    | .curGcAgain | .prevGcAgain => l.next

theorem current_loop (h : ∀ q ∈ p, l.curGc = m.gc q) : (loop k b l p).Current m ∧ ¬ (loop k b l p).AtRetry := by
  cases p with
  | none => exact ⟨trivial, id⟩
  | some q => exact ⟨h q rfl, id⟩

/-- A search that has read current counters only does not go back to `retry`. -/
theorem Current.read (h : x.Current m) (hs : x.step .relink m = some x') : x'.Current m ∧ ¬ x'.AtRetry := by
  cases x with
  | idle | returned => cases hs
  | run pc k b l =>
    cases pc with
    | head =>
      simp only [step] at hs
      split at hs <;> cases hs
      · exact ⟨trivial, id⟩
      · exact ⟨by assumption, id⟩
    | curGc =>
      cases hs
      exact ⟨⟨h, rfl⟩, id⟩
    | headAgain =>
      obtain ⟨hh, hg⟩ := h
      simp only [step, hh, ne_eq, not_true, if_false] at hs
      cases hs
      exact current_loop (by simpa using hg)
    | curKey =>
      cases hs
      exact ⟨h, id⟩
    | next =>
      simp only [step] at hs
      split at hs <;> cases hs
      · exact ⟨⟨h, by simp⟩, id⟩
      · exact ⟨h, id⟩
    | nextGc =>
      simp only [step] at hs
      split at hs <;> cases hs
      rename_i hn
      exact ⟨⟨h, by simp [hn]⟩, id⟩
    | nextAgain =>
      simp only [step] at hs
      split at hs <;> cases hs
      · exact ⟨h.1, id⟩
      · exact ⟨h, id⟩
    | curGcAgain =>
      simp only [step, h.1, ne_eq, not_true, if_false] at hs
      split at hs <;> cases hs
      · exact ⟨trivial, id⟩
      · exact current_loop h.2
    | prevGcAgain => exact h.elim

theorem linked_loop : (loop k b l p).Linked m := by
  cases p <;> trivial

/-- A search whose link is current does not go back to `relink`. -/
theorem Linked.read (h : x.Linked m) (hs : x.step .relink m = some x') : x'.Linked m ∧ ¬ x.Reloads x' := by
  cases x with
  | idle | returned => cases hs
  | run pc k b l =>
    cases pc with
    | head =>
      simp only [step] at hs
      split at hs <;> cases hs <;> exact ⟨trivial, id⟩
    | curGc | curKey =>
      cases hs
      exact ⟨trivial, id⟩
    | headAgain =>
      simp only [step] at hs
      split at hs <;> cases hs <;> exact ⟨trivial, id⟩
    | next =>
      simp only [step] at hs
      split at hs <;> cases hs <;> exact ⟨by simp_all [Linked], id⟩
    | nextGc =>
      simp only [step] at hs
      split at hs <;> cases hs
      exact ⟨h, id⟩
    | nextAgain =>
      have hnext : l.next = m.next l.cur := h
      simp only [step, hnext, ne_eq, not_true, if_false] at hs
      cases hs
      exact ⟨trivial, id⟩
    | curGcAgain =>
      simp only [step] at hs
      split at hs
      · cases hs
        exact ⟨trivial, id⟩
      · split at hs <;> cases hs
        · exact ⟨trivial, id⟩
        · exact ⟨linked_loop, by cases l.next <;> exact id⟩
    | prevGcAgain =>
      simp only [step] at hs
      split at hs
      · cases hs
      · split at hs <;> cases hs <;> exact ⟨trivial, id⟩

end Searcher
/-- With the memory as it is, the search returns after beginning at most `n` iterations. -/
abbrev Finishes (m : Mem β) (n : Nat) (x : Searcher β) : Prop :=
  HaltsIn (Searcher.step .relink m) Searcher.AtBody Searcher.Returned n x

private theorem finishes_curGcAgain (hr : l.curGc ≠ m.gc l.cur → Finishes m n (.run .head k b l))
    (hl : l.curGc = m.gc l.cur → ∀ l', l'.curGc = l.nextGc → Finishes m n (Searcher.loop k b l' l.next)) :
    Finishes m n (.run .curGcAgain k b l) := by
  by_cases hg : l.curGc = m.gc l.cur
  · by_cases hk : k ≤ l.curKey
    · have hret : Finishes m n (.returned (if l.curKey = k then 1 else 0) : Searcher β) := .of_done trivial
      exact HaltsIn.step (by simp [Searcher.step, hg, hk]) id hret
    · have hl := hl hg { l with prev := some l.cur, prevGc := l.curGc, curGc := l.nextGc, prevSet := true } rfl
      exact HaltsIn.step (by simp [Searcher.step, hg, hk]) id hl
  · exact HaltsIn.step (by simp [Searcher.step, hg]) id (hr hg)

/-- From `relink` on, what the attempt reads is what the memory holds. -/
private theorem finishes_relink (hr : l.curGc ≠ m.gc l.cur → ∀ l', Finishes m n (.run .head k b l'))
    (hl : ∀ l', (∀ q ∈ m.next l.cur, l'.curGc = m.gc q) → Finishes m n (Searcher.loop k b l' (m.next l.cur))) :
    Finishes m n (.run .next k b l) := by
  cases hn : m.next l.cur with
  | none =>
    have hagain : Finishes m n (.run .curGcAgain k b { l with next := none }) :=
      finishes_curGcAgain (fun hg => hr hg _) fun _ l' _ => .of_done trivial
    have htest : Finishes m n (.run .nextAgain k b { l with next := none }) :=
      HaltsIn.step (by simp [Searcher.step, hn]) id hagain
    exact HaltsIn.step (by simp [Searcher.step, hn]) id htest
  | some q =>
    have hagain : Finishes m n (.run .curGcAgain k b { l with next := some q, nextGc := m.gc q }) := by
      refine finishes_curGcAgain (fun hg => hr hg _) fun _ l' hl' => ?_
      rw [hn] at hl
      exact hl l' (by simpa using hl')
    have htest : Finishes m n (.run .nextAgain k b { l with next := some q, nextGc := m.gc q }) :=
      HaltsIn.step (by simp [Searcher.step, hn]) id hagain
    have hcount : Finishes m n (.run .nextGc k b { l with next := some q }) := HaltsIn.step rfl id htest
    exact HaltsIn.step (by simp [Searcher.step, hn]) id hcount

/-- A walk with current counters goes through the chain ahead, one iteration a node. -/
private theorem finishes_walk (hc : Chain m.next p c) (hg : ∀ q ∈ p, l.curGc = m.gc q) :
    Finishes m c.length (Searcher.loop k b l p) := by
  induction c generalizing p l with
  | nil =>
    cases hc
    exact .of_done trivial
  | cons a c ih =>
    obtain ⟨rfl, hc⟩ := hc
    have hga : l.curGc = m.gc a := hg a rfl
    refine HaltsIn.enter rfl trivial ?_
    exact finishes_relink (fun hne => (hne hga).elim) fun l' hl' => ih hc hl'

private theorem finishes_head (hb : Chain m.next (m.heads b) c) : Finishes m c.length (.run .head k b l) := by
  cases hh : m.heads b with
  | none =>
    have hret : Finishes m c.length (.returned 0 : Searcher β) := .of_done trivial
    exact HaltsIn.step (by simp [Searcher.step, hh]) id hret
  | some q =>
    have hwalk := finishes_walk (k := k) (b := b) (l := { l with cur := q, curGc := m.gc q }) (hh ▸ hb) (by simp)
    have hagain : Finishes m c.length (.run .headAgain k b { l with cur := q, curGc := m.gc q }) :=
      HaltsIn.step (by simp [Searcher.step, hh]) id hwalk
    have hcount : Finishes m c.length (.run .curGc k b { l with cur := q }) := HaltsIn.step rfl id hagain
    exact HaltsIn.step (by simp [Searcher.step, hh]) id hcount

/-- Arriving at a node with a counter that may be out of date, the search may go back once. -/
private theorem finishes_arrive (hr : ∀ l', Finishes m n (.run .head k b l')) (hc : Chain m.next p c) :
    Finishes m (c.length + n) (Searcher.loop k b l p) := by
  cases c with
  | nil =>
    cases hc
    exact .of_done trivial
  | cons a c =>
    obtain ⟨rfl, hc⟩ := hc
    rw [List.length_cons, Nat.add_right_comm]
    refine HaltsIn.enter rfl trivial ?_
    exact finishes_relink (fun _ l' => (hr l').mono (Nat.le_add_left ..)) fun l' hl' =>
      (finishes_walk hc hl').mono (Nat.le_add_right ..)

/-- Where no path is a cycle, a search in progress returns, even from a node that is free or in another bucket. -/
theorem finishes (he : Library.Ends m.next) (hx : x.bucket = some b) (hreg : x.Regular) :
    Finishes m ((chainOf m.next (x.ahead m)).length + (m.chain b).length) x := by
  have hr (k : Int) (l : Locals) : Finishes m (m.chain b).length (.run .head k b l) := finishes_head (he.chainOf_spec _)
  have hrelink (k : Int) (l : Locals) :
      Finishes m ((chainOf m.next (m.next l.cur)).length + (m.chain b).length) (.run .next k b l) :=
    finishes_relink (fun _ l' => (hr k l').mono (Nat.le_add_left ..)) fun l' hl' =>
      (finishes_walk (he.chainOf_spec _) hl').mono (Nat.le_add_right ..)
  have htest (k : Int) (l : Locals) :
      Finishes m ((chainOf m.next (m.next l.cur)).length + (m.chain b).length) (.run .nextAgain k b l) := by
    by_cases hn : l.next = m.next l.cur
    · have hagain : Finishes m ((chainOf m.next (m.next l.cur)).length + (m.chain b).length) (.run .curGcAgain k b l) := by
        refine finishes_curGcAgain (fun _ => (hr k l).mono (Nat.le_add_left ..)) fun _ l' _ => ?_
        rw [hn]
        exact finishes_arrive (hr k) (he.chainOf_spec _)
      exact HaltsIn.step (by simp [Searcher.step, hn]) id hagain
    · exact HaltsIn.step (by simp [Searcher.step, hn]) id (hrelink k l)
  have hagain (k : Int) (l : Locals) :
      Finishes m ((chainOf m.next (some l.cur)).length + (m.chain b).length) (.run .headAgain k b l) := by
    by_cases hh : some l.cur = m.heads b
    · have harrive := finishes_arrive (hr k) (he.chainOf_spec (some l.cur)) (l := l)
      exact HaltsIn.step (by simp [Searcher.step, hh]) id harrive
    · exact HaltsIn.step (by simp [Searcher.step, hh]) id ((hr k l).mono (Nat.le_add_left ..))
  cases x with
  | idle | returned => cases hx
  | run pc k b l =>
    cases hx
    cases pc with
    | head => exact (hr k l).mono (Nat.le_add_left ..)
    | curGc => exact HaltsIn.step rfl id (hagain k { l with curGc := m.gc l.cur })
    | headAgain => exact hagain k l
    | curKey => exact finishes_arrive (hr k) (he.chainOf_spec (some l.cur)) (l := l)
    | next => exact hrelink k l
    | nextGc =>
      obtain ⟨q, hq⟩ := Option.ne_none_iff_exists'.mp hreg
      exact HaltsIn.step (by simp [Searcher.step, hq]) id (htest k { l with nextGc := m.gc q })
    | nextAgain => exact htest k l
    | curGcAgain =>
      exact finishes_curGcAgain (fun _ => (hr k l).mono (Nat.le_add_left ..)) fun _ l' _ => finishes_arrive (hr k) (he.chainOf_spec _)
    | prevGcAgain => exact hreg.elim

/-- Reader `r` goes back to `relink`. -/
def Reloads (r : ρ) (s : State β υ ρ) (a : Act β υ ρ) (t : State β υ ρ) : Prop := a = .read r ∧ (s.rd r).Reloads (t.rd r)

/-- An updater changes the head of the bucket that reader `r` searches, or the counter of the node where it stands
or of the next one. -/
def Outdates (r : ρ) (s : State β υ ρ) (a : Act β υ ρ) (t : State β υ ρ) : Prop :=
  ∃ u pc k b l, a = .update u ∧ s.rd r = .run pc k b l ∧ (t.shared.mem.heads b ≠ s.shared.mem.heads b ∨
    ∃ q, (q = l.cur ∨ l.next = some q) ∧ t.shared.mem.gc q ≠ s.shared.mem.gc q)

/-- An updater changes the `next` field of the node where reader `r` stands. -/
def Reroutes (r : ρ) (s : State β υ ρ) (a : Act β υ ρ) (t : State β υ ρ) : Prop :=
  ∃ u pc k b l, a = .update u ∧ s.rd r = .run pc k b l ∧ t.shared.mem.next l.cur ≠ s.shared.mem.next l.cur

section system
variable [DecidableEq β] [DecidableEq υ] [DecidableEq ρ] {cfg : Locking υ} {s t : State β υ ρ} {r : ρ} {a : Act β υ ρ}

omit [DecidableEq β] [DecidableEq υ] [DecidableEq ρ] in
theorem Searcher.Current.congr {u : υ} (h : (s.rd r).Current s.shared.mem) :
    (s.rd r).Current t.shared.mem ∨ Outdates r s (.update u) t := by
  by_cases ho : Outdates r s (.update u) t
  · exact .inr ho
  refine .inl ?_
  cases hx : s.rd r with
  | idle | returned => trivial
  | run pc k b l =>
    have hh : t.shared.mem.heads b = s.shared.mem.heads b := by
      by_contra hne
      exact ho ⟨u, pc, k, b, l, rfl, hx, .inl hne⟩
    have hg (q : Addr) (hq : q = l.cur ∨ l.next = some q) : t.shared.mem.gc q = s.shared.mem.gc q := by
      by_contra hne
      exact ho ⟨u, pc, k, b, l, rfl, hx, .inr ⟨q, hq, hne⟩⟩
    rw [hx] at h
    cases pc with
    | head => trivial
    | curGc => exact hh.trans h
    | headAgain => exact ⟨hh.trans h.1, h.2.trans (hg _ (.inl rfl)).symm⟩
    | curKey | next | nextGc => exact h.trans (hg _ (.inl rfl)).symm
    | nextAgain | curGcAgain =>
      exact ⟨h.1.trans (hg _ (.inl rfl)).symm, fun q hq => (h.2 q hq).trans (hg q (.inr hq)).symm⟩
    | prevGcAgain => exact h.elim

omit [DecidableEq β] [DecidableEq υ] [DecidableEq ρ] in
theorem Searcher.Linked.congr {u : υ} (h : (s.rd r).Linked s.shared.mem) :
    (s.rd r).Linked t.shared.mem ∨ Reroutes r s (.update u) t := by
  by_cases ho : Reroutes r s (.update u) t
  · exact .inr ho
  refine .inl ?_
  cases hx : s.rd r with
  | idle | returned => trivial
  | run pc k b l =>
    have hn : t.shared.mem.next l.cur = s.shared.mem.next l.cur := by
      by_contra hne
      exact ho ⟨u, pc, k, b, l, rfl, hx, hne⟩
    rw [hx] at h
    cases pc with
    | nextGc | nextAgain => exact Eq.trans h hn.symm
    | _ => trivial

/-- What a step is to reader `r`: an updater's, its own, or neither, and then the searches find the memory as it was. -/
theorem step_reader {v : Variant} (hs : step cfg v s a = some t) (hno : ∀ k b l, a ≠ .call r k b l) :
    (∃ u, a = .update u) ∧ t.rd r = s.rd r ∨
      a = .read r ∧ t.shared.mem = s.shared.mem ∧ (s.rd r).step v s.shared.mem = some (t.rd r) ∨
      a ≠ .read r ∧ (∀ u, a ≠ .update u) ∧ t.rd r = s.rd r ∧ t.shared.mem.heads = s.shared.mem.heads ∧
        t.shared.mem.next = s.shared.mem.next ∧ t.shared.mem.gc = s.shared.mem.gc := by
  cases a with
  | begin u op k b =>
    obtain ⟨w, _, rfl⟩ := Option.map_eq_some_iff.mp hs
    exact .inr (.inr ⟨by simp, by simp, rfl, rfl, rfl, rfl⟩)
  | update u =>
    obtain ⟨mw, _, rfl⟩ := Option.map_eq_some_iff.mp hs
    exact .inl ⟨⟨u, rfl⟩, rfl⟩
  | alloc u n =>
    obtain ⟨mw, hm, rfl⟩ := Option.map_eq_some_iff.mp hs
    obtain ⟨hh, hn, hg, _⟩ := Writer.alloc_quiet hm
    exact .inr (.inr ⟨by simp, by simp, rfl, hh, hn, hg⟩)
  | call r' k b l =>
    have hne : r ≠ r' := fun he => hno k b l (by rw [he])
    simp only [ListGecos.step] at hs
    split at hs <;> cases hs <;>
      exact .inr (.inr ⟨by simp, by simp, Function.update_of_ne hne .., rfl, rfl, rfl⟩)
  | read r' =>
    obtain ⟨x, hx, rfl⟩ := Option.map_eq_some_iff.mp hs
    by_cases he : r = r'
    · subst he
      exact .inr (.inl ⟨rfl, rfl, by simpa using hx⟩)
    · exact .inr (.inr ⟨by simpa using Ne.symm he, by simp, Function.update_of_ne he .., rfl, rfl, rfl⟩)

/-- A reader that does not jump as long as what it has read is `clean` charges its jumps to the updaters that
spoil that. -/
theorem charged_of_clean (clean : Mem β → Searcher β → Prop) (jumps : Searcher β → Searcher β → Prop)
    {spoils : State β υ ρ → Act β υ ρ → State β υ ρ → Prop} {tr : List (Act β υ ρ × State β υ ρ)}
    (hcall : ∃ s₀ k b l, step cfg .relink s₀ (.call r k b l) = some s) (hrun : Run (Steps (step cfg .relink)) s tr t)
    (hno : ∀ e ∈ tr, ∀ k b l, e.1 ≠ .call r k b l) (hhead : ∀ m k b l, clean m (.run .head k b l))
    (hread : ∀ {m x x'}, clean m x → x.step .relink m = some x' → clean m x' ∧ ¬ jumps x x')
    (hjump : ∀ {m x x'}, jumps x x' → x.step .relink m = some x' → clean m x')
    (hsame : ∀ {m m' x}, m'.heads = m.heads → m'.next = m.next → m'.gc = m.gc → clean m x → clean m' x)
    (hspoil : ∀ {s t u}, clean s.shared.mem (s.rd r) → clean t.shared.mem (s.rd r) ∨ spoils s (.update u) t)
    (hupd : ∀ {s a t}, spoils s a t → ∃ u, a = .update u) :
    Charged (fun s a t => a = .read r ∧ jumps (s.rd r) (t.rd r)) spoils s tr := by
  refine (hrun.guarded (G := fun a => ∀ k b l, a ≠ .call r k b l) hno).charged (fun s => clean s.shared.mem (s.rd r)) ?_
    (fun s a t hs hc => ?_) fun s a t hs hj => ?_
  · obtain ⟨s₀, k, b, l, hcall⟩ := hcall
    simp only [ListGecos.step] at hcall
    split at hcall <;> cases hcall <;> simpa using hhead _ k b { l with prevSet := false }
  · rcases step_reader (r := r) hs.1 hs.2 with ⟨⟨u, rfl⟩, hrd⟩ | ⟨rfl, hm, hx⟩ | ⟨hne, _, hrd, hh, hn, hg⟩
    · exact ⟨fun he => (by cases he.1), by rw [hrd]; exact hspoil hc⟩
    · obtain ⟨hclean, hj⟩ := hread hc hx
      exact ⟨fun he => hj he.2, .inl (hm ▸ hclean)⟩
    · exact ⟨fun he => hne he.1, .inl (by rw [hrd]; exact hsame hh hn hg hc)⟩
  · obtain ⟨rfl, hj⟩ := hj
    refine ⟨?_, fun hsp => ?_⟩
    · rcases step_reader (r := r) hs.1 hs.2 with ⟨⟨u, he⟩, _⟩ | ⟨_, hm, hx⟩ | ⟨hne, _⟩
      · cases he
      · exact hm ▸ hjump hj hx
      · exact (hne rfl).elim
    · obtain ⟨u, he⟩ := hupd hsp
      cases he

omit [DecidableEq β] [DecidableEq υ] [DecidableEq ρ] in
private theorem current_same (hh : m'.heads = m.heads) (hg : m'.gc = m.gc) (h : x.Current m) : x.Current m' := by
  cases x with
  | idle | returned => trivial
  | run pc k b l =>
    cases pc with
    | head => trivial
    | prevGcAgain => exact h.elim
    | _ => simpa only [Searcher.Current, hh, hg] using h

omit [DecidableEq β] [DecidableEq υ] [DecidableEq ρ] in
private theorem linked_same (hn : m'.next = m.next) (h : x.Linked m) : x.Linked m' := by
  cases x with
  | idle | returned => trivial
  | run pc k b l =>
    cases pc with
    | nextGc | nextAgain => simpa only [Searcher.Linked, hn] using h
    | _ => trivial

omit [DecidableEq β] [DecidableEq υ] [DecidableEq ρ] in
private theorem current_of_atRetry (h : x.AtRetry) : x.Current m := by
  cases x with
  | idle | returned => trivial
  | run pc k b l =>
    cases pc with
    | head => trivial
    | _ => exact h.elim

omit [DecidableEq β] [DecidableEq υ] [DecidableEq ρ] in
private theorem linked_of_reloads (h : x.Reloads x') : x'.Linked m := by
  cases x' with
  | idle | returned => trivial
  | run pc' k' b' l' =>
    cases pc' with
    | nextGc | nextAgain =>
      cases x with
      | idle | returned => exact h.elim
      | run pc => cases pc <;> exact h.elim
    | _ => trivial

/-- From a call on, each jump to `retry` is charged to a store to a head or a counter. -/
theorem retries_charged {tr : List (Act β υ ρ × State β υ ρ)}
    (hcall : ∃ s₀ k b l, step cfg .relink s₀ (.call r k b l) = some s) (hrun : Run (Steps (step cfg .relink)) s tr t)
    (hno : ∀ e ∈ tr, ∀ k b l, e.1 ≠ .call r k b l) : Charged (Retries r) (Outdates r) s tr :=
  charged_of_clean Searcher.Current (fun _ x' => x'.AtRetry) hcall hrun hno (fun _ _ _ _ => trivial)
    (fun h hs => h.read hs) (fun h _ => current_of_atRetry h) (fun hh _ hg h => current_same hh hg h) (fun h => h.congr)
    fun ⟨u, _, _, _, _, he, _⟩ => ⟨u, he⟩

/-- From a call on, each jump to `relink` is charged to a store to a link. -/
theorem reloads_charged {tr : List (Act β υ ρ × State β υ ρ)}
    (hcall : ∃ s₀ k b l, step cfg .relink s₀ (.call r k b l) = some s) (hrun : Run (Steps (step cfg .relink)) s tr t)
    (hno : ∀ e ∈ tr, ∀ k b l, e.1 ≠ .call r k b l) : Charged (Reloads r) (Reroutes r) s tr :=
  charged_of_clean Searcher.Linked Searcher.Reloads hcall hrun hno (fun _ _ _ _ => trivial)
    (fun h hs => h.read hs) (fun h _ => linked_of_reloads h) (fun _ hn _ h => linked_same hn h) (fun h => h.congr)
    fun ⟨u, _, _, _, _, he, _⟩ => ⟨u, he⟩

omit [DecidableEq β] [DecidableEq υ] [DecidableEq ρ] in
/-- The counter of a next node is only read where there is one, and a search with relink never steps back. -/
private theorem regular_read (hs : x.step .relink m = some x') : x'.Regular := by
  have hloop (k : Int) (b : β) (l : Locals) (p : Ptr) : (Searcher.loop k b l p).Regular := by
    cases p <;> trivial
  cases x with
  | idle | returned => cases hs
  | run pc k b l =>
    cases pc with
    | curGc | curKey => cases hs; trivial
    | head | nextGc | nextAgain =>
      simp only [Searcher.step] at hs
      split at hs <;> cases hs <;> trivial
    | next =>
      simp only [Searcher.step] at hs
      split at hs <;> cases hs
      · trivial
      · simp [Searcher.Regular]
    | headAgain =>
      simp only [Searcher.step] at hs
      split at hs <;> cases hs
      · trivial
      · exact hloop ..
    | curGcAgain =>
      simp only [Searcher.step] at hs
      split at hs
      · cases hs; trivial
      · split at hs <;> cases hs
        · trivial
        · exact hloop ..
    | prevGcAgain =>
      simp only [Searcher.step] at hs
      split at hs
      · cases hs
      · split at hs <;> cases hs
        · exact hloop ..
        · trivial

theorem regular_reachable (h : Reachable (Steps (step cfg .relink)) (.init β υ ρ) s) (r : ρ) : (s.rd r).Regular := by
  refine h.invariant (P := fun s => (s.rd r).Regular) trivial fun s a t hreg hs => ?_
  by_cases hcall : ∃ k b l, a = .call r k b l
  · obtain ⟨k, b, l, rfl⟩ := hcall
    simp only [Steps, ListGecos.step] at hs
    split at hs <;> cases hs <;> simp [Searcher.Regular]
  · rcases step_reader (r := r) hs fun k b l he => hcall ⟨k, b, l, he⟩ with ⟨_, hrd⟩ | ⟨_, _, hx⟩ | ⟨_, _, hrd, _⟩
    · rwa [hrd]
    · exact regular_read hx
    · rwa [hrd]

/-- From any reachable state, with no updater moving, a search returns. -/
theorem relink_ends_alone (h : Reachable (Steps (step cfg .relink)) (.init β υ ρ) s) (hr : (s.rd r).bucket = some b) :
    ∃ N, ∀ tr t, Run (Steps (step cfg .relink)) s tr t → (∀ e ∈ tr, e.1.Reading r) →
      stepCount (fun _ a _ => a = .read r) s tr ≤ N ∧
      stepCount (Iterates r) s tr ≤ (chainOf s.shared.mem.next ((s.rd r).ahead s.shared.mem)).length +
        (s.shared.mem.chain b).length ∧
      ((t.rd r).Returned ∨ ∃ u, step cfg .relink t (.read r) = some u) := by
  have hwriters (s : State β υ ρ) (hs : Reachable (Steps (step cfg .relink)) (.init β υ ρ) s) :
      Writers s.shared.mem s.shared.upd := by
    have hi : Inv cfg s.shared := inv_reachable (fun _ _ _ h => h) hs
    exact hi.writers
  have hends : Library.Ends s.shared.mem.next :=
    ends_of_relinks (fun s => s.shared.mem) (fun s => s.shared.upd) hwriters (fun _ _ _ _ => step_relinks) rfl h
  have hdone (m : Mem β) (x : Searcher β) (hx : x.Returned) : x.step .relink m = none := by
    cases x with
    | idle | run => exact hx.elim
    | returned => rfl
  have hreading {t u : State β υ ρ} {a : Act β υ ρ} (hs : Steps (step cfg .relink) t a u ∧ a.Reading r) :
      u.shared.mem = t.shared.mem ∧ (a = .read r → (t.rd r).step .relink t.shared.mem = some (u.rd r)) ∧
        (a ≠ .read r → u.rd r = t.rd r) := by
    obtain ⟨hs, ha⟩ := hs
    cases a with
    | begin | update | alloc => exact ha.elim
    | call r' k b l =>
      simp only [Steps, ListGecos.step] at hs
      split at hs <;> cases hs <;>
        exact ⟨rfl, fun he => (by cases he), fun _ => Function.update_of_ne (Ne.symm ha) ..⟩
    | read r' =>
      obtain ⟨x, hx, rfl⟩ := Option.map_eq_some_iff.mp hs
      refine ⟨rfl, fun he => ?_, fun hne => Function.update_of_ne (fun he => hne (by rw [he])) ..⟩
      cases he
      simpa using hx
  obtain ⟨N, halone⟩ := (finishes hends hr (regular_reachable h r)).alone
    (R := fun t a u => Steps (step cfg .relink) t a u ∧ a.Reading r) (fun t => t.shared.mem) (fun t => t.rd r)
    (fun a => a = .read r) (fun _ _ _ hs => (hreading hs).1) (fun _ _ _ hs => (hreading hs).2.1)
    (fun _ _ _ hs => (hreading hs).2.2) hdone
  refine ⟨N, fun tr t hrun hread => ?_⟩
  obtain ⟨hN, hn, hend⟩ := halone tr t (hrun.guarded hread)
  refine ⟨hN, hn, hend.imp_right fun hgo => ?_⟩
  obtain ⟨y, hy⟩ := hgo
  exact ⟨_, by simp only [ListGecos.step, hy]; rfl⟩

end system

/-- The readers of list_gecos.c with `GECOS_R`. From a call on, each jump to `retry` is charged to an updater's store
of its own to the head of the bucket or to one of the two counters in play, each jump to `relink` to a store of its own
to the `next` field that is loaded again, which alone never sends a search back to the head. From any reachable state,
with no updater moving, a search is never stuck and returns, having visited the nodes ahead of it and its bucket at
most. -/
theorem relink_readers_lock_free {β υ ρ : Type} [DecidableEq β] [DecidableEq υ] [DecidableEq ρ] (cfg : Locking υ) (r : ρ) :
    (∀ (s₀ s t : State β υ ρ) k b l tr, step cfg .relink s₀ (.call r k b l) = some s →
      Run (Steps (step cfg .relink)) s tr t → (∀ e ∈ tr, ∀ k b l, e.1 ≠ .call r k b l) →
      Charged (Retries r) (Outdates r) s tr ∧ Charged (Reloads r) (Reroutes r) s tr) ∧
    ∀ (s : State β υ ρ) b, Reachable (Steps (step cfg .relink)) (.init β υ ρ) s → (s.rd r).bucket = some b →
      ∃ N, ∀ tr t, Run (Steps (step cfg .relink)) s tr t → (∀ e ∈ tr, e.1.Reading r) →
        stepCount (fun _ a _ => a = .read r) s tr ≤ N ∧
        stepCount (Iterates r) s tr ≤ (chainOf s.shared.mem.next ((s.rd r).ahead s.shared.mem)).length +
          (s.shared.mem.chain b).length ∧
        ((t.rd r).Returned ∨ ∃ u, step cfg .relink t (.read r) = some u) := by
  refine ⟨fun s₀ s t k b l tr hcall hrun hno => ⟨?_, ?_⟩, fun s b h hr => relink_ends_alone h hr⟩
  · exact retries_charged ⟨s₀, k, b, l, hcall⟩ hrun hno
  · exact reloads_charged ⟨s₀, k, b, l, hcall⟩ hrun hno

/-- A search that an `insert` behind the node where it stands sends back to `relink`. -/
theorem relink_readers_lock_free_insert : ∃ (s t : State Unit Unit Unit) (tr : List (Act Unit Unit Unit × State Unit Unit Unit)),
    t.rd () = .run .next 5 () ⟨0, none, none, 0, 0, 0, 1, false⟩ ∧ tr.length = 16 ∧
    Charged (Reloads ()) (Reroutes ()) s tr ∧ ∃ N, ∀ tr' u, Run (Steps (step .solo .relink)) t tr' u →
      (∀ e ∈ tr', e.1.Reading ()) → stepCount (fun _ a _ => a = .read ()) t tr' ≤ N := by
  have h : (exec (ListGecos.step .solo .relink) (.init Unit Unit Unit) (insertRun 1 0 ++
      Act.call () 5 () ⟨0, none, none, 0, 0, 0, 0, false⟩ :: (List.replicate 5 (.read ()) ++ [Act.begin () .insert 3 ()] ++
        List.replicate 4 (.update ()) ++ [Act.alloc () 1] ++ List.replicate 4 (.update ()) ++ [.read ()]))).any fun t =>
      decide (t.rd () = .run .next 5 () ⟨0, none, none, 0, 0, 0, 1, false⟩) := by decide +kernel
  obtain ⟨s₀, s, t, tr, h₀, hcall, hrun, hp, hlen, hin⟩ := exec_around h
  have hrd := of_decide_eq_true hp
  obtain ⟨hcharged, hend⟩ := relink_readers_lock_free (β := Unit) (υ := Unit) (ρ := Unit) .solo ()
  have hno (e) (he : e ∈ tr) (k b l) : e.1 ≠ .call () k b l := fun hc => by
    have hm := hin e he
    simp [hc] at hm
  obtain ⟨N, hN⟩ := hend t () (hrun.reachable_append (h₀.trans ⟨_, .snoc .nil hcall⟩)) (by rw [hrd]; rfl)
  refine ⟨s, t, tr, hrd, by simpa using hlen, (hcharged s₀ s t _ _ _ tr hcall hrun hno).2, N, ?_⟩
  exact fun tr' u hr hq => (hN tr' u hr hq).1

end Gecos.ListGecos
