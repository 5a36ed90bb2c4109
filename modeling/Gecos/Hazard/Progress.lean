import Gecos.Library.LockFree
import Gecos.Table.Paths

/-! The readers of list_hp.c: what sends them back to `try_again`, and that they return once it stops. -/
namespace Gecos.ListHp
open Library
variable {β : Type} {m m' : Mem β} {k : Int} {b : β} {l : Locals β} {n n' : Nat} {x x' : Searcher β} {p : Ptr}
  {c : List Addr}

namespace Searcher

/-- The search is at `try_again`. -/
def AtRetry : Searcher β → Prop
  | .run .head .. => True
  | _ => False

/-- The search is at the start of the body of its loop. -/
def AtBody : Searcher β → Prop
  | .run .protect .. => True
  | _ => False

def Returned : Searcher β → Prop
  | .returned _ => True
  | _ => False

def bucket : Searcher β → Option β
  | .run _ _ b _ => some b
  | .idle | .returned _ => none

/-- The link that the attempt has loaded and is to load again, and what it found there. -/
def saved : Searcher β → Option (Link β × Ptr)
  | .run .protect _ _ l | .run .check _ _ l => some (l.prev, some l.cur)
  | .run .key _ _ l => some (.next l.cur, l.next)
  | _ => none

/-- The first of the nodes that the attempt would visit yet. -/
def ahead (m : Mem β) : Searcher β → Ptr
  | .run .head _ b _ => m.heads b
  | .run .protect _ _ l | .run .check _ _ l => some l.cur
  | .run .next _ _ l => m.next l.cur
  | .run .key _ _ l => l.next
  | _ => none

/-- The test of this attempt would not fail now. -/
def Fresh (m : Mem β) (x : Searcher β) : Prop := ∀ lk p, x.saved = some (lk, p) → m.load lk = p

theorem fresh_of_saved (h : x.saved = none) : x.Fresh m := by
  intro lk p he
  rw [h] at he
  cases he

theorem fresh_loop (h : m.load l.prev = p) : (loop k b l p).Fresh m ∧ ¬ (loop k b l p).AtRetry := by
  cases p with
  | none => exact ⟨fresh_of_saved rfl, id⟩
  | some cur =>
    refine ⟨fun lk p he => ?_, id⟩
    cases he
    exact h

/-- A search whose last load is current does not go back. -/
theorem Fresh.read (h : x.Fresh m) (hs : x.step m = some x') : x'.Fresh m ∧ ¬ x'.AtRetry := by
  cases x with
  | idle | returned => cases hs
  | run pc k b l =>
    cases pc with
    | head =>
      cases hs
      exact fresh_loop rfl
    | protect =>
      cases hs
      exact ⟨h, id⟩
    | check =>
      simp only [step, h l.prev (some l.cur) rfl, ne_eq, not_true, if_false] at hs
      cases hs
      exact ⟨fresh_of_saved rfl, id⟩
    | next =>
      cases hs
      refine ⟨fun lk p he => ?_, id⟩
      cases he
      rfl
    | key =>
      have hnext : m.next l.cur = l.next := h (.next l.cur) l.next rfl
      simp only [step] at hs
      split at hs <;> cases hs
      · exact ⟨fresh_of_saved rfl, id⟩
      · exact fresh_loop hnext
    | keyAgain =>
      cases hs
      exact ⟨fresh_of_saved rfl, id⟩

theorem AtRetry.fresh (h : x.AtRetry) : x.Fresh m := by
  cases x with
  | idle | returned => exact h.elim
  | run pc k b l =>
    cases pc with
    | head => exact fresh_of_saved rfl
    | _ => exact h.elim

/-- `search` does not look at what `new_node` may return. -/
theorem step_avail (f : Addr → Bool) : x.step { m with avail := f } = x.step m := by
  cases x with
  | idle | returned => rfl
  | run pc k b l =>
    cases pc with
    | check => cases hl : l.prev <;> simp [step, Mem.load, hl]
    | _ => rfl

end Searcher

/-- With the memory as it is, the search returns after beginning at most `n` iterations. -/
abbrev Finishes (m : Mem β) (n : Nat) (x : Searcher β) : Prop :=
  HaltsIn (Searcher.step m) Searcher.AtBody Searcher.Returned n x

private theorem finishes_key (hl : Finishes m n (Searcher.loop k b { l with prev := .next l.cur, off := !l.off } l.next)) :
    Finishes m n (.run .key k b l) := by
  by_cases hk : k ≤ m.key l.cur
  · have hagain : Finishes m n (.run .keyAgain k b l) := HaltsIn.step rfl id (.of_done trivial)
    exact HaltsIn.step (by simp [Searcher.step, hk]) id hagain
  · exact HaltsIn.step (by simp [Searcher.step, hk]) id hl

/-- A walk whose last load is current goes through the chain ahead, one iteration a node. -/
private theorem finishes_walk (hc : Chain m.next p c) (hp : m.load l.prev = p) : Finishes m c.length (Searcher.loop k b l p) := by
  induction c generalizing p l with
  | nil =>
    cases hc
    exact .of_done trivial
  | cons a c ih =>
    obtain ⟨rfl, hc⟩ := hc
    refine HaltsIn.enter rfl trivial (HaltsIn.step (y := .run .next k b { l with cur := a }) ?_ id (HaltsIn.step rfl id ?_))
    · simp [Searcher.step, hp]
    · exact finishes_key (ih hc rfl)

private theorem finishes_head (hb : Chain m.next (m.heads b) c) : Finishes m c.length (.run .head k b l) :=
  HaltsIn.step rfl id (finishes_walk hb rfl)

private theorem finishes_next (hc : Chain m.next (m.next l.cur) c) : Finishes m c.length (.run .next k b l) :=
  HaltsIn.step rfl id (finishes_key (finishes_walk hc rfl))

/-- The test may send the search back, once. -/
private theorem finishes_check (hr : ∀ l, Finishes m n (.run .head k b l)) (hn : n ≤ n')
    (hx : Finishes m n' (.run .next k b l)) : Finishes m n' (.run .check k b l) := by
  by_cases hl : m.load l.prev = some l.cur
  · exact HaltsIn.step (by simp [Searcher.step, hl]) id hx
  · exact HaltsIn.step (by simp [Searcher.step, hl]) id ((hr l).mono hn)

/-- Where no path is a cycle, a search in progress returns, even from a node that is free or in another bucket. -/
theorem finishes (he : Ends m.next) (hx : x.bucket = some b) :
    Finishes m ((chainOf m.next (x.ahead m)).length + (m.chain b).length) x := by
  have hr (k : Int) (l : Locals β) : Finishes m (m.chain b).length (.run .head k b l) := finishes_head (he.chainOf_spec _)
  have hcheck (k : Int) (l : Locals β) :
      Finishes m ((chainOf m.next (m.next l.cur)).length + (m.chain b).length) (.run .check k b l) :=
    finishes_check (hr k) (Nat.le_add_left ..) ((finishes_next (he.chainOf_spec _)).mono (Nat.le_add_right ..))
  cases x with
  | idle | returned => cases hx
  | run pc k b l =>
    cases hx
    cases pc with
    | head => exact (hr k l).mono (Nat.le_add_left ..)
    | protect =>
      simp only [Searcher.ahead, he.chainOf_some, List.length_cons, Nat.add_right_comm _ 1]
      exact HaltsIn.enter rfl trivial (hcheck k l)
    | check =>
      simp only [Searcher.ahead, he.chainOf_some, List.length_cons, Nat.add_right_comm _ 1]
      exact (hcheck k l).mono (Nat.le_succ _)
    | next => exact (finishes_next (he.chainOf_spec _)).mono (Nat.le_add_right ..)
    | key =>
      refine finishes_key ?_
      simp only [Searcher.ahead]
      cases hp : l.next with
      | none => exact .of_done trivial
      | some q =>
        simp only [he.chainOf_some, List.length_cons, Nat.add_right_comm _ 1]
        exact HaltsIn.enter rfl trivial (hcheck k { l with prev := .next l.cur, cur := q, next := some q, off := !l.off })
    | keyAgain => exact HaltsIn.step rfl id (.of_done trivial)

/-- Reader `r` goes back to `try_again`. -/
def Retries (r : Nat) (_ : State β) (a : Act β) (t : State β) : Prop := a = .read r ∧ (t.rd r).AtRetry

/-- Reader `r` begins an iteration of its loop. -/
def Iterates (r : Nat) (s : State β) (a : Act β) (_ : State β) : Prop := a = .read r ∧ (s.rd r).AtBody

/-- The updater changes the link that reader `r` has loaded and is to load again. -/
def Spoils (r : Nat) (s : State β) (a : Act β) (t : State β) : Prop :=
  a = .update ∧ ∃ lk p, (s.rd r).saved = some (lk, p) ∧ t.mem.load lk ≠ s.mem.load lk

/-- Any step but one of the updater in list_writer.c, `r` itself starting no other call. -/
def Act.Quiet (r : Nat) : Act β → Prop
  | .update => False
  | .call r' _ _ _ => r' ≠ r
  | .begin .. | .alloc _ | .scan | .free _ | .read _ => True

section system
variable [DecidableEq β] {cfg : Config} {s t : State β} {r : Nat} {a : Act β}

/-- Such a step leaves the nodes as they were. -/
theorem step_frame (hs : step cfg s a = some t) (ha : a ≠ .update) :
    (∃ f, t.mem = { s.mem with avail := f }) ∧ (a ≠ .read r → (∀ k b l, a ≠ .call r k b l) → t.rd r = s.rd r) ∧
      (a = .read r → (s.rd r).step s.mem = some (t.rd r)) := by
  cases a with
  | update => exact (ha rfl).elim
  | begin op k b =>
    obtain ⟨w, _, rfl⟩ := Option.map_eq_some_iff.mp hs
    exact ⟨⟨_, rfl⟩, fun _ _ => rfl, fun he => by cases he⟩
  | alloc n =>
    obtain ⟨⟨m', w⟩, hm, rfl⟩ := Option.map_eq_some_iff.mp hs
    unfold Writer.alloc at hm
    split at hm
    · split at hm <;> cases hm
      exact ⟨⟨_, rfl⟩, fun _ _ => rfl, fun he => by cases he⟩
    · cases hm
  | scan =>
    obtain ⟨smr, _, rfl⟩ := Option.map_eq_some_iff.mp hs
    exact ⟨⟨_, rfl⟩, fun _ _ => rfl, fun he => by cases he⟩
  | free junk =>
    obtain ⟨smr, _, rfl⟩ := Option.map_eq_some_iff.mp hs
    exact ⟨⟨_, rfl⟩, fun _ _ => rfl, fun he => by cases he⟩
  | call r' k b l =>
    simp only [ListHp.step] at hs
    split at hs
    · split at hs <;> cases hs <;>
        exact ⟨⟨_, rfl⟩, fun _ hno => Function.update_of_ne (fun he => hno k b l (by rw [he])) _ _, fun he => by cases he⟩
    · cases hs
  | read r' =>
    obtain ⟨x, hx, rfl⟩ := Option.map_eq_some_iff.mp hs
    refine ⟨⟨_, rfl⟩, fun hne _ => Function.update_of_ne (fun he => hne (by rw [he])) _ _, fun he => ?_⟩
    cases he
    simpa using hx

omit [DecidableEq β] in
private theorem fresh_avail (f : Addr → Bool) (h : x.Fresh m) : x.Fresh { m with avail := f } := by
  intro lk p he
  rw [← h lk p he]
  cases lk <;> rfl

private theorem update_rd (hs : step cfg s .update = some t) : t.rd = s.rd := by
  simp only [ListHp.step] at hs
  split at hs
  · unfold State.update at hs
    split at hs
    case h_1 | h_2 | h_3 =>
      cases hs
      rfl
    case h_4 =>
      obtain ⟨mw, _, rfl⟩ := Option.map_eq_some_iff.mp hs
      rfl
  · cases hs

/-- Only a store to the very link can take away what an attempt has loaded. -/
theorem fresh_step (hs : step cfg s a = some t) (hno : ∀ k b l, a ≠ .call r k b l) (h : (s.rd r).Fresh s.mem) :
    ¬ Retries r s a t ∧ ((t.rd r).Fresh t.mem ∨ Spoils r s a t) := by
  by_cases hu : a = .update
  · subst hu
    refine ⟨fun hr => (nomatch hr.1), ?_⟩
    by_cases hsp : Spoils r s .update t
    · exact .inr hsp
    · refine .inl fun lk p he => ?_
      rw [update_rd hs] at he
      rw [← h lk p he]
      by_contra hne
      exact hsp ⟨rfl, lk, p, he, hne⟩
  · obtain ⟨⟨f, hm⟩, hother, hread⟩ := step_frame (r := r) hs hu
    by_cases hr : a = .read r
    · obtain ⟨hf, hn⟩ := h.read (hread hr)
      exact ⟨fun hre => hn hre.2, .inl (hm ▸ fresh_avail f hf)⟩
    · rw [hother hr hno]
      exact ⟨fun hre => hr hre.1, .inl (hm ▸ fresh_avail f h)⟩

/-- From a call on, each jump back is charged to the updater. -/
theorem charged {tr : List (Act β × State β)} (hcall : ∃ s₀ k b l, step cfg s₀ (.call r k b l) = some s)
    (hrun : Run (Steps (step cfg)) s tr t) (hno : ∀ e ∈ tr, ∀ k b l, e.1 ≠ .call r k b l) :
    Charged (Retries r) (Spoils r) s tr := by
  refine (hrun.guarded (G := fun a => ∀ k b l, a ≠ .call r k b l) hno).charged (fun s => (s.rd r).Fresh s.mem) ?_
    (fun _ _ _ hs h => fresh_step hs.1 hs.2 h) fun t a u _ hr => ⟨hr.2.fresh, fun hsp => ?_⟩
  · obtain ⟨s₀, k, b, l, hcall⟩ := hcall
    simp only [ListHp.step] at hcall
    split at hcall
    · split at hcall <;> cases hcall <;> exact Searcher.AtRetry.fresh (by simp [Searcher.AtRetry])
    · cases hcall
  · cases hr.1.symm.trans hsp.1

theorem ends_reachable (h : Reachable (Steps (step cfg)) (.init β) s) : Ends s.mem.next :=
  ends_of_relinks State.mem State.upd (fun _ hs => (inv_reachable hs).elim fun _ hi => hi.writers)
    (fun _ _ _ _ => step_relinks) rfl h

/-- From any reachable state, with nothing done in list_writer.c, a search returns. -/
theorem ends_alone (h : Reachable (Steps (step cfg)) (.init β) s) (hr : (s.rd r).bucket = some b) :
    ∃ N, ∀ tr t, Run (Steps (step cfg)) s tr t → (∀ e ∈ tr, e.1.Quiet r) →
      stepCount (fun _ a _ => a = .read r) s tr ≤ N ∧
      stepCount (Iterates r) s tr ≤ (chainOf s.mem.next ((s.rd r).ahead s.mem)).length + (s.mem.chain b).length ∧
      ((t.rd r).Returned ∨ ∃ u, step cfg t (.read r) = some u) := by
  have hdone (m : Mem β) (x : Searcher β) (hx : x.Returned) : x.step m = none := by
    cases x with
    | idle | run => exact hx.elim
    | returned => rfl
  -- what the searches look at
  let shared (t : State β) : Mem β := { t.mem with avail := fun _ => false }
  have hsame (t : State β) (x : Searcher β) : x.step (shared t) = x.step t.mem := Searcher.step_avail _
  have hquiet {a : Act β} (ha : a.Quiet r) : a ≠ .update ∧ ∀ k b l, a ≠ .call r k b l := by
    refine ⟨fun he => ?_, fun k b l he => ?_⟩
    · rw [he] at ha
      exact ha
    · rw [he] at ha
      exact ha rfl
  have hframe (t : State β) (a : Act β) (u : State β) (hs : Steps (step cfg) t a u ∧ a.Quiet r) : shared u = shared t := by
    obtain ⟨f, hm⟩ := (step_frame (r := r) hs.1 (hquiet hs.2).1).1
    simp only [shared, hm]
  have hmine (t : State β) (a : Act β) (u : State β) (hs : Steps (step cfg) t a u ∧ a.Quiet r) (he : a = .read r) :
      (t.rd r).step (shared t) = some (u.rd r) := by
    rw [hsame]
    exact (step_frame hs.1 (hquiet hs.2).1).2.2 he
  have hother (t : State β) (a : Act β) (u : State β) (hs : Steps (step cfg) t a u ∧ a.Quiet r) (he : a ≠ .read r) :
      u.rd r = t.rd r := (step_frame hs.1 (hquiet hs.2).1).2.1 he (hquiet hs.2).2
  have hfin : Finishes (shared s) _ (s.rd r) := finishes (ends_reachable h) hr
  obtain ⟨N, halone⟩ := hfin.alone shared (fun t => t.rd r) (fun a => a = .read r) hframe hmine hother hdone
  refine ⟨N, fun tr t hrun hread => ?_⟩
  obtain ⟨hN, hn, hend⟩ := halone tr t (hrun.guarded hread)
  have hahead : (s.rd r).ahead (shared s) = (s.rd r).ahead s.mem := by
    cases s.rd r with
    | idle | returned => rfl
    | run pc => cases pc <;> rfl
  rw [hahead] at hn
  refine ⟨hN, hn, hend.imp_right fun ⟨y, hy⟩ => ?_⟩
  rw [hsame] at hy
  exact ⟨_, by simp only [ListHp.step, State.read, hy]; rfl⟩

end system

/-- The readers of list_hp.c, hazard slots stale or not. From a call on, each jump to `try_again` is charged to a store
of its own by the updater, to the very link that the search has loaded and is to load again. From any reachable state,
while the updater goes no further in list_writer.c, even if it scans and frees, a search is never stuck and returns,
having visited the nodes ahead of it and its bucket at most. -/
theorem hp_readers_progress {β : Type} [DecidableEq β] (cfg : Config) (r : Nat) :
    (∀ (s₀ s t : State β) k b l tr, step cfg s₀ (.call r k b l) = some s → Run (Steps (step cfg)) s tr t →
      (∀ e ∈ tr, ∀ k b l, e.1 ≠ .call r k b l) →
      Charged (Retries r) (Spoils r) s tr ∧ stepCount (Retries r) s tr ≤ stepCount (Spoils r) s tr) ∧
    ∀ (s : State β) b, Reachable (Steps (step cfg)) (.init β) s → (s.rd r).bucket = some b →
      ∃ N, ∀ tr t, Run (Steps (step cfg)) s tr t → (∀ e ∈ tr, e.1.Quiet r) →
        stepCount (fun _ a _ => a = .read r) s tr ≤ N ∧
        stepCount (Iterates r) s tr ≤ (chainOf s.mem.next ((s.rd r).ahead s.mem)).length + (s.mem.chain b).length ∧
        ((t.rd r).Returned ∨ ∃ u, step cfg t (.read r) = some u) := by
  refine ⟨fun s₀ s t k b l tr hcall hrun hno => ?_, fun s b h hr => ends_alone h hr⟩
  have hc := charged ⟨s₀, k, b, l, hcall⟩ hrun hno
  exact ⟨hc, hc.count_le⟩

/-- A search that a `delete` sends back to `try_again`. -/
theorem hp_readers_progress_unlinked : ∃ (s t : State Unit) (tr : List (Act Unit × State Unit)), (t.rd 1).AtRetry ∧
    tr.length = 13 ∧ Run (Steps (step twoThreads)) s tr t ∧ Charged (Retries 1) (Spoils 1) s tr ∧
    ∃ N, ∀ tr' u, Run (Steps (step twoThreads)) t tr' u → (∀ e ∈ tr', e.1.Quiet 1) →
      stepCount (fun _ a _ => a = .read 1) t tr' ≤ N := by
  have h : (exec (ListHp.step twoThreads) (.init Unit) (insertFirst 5 0 ++ Act.call 1 5 () ⟨.head (), 0, none, true⟩ ::
      ([.read 1, .read 1] ++ deleteFirst 5 ++ [.read 1]))).any fun t =>
      decide (t.rd 1 = .run .head 5 () ⟨.head (), 0, none, false⟩) := by decide +kernel
  obtain ⟨s₀, s, t, tr, h₀, hcall, hrun, hp, hlen, hin⟩ := exec_around h
  have hrd := of_decide_eq_true hp
  obtain ⟨hcharged, hend⟩ := hp_readers_progress (β := Unit) twoThreads 1
  have hno (e) (he : e ∈ tr) (k b l) : e.1 ≠ .call 1 k b l := fun hc => by
    have hm := hin e he
    simp [hc] at hm
  obtain ⟨N, hN⟩ := hend t () (hrun.reachable_append (h₀.trans ⟨_, .snoc .nil hcall⟩)) (by rw [hrd]; rfl)
  refine ⟨s, t, tr, by rw [hrd]; trivial, by simpa using hlen, hrun, (hcharged s₀ s t _ _ _ tr hcall hrun hno).1, N, ?_⟩
  exact fun tr' u hr hq => (hN tr' u hr hq).1

end Gecos.ListHp
