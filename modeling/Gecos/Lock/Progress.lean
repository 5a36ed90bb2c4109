import Gecos.Library.LockFree
import Gecos.Lock.Gclock
import Gecos.Table.Paths

/-! The readers of list_lock.c with SEQLOCK and GCLOCK: what sends them back to `search_retry`, and that
they return once it stops. -/
namespace Gecos.ListLock
open Library
variable {β υ ρ : Type} {B : Build υ} {m : Mem β} {k : Int} {b : β} {v n n' : Nat} {x x' : Searcher β} {p : Ptr}
  {c : List Addr}

namespace Searcher

/-- The search is at `search_retry`, or waits in `lock_rlock`. -/
def AtRetry : Searcher β → Prop
  | .rlock .. => True
  | _ => False

/-- The search is at the start of the body of its loop, at `lock_validate` where that is not empty. -/
def AtBody (B : Build υ) : Searcher β → Prop
  | .validate .. => B.validates = true
  | .key .. => B.validates = false
  | _ => False

def Returned : Searcher β → Prop
  | .returned _ => True
  | _ => False

def bucket : Searcher β → Option β
  | .rlock _ b | .head _ b _ | .validate _ b _ _ | .key _ b _ _ | .next _ b _ _ | .validateCur _ b _ _ | .runlock _ b _ _ =>
    some b
  | .idle | .returned _ => none

/-- The bucket of the attempt in progress, and what it saved of the word. -/
def saved : Searcher β → Option (β × Nat)
  | .head _ b v | .validate _ b v _ | .key _ b v _ | .next _ b v _ | .validateCur _ b v _ | .runlock _ b v _ => some (b, v)
  | .idle | .rlock .. | .returned _ => none

/-- The first of the nodes that the attempt would visit yet. -/
def ahead (m : Mem β) : Searcher β → Ptr
  | .head _ b _ => m.heads b
  | .validate _ _ _ cur | .key _ _ _ cur => some cur
  | .next _ _ _ cur => m.next cur
  | .validateCur _ _ _ cur => cur
  | .idle | .rlock .. | .runlock .. | .returned _ => none

/-- No validation of this attempt would fail now, and with SEQLOCK nobody is inside. -/
def Fresh (B : Build υ) (m : Mem β) (x : Searcher β) : Prop :=
  ∀ b v, x.saved = some (b, v) → v = B.version (m.locks b) ∧ (B.macros = .seqlock → m.locks b % 2 = 0)

@[simp] theorem saved_loop : (loop B k b v p).saved = some (b, v) := by
  cases p with
  | none => rfl
  | some cur =>
    simp only [loop]
    split <;> rfl

theorem AtRetry.fresh (h : x.AtRetry) : x.Fresh B m := by
  cases x with
  | rlock => exact fun _ _ he => nomatch he
  | _ => exact h.elim

theorem Fresh.congr {m' : Mem β} (h : x.Fresh B m) (hl : ∀ b v, x.saved = some (b, v) → m'.locks b = m.locks b) :
    x.Fresh B m' := by
  intro b v hs
  rw [hl b v hs]
  exact h b v hs

theorem bucket_saved (h : x.saved = some (b, v)) : x.bucket = some b := by
  cases x <;> cases h <;> rfl

private theorem Fresh.same (h : x.Fresh B m) (hx : x.saved = some (b, v)) (hx' : x'.saved = some (b, v)) :
    x'.Fresh B m ∧ (x'.AtRetry → x.AtRetry) := by
  refine ⟨fun b v he => h b v (hx.trans (hx'.symm.trans he)), fun hr => ?_⟩
  cases x' with
  | rlock => cases hx'
  | _ => exact hr.elim

private theorem Fresh.validated (h : x.Fresh B m) (hx : x.saved = some (b, v)) : validated B m k b v x' = x' :=
  if_neg (not_not.mpr (h b v hx).1)

/-- While the word is as it was, no step of the search goes back to `search_retry`. -/
theorem Fresh.read (h : x.Fresh B m) (hs : x.step B m = some x') : x'.Fresh B m ∧ (x'.AtRetry → x.AtRetry) := by
  cases x with
  | idle | returned => cases hs
  | rlock k b =>
    refine ⟨?_, fun _ => trivial⟩
    cases hs
    split
    · exact AtRetry.fresh trivial
    · rename_i hodd
      intro b' v' he
      cases he
      refine ⟨rfl, fun hm => ?_⟩
      have hne : m.locks b % 2 ≠ 1 := fun ho => hodd ⟨hm, ho⟩
      omega
  | head k b v =>
    cases hs
    exact h.same rfl saved_loop
  | validate k b v cur =>
    cases hs
    rw [h.validated rfl]
    exact h.same rfl rfl
  | key k b v cur =>
    cases hs
    split <;> exact h.same rfl rfl
  | next k b v cur =>
    cases hs
    split
    · exact h.same rfl rfl
    · exact h.same rfl saved_loop
  | validateCur k b v cur =>
    cases hs
    rw [h.validated rfl]
    exact h.same rfl saved_loop
  | runlock k b v res =>
    cases hs
    rw [h.validated rfl]
    exact ⟨fun _ _ he => (nomatch he), False.elim⟩

end Searcher

/-- With the memory as it is, the search returns after beginning at most `n` iterations. -/
abbrev Finishes (B : Build υ) (m : Mem β) (n : Nat) (x : Searcher β) : Prop :=
  HaltsIn (Searcher.step B m) (Searcher.AtBody B) Searcher.Returned n x

private theorem finishes_validated (hr : v ≠ B.version (m.locks b) → Finishes B m n (.rlock k b)) (hn : n ≤ n')
    (hx : Finishes B m n' x) : Finishes B m n' (Searcher.validated B m k b v x) := by
  unfold Searcher.validated
  split
  · rename_i hne
    exact (hr hne).mono hn
  · exact hx

private theorem finishes_runlock {res : Nat} (hr : v ≠ B.version (m.locks b) → Finishes B m n (.rlock k b)) :
    Finishes B m n (.runlock k b v res) :=
  HaltsIn.step rfl id (finishes_validated hr le_rfl (.of_done trivial))

private theorem finishes_next {cur : Addr} (hr : v ≠ B.version (m.locks b) → Finishes B m n (.rlock k b)) (hn : n ≤ n')
    (hl : Finishes B m n' (Searcher.loop B k b v (m.next cur))) : Finishes B m n' (.next k b v cur) := by
  refine HaltsIn.step rfl id ?_
  split
  · exact HaltsIn.step rfl id (finishes_validated hr hn hl)
  · exact hl

/-- A node counts once, at `lock_validate` or at the load of its key. -/
private theorem finishes_key {cur : Addr} (hr : v ≠ B.version (m.locks b) → Finishes B m n (.rlock k b)) (hn : n ≤ n')
    (hl : Finishes B m n' (Searcher.loop B k b v (m.next cur))) :
    Finishes B m (if B.validates then n' else n' + 1) (.key k b v cur) := by
  have hkey : Finishes B m n' (if k ≤ m.key cur then .runlock k b v (if m.key cur = k then 1 else 0) else .next k b v cur) := by
    split
    · exact (finishes_runlock hr).mono hn
    · exact finishes_next hr hn hl
  cases hval : B.validates with
  | true => exact HaltsIn.step rfl (by simp [Searcher.AtBody, hval]) hkey
  | false => exact HaltsIn.enter rfl hval hkey

private theorem finishes_validate {cur : Addr} (hr : v ≠ B.version (m.locks b) → Finishes B m n (.rlock k b)) (hn : n ≤ n')
    (hl : Finishes B m n' (Searcher.loop B k b v (m.next cur))) : Finishes B m (n' + 1) (.validate k b v cur) := by
  have hkey := finishes_key hr hn hl
  cases hval : B.validates with
  | true =>
    rw [hval] at hkey
    exact HaltsIn.enter rfl hval (finishes_validated hr hn hkey)
  | false =>
    rw [hval] at hkey
    exact HaltsIn.step rfl (by simp [Searcher.AtBody, hval]) (finishes_validated hr (by omega) hkey)

/-- Along a path that ends, through whatever nodes, and then once more if the word has changed. -/
private theorem finishes_loop (hr : v ≠ B.version (m.locks b) → Finishes B m n (.rlock k b)) (hc : Chain m.next p c) :
    Finishes B m (c.length + n) (Searcher.loop B k b v p) := by
  induction c generalizing p with
  | nil =>
    cases hc
    exact (finishes_runlock hr).mono (Nat.le_add_left ..)
  | cons cur c ih =>
    obtain ⟨rfl, hc⟩ := hc
    have hn : n ≤ c.length + n := Nat.le_add_left ..
    rw [List.length_cons, Nat.add_right_comm]
    unfold Searcher.loop
    cases hval : B.validates with
    | true => exact finishes_validate hr hn (ih hc)
    | false =>
      have hkey := finishes_key hr hn (ih hc)
      rwa [hval] at hkey

private theorem finishes_rlock (hb : Chain m.next (m.heads b) c) (heven : B.macros = .seqlock → m.locks b % 2 = 0) :
    Finishes B m c.length (.rlock k b) := by
  have hhead : (Searcher.rlock k b).step B m = some (.head k b (B.version (m.locks b))) := by
    refine congrArg some (if_neg fun ⟨hm, ho⟩ => ?_)
    have := heven hm
    omega
  have hloop : Finishes B m (c.length + 0) (Searcher.loop B k b (B.version (m.locks b)) (m.heads b)) :=
    finishes_loop (fun hne => (hne rfl).elim) hb
  exact HaltsIn.step hhead id (HaltsIn.step rfl id hloop)

/-- Where no path is a cycle and nobody is inside its bucket, a search in progress returns, even from a node
that is free or in another bucket. -/
theorem finishes (he : Ends m.next) (hx : x.bucket = some b) (heven : B.macros = .seqlock → m.locks b % 2 = 0) :
    Finishes B m ((chainOf m.next (x.ahead m)).length + (m.chain b).length) x := by
  have hr (k : Int) : Finishes B m (m.chain b).length (.rlock k b) := finishes_rlock (he.chainOf_spec _) heven
  cases x with
  | idle | returned => cases hx
  | rlock k b =>
    cases hx
    exact (hr k).mono (Nat.le_add_left ..)
  | head k b v =>
    cases hx
    exact HaltsIn.step rfl id (finishes_loop (fun _ => hr k) (he.chainOf_spec _))
  | validate k b v cur =>
    cases hx
    have hloop := finishes_loop (fun _ => hr k) (he.chainOf_spec (m.next cur)) (v := v)
    simp only [Searcher.ahead, he.chainOf_some, List.length_cons, Nat.add_right_comm _ 1]
    exact finishes_validate (fun _ => hr k) (Nat.le_add_left ..) hloop
  | key k b v cur =>
    cases hx
    have hloop := finishes_loop (fun _ => hr k) (he.chainOf_spec (m.next cur)) (v := v)
    simp only [Searcher.ahead, he.chainOf_some, List.length_cons, Nat.add_right_comm _ 1]
    refine (finishes_key (fun _ => hr k) (Nat.le_add_left ..) hloop).mono ?_
    split <;> omega
  | next k b v cur =>
    cases hx
    exact finishes_next (fun _ => hr k) (Nat.le_add_left ..) (finishes_loop (fun _ => hr k) (he.chainOf_spec _))
  | validateCur k b v cur =>
    cases hx
    refine HaltsIn.step rfl id (finishes_validated (fun _ => hr k) (Nat.le_add_left ..) ?_)
    exact finishes_loop (fun _ => hr k) (he.chainOf_spec _)
  | runlock k b v res =>
    cases hx
    exact (finishes_runlock fun _ => hr k).mono (Nat.le_add_left ..)

/-- Reader `r` jumps to `search_retry`. -/
def Retries (r : ρ) (s : State β υ ρ) (a : Act β υ ρ) (t : State β υ ρ) : Prop :=
  a = .read r ∧ ¬ (s.rd r).AtRetry ∧ (t.rd r).AtRetry

/-- Reader `r` begins an iteration of its loop. -/
def Iterates (B : Build υ) (r : ρ) (s : State β υ ρ) (a : Act β υ ρ) (_ : State β υ ρ) : Prop :=
  a = .read r ∧ (s.rd r).AtBody B

/-- A step of a reader, `r` itself starting no other call. -/
def Act.Reading (r : ρ) : Act β υ ρ → Prop
  | .read _ => True
  | .call r' _ _ => r' ≠ r
  | _ => False

section system
variable [DecidableEq β] [DecidableEq υ] [DecidableEq ρ] {s t : State β υ ρ} {r : ρ} {a : Act β υ ρ}

/-- An updater changes the word of the bucket that reader `r` searches: with SEQLOCK it enters, with GCLOCK
it leaves. -/
def Spoils (B : Build υ) (r : ρ) (s : State β υ ρ) (a : Act β υ ρ) (_ : State β υ ρ) : Prop :=
  ∃ u b, a = .update u ∧ (s.rd r).bucket = some b ∧
    match B.macros with
    | .seqlock => (s.upd u).takes B s.mem = some b
    | .gclock => (s.upd u).gives B = some b

omit [DecidableEq υ] [DecidableEq ρ] in
/-- No other access of an updater takes away what an attempt has read. -/
theorem Inv.fresh_update (hi : Inv B s) {u : υ} {m' : Mem β} {x' : Updater β} (hs : (s.upd u).step B s.mem = some (m', x'))
    (h : (s.rd r).Fresh B s.mem) : (s.rd r).Fresh B m' ∨ Spoils B r s (.update u) t := by
  have hmoves := hi.moves hs
  generalize hin : (s.upd u).takes B s.mem = i, hout : (s.upd u).gives B = o at hmoves
  cases hmoves with
  | access w _ w' hx hw =>
    have hw' : (s.upd u).writer.step () s.mem = some (m', w') := by
      rw [hx]
      exact hw
    have hl := (hi.writers.step_keeps hw').2.2.2.2.1
    exact .inl (h.congr fun b _ _ => congrFun hl b)
  | rest | freeInside | free => exact .inl h
  | enter op k b g x' hx hx' _ _ hm hn =>
    by_cases hb : ∃ v, (s.rd r).saved = some (b, v)
    · obtain ⟨v, hv⟩ := hb
      cases hB : B.macros with
      | seqlock => exact .inr ⟨u, b, rfl, Searcher.bucket_saved hv, by rw [hB]; exact hin⟩
      | gclock =>
        have hver : B.version (Function.update s.mem.locks b g b) = B.version (s.mem.locks b) := by
          rw [Function.update_self]
          exact version_enter hB hm hn
        refine .inl fun b' v' he => ⟨?_, fun hseq => by cases hB.symm.trans hseq⟩
        cases hv.symm.trans he
        exact (h b v hv).1.trans hver.symm
    · refine .inl (h.congr fun b' v' he => ?_)
      have hne : b' ≠ b := fun hbb => hb ⟨v', hbb ▸ he⟩
      exact Function.update_of_ne hne _ _
  | leave b e hx =>
    by_cases hb : ∃ v, (s.rd r).saved = some (b, v)
    · obtain ⟨v, hv⟩ := hb
      cases hB : B.macros with
      | gclock => exact .inr ⟨u, b, rfl, Searcher.bucket_saved hv, by rw [hB]; exact hout⟩
      | seqlock =>
        -- the attempt began with nobody inside, so somebody has entered first
        have hinside : (s.upd u).inside = some b := by
          refine (congrArg Writer.inside hx).trans ?_
          cases e <;> rfl
        have hodd := (hi.word (.inl hB) b).mpr ⟨u, hinside⟩
        have heven := (h b v hv).2 hB
        omega
    · refine .inl (h.congr fun b' v' he => ?_)
      have hne : b' ≠ b := fun hbb => hb ⟨v', hbb ▸ he⟩
      exact Function.update_of_ne hne _ _

/-- Only an updater that changes the word can spoil what an attempt has read. -/
theorem Inv.fresh_step (hi : Inv B s) (hs : ListLock.step B s a = some t) (hno : ∀ k b, a ≠ .call r k b)
    (h : (s.rd r).Fresh B s.mem) : ¬ Retries r s a t ∧ ((t.rd r).Fresh B t.mem ∨ Spoils B r s a t) := by
  cases a with
  | begin u op k b =>
    obtain ⟨x, _, rfl⟩ := Option.map_eq_some_iff.mp hs
    exact ⟨fun hr => (by cases hr.1), .inl h⟩
  | update u =>
    obtain ⟨⟨m', x'⟩, hm, rfl⟩ := Option.map_eq_some_iff.mp hs
    exact ⟨fun hr => (by cases hr.1), hi.fresh_update hm h⟩
  | alloc u n =>
    obtain ⟨⟨m', x'⟩, hm, rfl⟩ := Option.map_eq_some_iff.mp hs
    have hl := (alloc_outside hm).2.2.2.2
    exact ⟨fun hr => (by cases hr.1), .inl (h.congr fun b _ _ => congrFun hl b)⟩
  | call r' k b =>
    have hne : r ≠ r' := fun he => hno k b (by rw [he])
    simp only [ListLock.step] at hs
    split at hs <;> cases hs <;>
      exact ⟨fun hr => (by cases hr.1), .inl (by simpa [Function.update_of_ne hne] using h)⟩
  | read r' =>
    obtain ⟨x, hx, rfl⟩ := Option.map_eq_some_iff.mp hs
    by_cases he : r' = r
    · subst he
      obtain ⟨hf, hn⟩ := h.read hx
      exact ⟨fun hr => hr.2.1 (hn (by simpa using hr.2.2)), .inl (by simpa using hf)⟩
    · refine ⟨fun hr => he (Act.read.inj hr.1), .inl ?_⟩
      simpa [Function.update_of_ne (Ne.symm he)] using h

/-- From a call on, each jump back is charged to an updater in the same bucket. -/
theorem charged {tr : List (Act β υ ρ × State β υ ρ)} (hi : Inv B s) (hfresh : (s.rd r).Fresh B s.mem)
    (hrun : Run (Steps (step B)) s tr t) (hno : ∀ e ∈ tr, ∀ k b, e.1 ≠ .call r k b) :
    Charged (Retries r) (Spoils B r) s tr := by
  have hkeep := (hrun.guarded (G := fun a => ∀ k b, a ≠ .call r k b) hno).keeping hi fun _ _ _ hi hr => hi.step hr.1
  refine hkeep.charged (fun s => (s.rd r).Fresh B s.mem) hfresh (fun _ _ _ hs h => hs.2.fresh_step hs.1.1 hs.1.2 h)
    fun t a u _ hr => ⟨hr.2.2.fresh, ?_⟩
  rintro ⟨v, _, hv, _⟩
  cases hr.1.symm.trans hv

/-- Who waits in `lock_rlock`, waits for an updater inside. -/
theorem Inv.waits (hi : Inv B s) (hs : ListLock.step B s (.read r) = some t) (hr : (s.rd r).AtRetry) (ht : (t.rd r).AtRetry) :
    B.macros = .seqlock ∧ ∃ u b, (s.rd r).bucket = some b ∧ (s.upd u).inside = some b := by
  obtain ⟨x, hx, rfl⟩ := Option.map_eq_some_iff.mp hs
  have ht' : x.AtRetry := by simpa using ht
  cases hrd : s.rd r with
  | rlock k b =>
    rw [hrd] at hx
    cases hx
    split at ht'
    · rename_i hodd
      obtain ⟨u, hu⟩ := (hi.word (.inl hodd.1) b).mp hodd.2
      exact ⟨hodd.1, u, b, rfl, hu⟩
    · exact ht'.elim
  | _ =>
    rw [hrd] at hr
    exact hr.elim

/-- A reader's step leaves the memory alone, and moves that reader only. -/
private theorem reading_step (hs : step B s a = some t) (ha : a.Reading r) :
    t.mem = s.mem ∧ (a = .read r → (s.rd r).step B s.mem = some (t.rd r)) ∧ (a ≠ .read r → t.rd r = s.rd r) := by
  cases a with
  | begin | update | alloc => exact ha.elim
  | call r' k b =>
    refine ⟨?_, fun he => (nomatch he), fun _ => ?_⟩ <;> simp only [ListLock.step] at hs <;>
      split at hs <;> cases hs
    all_goals first | rfl | exact Function.update_of_ne (Ne.symm ha) _ _
  | read r' =>
    obtain ⟨x, hx, rfl⟩ := Option.map_eq_some_iff.mp hs
    refine ⟨rfl, fun he => ?_, fun he => ?_⟩
    · cases he
      simpa using hx
    · exact Function.update_of_ne (fun hr => he (by rw [hr])) _ _

/-- From any reachable state, with no updater moving and, for SEQLOCK, none inside, a search returns. -/
theorem ends_alone (h : Reachable (Steps (step B)) (.init β υ ρ) s) (hr : (s.rd r).bucket = some b)
    (hout : B.macros = .seqlock → ∀ u, (s.upd u).inside ≠ some b) :
    ∃ N, ∀ tr t, Run (Steps (step B)) s tr t → (∀ e ∈ tr, e.1.Reading r) →
      stepCount (fun _ a _ => a = .read r) s tr ≤ N ∧
      stepCount (Iterates B r) s tr ≤ (chainOf s.mem.next ((s.rd r).ahead s.mem)).length + (s.mem.chain b).length ∧
      ((t.rd r).Returned ∨ ∃ u, step B t (.read r) = some u) := by
  have hdone (m : Mem β) (x : Searcher β) (hx : x.Returned) : x.step B m = none := by
    cases x with
    | returned => rfl
    | _ => exact hx.elim
  have heven (hB : B.macros = .seqlock) : s.mem.locks b % 2 = 0 := by
    have hodd : ¬ s.mem.locks b % 2 = 1 := fun ho => by
      obtain ⟨u, hu⟩ := ((inv_reachable h).word (.inl hB) b).mp ho
      exact hout hB u hu
    omega
  obtain ⟨N, halone⟩ := (finishes (ends_reachable h) hr heven).alone
    (R := fun t a u => Steps (step B) t a u ∧ a.Reading r) State.mem (fun t => t.rd r) (fun a => a = .read r)
    (fun t a u hs => (reading_step hs.1 hs.2).1) (fun t a u hs => (reading_step hs.1 hs.2).2.1)
    (fun t a u hs => (reading_step hs.1 hs.2).2.2) hdone
  refine ⟨N, fun tr t hrun hread => ?_⟩
  obtain ⟨hN, hn, hend⟩ := halone tr t (hrun.guarded hread)
  refine ⟨hN, hn, hend.imp_right fun ⟨y, hy⟩ => ?_⟩
  exact ⟨_, by simp only [ListLock.step, hy]; rfl⟩

end system

/-- The readers of list_lock.c with SEQLOCK and with GCLOCK. From a call on, each jump to `search_retry` is charged
to an updater of its own, which entered that bucket or, for GCLOCK, left it during the attempt. A reader waits for
an updater inside only, and only with SEQLOCK. From any reachable state, with no updater moving and, for SEQLOCK,
none inside, a search is never stuck and returns, having visited the nodes ahead of it and its bucket at most. -/
theorem lock_readers_progress {β υ ρ : Type} [DecidableEq β] [DecidableEq υ] [DecidableEq ρ] (B : Build υ) (r : ρ) :
    (∀ s₀ s t k b tr, Reachable (Steps (step B)) (.init β υ ρ) s₀ → step B s₀ (.call r k b) = some s →
      Run (Steps (step B)) s tr t → (∀ e ∈ tr, ∀ k b, e.1 ≠ .call r k b) →
      Charged (Retries r) (Spoils B r) s tr ∧ stepCount (Retries r) s tr ≤ stepCount (Spoils B r) s tr) ∧
    (∀ s t, Reachable (Steps (step B)) (.init β υ ρ) s → step B s (.read r) = some t →
      (s.rd r).AtRetry → (t.rd r).AtRetry →
      B.macros = .seqlock ∧ ∃ u b, (s.rd r).bucket = some b ∧ (s.upd u).inside = some b) ∧
    ∀ s b, Reachable (Steps (step B)) (.init β υ ρ) s → (s.rd r).bucket = some b →
      (B.macros = .seqlock → ∀ u, (s.upd u).inside ≠ some b) →
      ∃ N, ∀ tr t, Run (Steps (step B)) s tr t → (∀ e ∈ tr, e.1.Reading r) →
        stepCount (fun _ a _ => a = .read r) s tr ≤ N ∧
        stepCount (Iterates B r) s tr ≤ (chainOf s.mem.next ((s.rd r).ahead s.mem)).length + (s.mem.chain b).length ∧
        ((t.rd r).Returned ∨ ∃ u, step B t (.read r) = some u) := by
  refine ⟨fun s₀ s t k b tr h₀ hcall hrun hno => ?_, fun s t h hs => (inv_reachable h).waits hs,
    fun s b h hr hout => ends_alone h hr hout⟩
  have hfresh : (s.rd r).AtRetry := by
    simp only [ListLock.step] at hcall
    split at hcall <;> cases hcall <;> simp [Searcher.AtRetry]
  have hc := charged ((inv_reachable h₀).step hcall) hfresh.fresh hrun hno
  exact ⟨hc, hc.count_le⟩

/-- A search that a `delete` sends back to `search_retry`, where it waits for it. -/
theorem lock_readers_progress_waits :
    (∃ (s t : State Unit Unit Unit) (tr : List (Act Unit Unit Unit × _)), (t.rd ()).AtRetry ∧ tr.length = 7 ∧
      Charged (Retries ()) (Spoils ⟨.seqlock, false, false, nofun⟩ ()) s tr ∧ (t.upd ()).inside = some ()) ∧
    ∃ (t : State Unit Unit Unit) (N : Nat), t.rd () = .rlock 5 () ∧
      ∀ tr u, Run (Steps (step ⟨.seqlock, false, false, nofun⟩)) t tr u → (∀ e ∈ tr, e.1.Reading ()) →
        stepCount (fun _ a _ => a = .read ()) t tr ≤ N := by
  obtain ⟨hcharged, hwaits, hend⟩ := lock_readers_progress (β := Unit) (ρ := Unit) (⟨.seqlock, false, false, nofun⟩ : Build Unit) ()
  have h : (exec (step ⟨.seqlock, false, false, nofun⟩) (.init Unit Unit Unit) ([Act.begin () .insert 5 ()] ++
      List.replicate 4 (Act.update ()) ++ [.alloc () 0] ++ List.replicate 4 (Act.update ()) ++ Act.call () 5 () ::
      ([.read (), .read (), .begin () .delete 5 ()] ++ List.replicate 3 (Act.update ()) ++ [.read ()]))).any fun t =>
      decide (t.rd () = .rlock 5 ()) && (step ⟨.seqlock, false, false, nofun⟩ t (.read ())).any fun u =>
        decide (u.rd () = .rlock 5 ()) := by decide +kernel
  have hdone : (exec (step ⟨.seqlock, false, false, nofun⟩) (.init Unit Unit Unit) ([Act.begin () .insert 5 ()] ++
      List.replicate 4 (Act.update ()) ++ [.alloc () 0] ++ List.replicate 4 (Act.update ()) ++ Act.call () 5 () ::
      ([.read (), .read (), .begin () .delete 5 ()] ++ List.replicate 3 (Act.update ()) ++ [.read ()] ++
        List.replicate 8 (Act.update ())))).any fun t =>
      decide (t.rd () = .rlock 5 ()) && decide (t.upd () = .list (.returned 1)) := by decide +kernel
  constructor
  · obtain ⟨s₀, s, t, tr, h₀, hcall, hrun, hp, hlen, hin⟩ := exec_around h
    obtain ⟨hr, hu⟩ := Bool.and_eq_true_iff.mp hp
    obtain ⟨u, hu, hru⟩ := (Option.any_eq_true _ _).mp hu
    have hr : (t.rd ()).AtRetry := by rw [of_decide_eq_true hr]; trivial
    have hru : (u.rd ()).AtRetry := by rw [of_decide_eq_true hru]; trivial
    have hno (e) (he : e ∈ tr) (k b) : e.1 ≠ .call () k b := fun hc => by
      have := hin e he
      simp [hc] at this
    obtain ⟨_, v, b, _, hv⟩ := hwaits t u (Run.reachable_append h₀ (.cons hcall hrun)) hu hr hru
    exact ⟨s, t, tr, hr, hlen, (hcharged s₀ s t _ _ tr h₀ hcall hrun hno).1, hv⟩
  · obtain ⟨t, ht, hp⟩ := (Option.any_eq_true _ _).mp hdone
    obtain ⟨hr, hu⟩ := Bool.and_eq_true_iff.mp hp
    have hr := of_decide_eq_true hr
    have hu := of_decide_eq_true hu
    obtain ⟨N, hN⟩ := hend t () ⟨_, exec_run ht⟩ (by rw [hr]; rfl) fun _ _ => by rw [hu]; nofun
    exact ⟨t, N, hr, fun tr u hrun hread => (hN tr u hrun hread).1⟩

end Gecos.ListLock
