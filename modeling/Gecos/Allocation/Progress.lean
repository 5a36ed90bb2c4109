import Gecos.Allocation.Threads
import Gecos.Library.LockFree

/-! The loops of allocator_malloc.c around `__sync_bool_compare_and_swap`, under any number of threads: what makes
one go round again, and that they end. -/
namespace Gecos.Threads
open Library
variable {τ : Type} {s s' : State τ} {t : τ} {c : Nat} {freelist freelist' : Ptr} {mr : Addr → Ptr} {th : Thread}
  {q : Addr} {v : Ptr}

/-- What `freelist` has to be for the thread's next compare-and-swap to succeed, once it has loaded that. -/
def Thread.expects (th : Thread) (mr : Addr → Ptr) : Option Ptr :=
  match th.point with
  | .take => some th.lfl
  | .flushStore v | .retryStore v | .publish v => some v
  | .expect => th.lflTail.map mr
  | _ => none

/-- The next compare-and-swap would succeed now, or `freelist` is to be loaded before it. -/
def Thread.Current (th : Thread) (freelist : Ptr) (mr : Addr → Ptr) : Prop := ∀ v, th.expects mr = some v → v = freelist

def Act.thread : Act τ → τ
  | .newNode t | .freeNode t _ | .run t | .calloc t _ => t

/-- A compare-and-swap of thread `t` that fails, in `get_free` or in `add_free`. -/
def Fails (t : τ) (s : State τ) (a : Act τ) (_ : State τ) : Prop :=
  a = .run t ∧ ((s.threads t).point = .take ∧ s.freelist ≠ (s.threads t).lfl ∨
    ∃ e, (s.threads t).point = .publish e ∧ s.freelist ≠ e)

/-- Another thread changes `freelist`, or `lfl_tail->mr_next` after thread `t` has stored it and before it loads it. -/
def Disturbs (t : τ) (s : State τ) (a : Act τ) (s' : State τ) : Prop :=
  a.thread ≠ t ∧ (s'.freelist ≠ s.freelist ∨
    (s.threads t).point = .expect ∧ ∃ tail, (s.threads t).lflTail = some tail ∧ s'.mrNext tail ≠ s.mrNext tail)

/-- One access of a thread: what it finds in `freelist`, the links and its own variables, and what it leaves there. -/
inductive Access (freelist : Ptr) (mr : Addr → Ptr) (th : Thread) : Ptr → (Addr → Ptr) → Thread → Prop where
  | load : th.point = .load → Access freelist mr th freelist mr
      { th with lfl := freelist, point := if freelist = none then .calloc else .take }
  | take : th.point = .take → freelist = th.lfl → Access freelist mr th none mr { th with point := .pop }
  | retake : th.point = .take → freelist ≠ th.lfl → Access freelist mr th freelist mr { th with point := .load }
  | pop node : th.point = .pop → th.lfl = some node →
      Access freelist mr th freelist mr { th with lfl := mr node, point := .idle }
  | push p : th.point = .push p → Access freelist mr th freelist (Function.update mr p th.lfl)
      { th with lfl := some p, lcnt := th.lcnt + 1, point := if amortFreeOn ≤ th.lcnt + 1 then .flushLoad else .idle }
  | flushLoad : th.point = .flushLoad → Access freelist mr th freelist mr { th with point := .flushStore freelist }
  | store v tail : th.point = .flushStore v ∨ th.point = .retryStore v → th.lflTail = some tail →
      Access freelist mr th freelist (Function.update mr tail v) { th with point := .expect }
  | expect tail : th.point = .expect → th.lflTail = some tail →
      Access freelist mr th freelist mr { th with point := .publish (mr tail) }
  | publish : th.point = .publish freelist → Access freelist mr th th.lfl mr ⟨none, none, 0, .idle⟩
  | republish e : th.point = .publish e → freelist ≠ e → Access freelist mr th freelist mr { th with point := .retryLoad }
  | retryLoad : th.point = .retryLoad → Access freelist mr th freelist mr { th with point := .retryStore freelist }

section step
variable [DecidableEq τ] {a : Act τ}

theorem run_access (hs : s.run t = some s') : ∃ th', Access s.freelist s.mrNext (s.threads t) s'.freelist s'.mrNext th' ∧
    s'.threads = Function.update s.threads t th' := by
  simp only [State.run] at hs
  cases hp : (s.threads t).point <;> simp only [hp] at hs
  case idle | calloc => cases hs
  case load => cases hs; exact ⟨_, .load hp, rfl⟩
  case take =>
    by_cases hf : s.freelist = (s.threads t).lfl
    · rw [if_pos hf] at hs
      cases hs
      exact ⟨_, .take hp hf, rfl⟩
    · rw [if_neg hf] at hs
      cases hs
      exact ⟨_, .retake hp hf, rfl⟩
  case pop =>
    obtain ⟨node, hn, rfl⟩ := Option.map_eq_some_iff.mp hs
    exact ⟨_, .pop node hp hn, rfl⟩
  case push p => cases hs; exact ⟨_, .push p hp, rfl⟩
  case flushLoad => cases hs; exact ⟨_, .flushLoad hp, rfl⟩
  case flushStore v =>
    obtain ⟨tail, ht, rfl⟩ := Option.map_eq_some_iff.mp hs
    exact ⟨_, .store v tail (.inl hp) ht, rfl⟩
  case expect =>
    obtain ⟨tail, ht, rfl⟩ := Option.map_eq_some_iff.mp hs
    exact ⟨_, .expect tail hp ht, rfl⟩
  case publish e =>
    by_cases hf : s.freelist = e
    · rw [if_pos hf] at hs
      cases hs
      exact ⟨_, .publish (hf ▸ hp), rfl⟩
    · rw [if_neg hf] at hs
      cases hs
      exact ⟨_, .republish e hp hf, rfl⟩
  case retryLoad => cases hs; exact ⟨_, .retryLoad hp, rfl⟩
  case retryStore v =>
    obtain ⟨tail, ht, rfl⟩ := Option.map_eq_some_iff.mp hs
    exact ⟨_, .store v tail (.inr hp) ht, rfl⟩

/-- A step moves one thread. -/
theorem step_other {u : τ} (hs : step s a = some s') (hu : u ≠ a.thread) : s'.threads u = s.threads u := by
  cases a with
  | newNode t | freeNode t | calloc t =>
    simp only [step] at hs
    split at hs <;> cases hs
    exact Function.update_of_ne hu ..
  | run t =>
    obtain ⟨_, _, hth⟩ := run_access hs
    rw [hth]
    exact Function.update_of_ne hu ..

/-- A call and the return of `calloc` have loaded nothing. -/
theorem entered (hs : step s a = some s') (ha : ∀ t, a ≠ .run t) : (s'.threads a.thread).expects mr = none := by
  cases a with
  | newNode t =>
    simp only [step] at hs
    split at hs <;> cases hs
    simp only [Act.thread, State.put, Function.update_self]
    by_cases hl : (s.threads t).lfl = none <;> simp [Thread.expects, hl]
  | freeNode t | calloc t =>
    simp only [step] at hs
    split at hs <;> cases hs
    simp only [Act.thread, State.put, Function.update_self]
    rfl
  | run t => exact (ha t rfl).elim

/-- A thread goes on with what is current, and where its compare-and-swap has failed it is to load `freelist`. -/
theorem Access.current {M : Addr → Ptr} {th' : Thread} (hx : Access freelist mr th freelist' M th')
    (h : th.Current freelist mr ∨ th.point = .take ∨ ∃ e, th.point = .publish e) : th'.Current freelist' M := by
  cases hx with
  | load hp =>
    by_cases hf : freelist = none <;> simp [Thread.Current, Thread.expects, hf]
  | take | retake | pop | publish | republish => exact fun _ he => (nomatch he)
  | push p hp =>
    by_cases hf : amortFreeOn ≤ th.lcnt + 1 <;> simp [Thread.Current, Thread.expects, hf]
  | flushLoad hp | retryLoad hp => simp [Thread.Current, Thread.expects]
  | store v tail hp ht =>
    rcases h with h | h | ⟨e, h⟩
    · have hv := h v (by rcases hp with hp | hp <;> simp [Thread.expects, hp])
      simp [Thread.Current, Thread.expects, ht, hv]
    all_goals rcases hp with hp | hp <;> rw [h] at hp <;> cases hp
  | expect tail hp ht =>
    rcases h with h | h | ⟨e, h⟩
    · have hv := h (mr tail) (by simp [Thread.expects, hp, ht])
      simp [Thread.Current, Thread.expects, hv]
    all_goals rw [h] at hp; cases hp

omit [DecidableEq τ] in
theorem Fails.not_current (h : Fails t s a s') : ¬ (s.threads t).Current s.freelist s.mrNext := by
  intro hc
  rcases h.2 with ⟨hp, hf⟩ | ⟨e, hp, hf⟩
  · exact hf (hc _ (by simp [Thread.expects, hp])).symm
  · exact hf (hc _ (by simp [Thread.expects, hp])).symm

/-- What is current stays so until another thread disturbs it. -/
theorem current_step (hs : step s a = some s') (h : (s.threads t).Current s.freelist s.mrNext ∨ Fails t s a s') :
    (s'.threads t).Current s'.freelist s'.mrNext ∨ Disturbs t s a s' := by
  by_cases ht : t = a.thread
  · subst ht
    refine .inl ?_
    by_cases hr : ∃ u, a = .run u
    · obtain ⟨u, rfl⟩ := hr
      obtain ⟨th', hx, hth⟩ := run_access hs
      rw [Act.thread, hth, Function.update_self]
      exact hx.current (h.imp_right fun hf => hf.2.imp And.left fun ⟨e, he, _⟩ => ⟨e, he⟩)
    · intro v hv
      rw [entered hs (fun u hu => hr ⟨u, hu⟩)] at hv
      cases hv
  · have hcur := h.resolve_right fun hf => ht (by rw [hf.1]; rfl)
    rw [step_other hs ht]
    by_cases hd : Disturbs t s a s'
    · exact .inr hd
    refine .inl fun v hv => ?_
    have hf : s'.freelist = s.freelist := by
      by_contra hne
      exact hd ⟨fun he => ht he.symm, .inl hne⟩
    rw [hf]
    refine hcur v (hv ▸ ?_)
    cases hp : (s.threads t).point with
    | expect =>
      cases htail : (s.threads t).lflTail with
      | none => simp [Thread.expects, hp, htail]
      | some tail =>
        have hm : s'.mrNext tail = s.mrNext tail := by
          by_contra hne
          exact hd ⟨fun he => ht he.symm, .inr ⟨hp, tail, htail, hne⟩⟩
        simp [Thread.expects, hp, htail, hm]
    | _ => simp [Thread.expects, hp]

/-- From a thread's call on, each compare-and-swap of it that fails is charged to another thread. -/
theorem charged {tr : List (Act τ × State τ)} (h : Run (Steps step) s tr s') (h0 : (s.threads t).point = .idle) :
    Charged (Fails t) (Disturbs t) s tr := by
  refine h.charged (fun s => (s.threads t).Current s.freelist s.mrNext) ?_ (fun s a s' hs hc => ?_) fun s a s' hs hf => ?_
  · simp [Thread.Current, Thread.expects, h0]
  · exact ⟨fun hf => hf.not_current hc, current_step hs (.inl hc)⟩
  · have hown : ¬ Disturbs t s a s' := fun hd => hd.1 (by rw [hf.1]; rfl)
    exact ⟨(current_step hs (.inr hf)).resolve_right hown, hown⟩

end step

/-- What a store to some `mr_next` can cost the `c` threads: each that is about to load it goes round once more. -/
def storeCost (c : Nat) : Nat := 4 * c

/-- What a change of `freelist` can cost them: each goes round once more, and perhaps stores what it loaded before. -/
def swapCost (c : Nat) : Nat := (storeCost c + 4) * c

/-- How many steps a thread has left at most, with what it can cost the others. -/
def Thread.work (c : Nat) (freelist : Ptr) (mr : Addr → Ptr) (th : Thread) : Nat :=
  match th.point with
  | .idle => 0
  | .pop => 1
  | .calloc => storeCost c + 1
  | .take => swapCost c + storeCost c + if th.lfl = freelist then 3 else 5
  | .load => swapCost c + storeCost c + 4
  | .publish e => swapCost c + if e = freelist then 1 else 5
  | .expect => swapCost c + if th.lflTail.map mr = some freelist then 2 else 6
  | .retryStore v => swapCost c + if v = freelist then 3 else storeCost c + 7
  | .retryLoad => swapCost c + 4
  | .flushStore _ => swapCost c + storeCost c + 7
  | .flushLoad => swapCost c + storeCost c + 8
  | .push _ => swapCost c + 2 * storeCost c + 9

theorem work_swap : th.work c freelist' mr ≤ th.work c freelist mr + (storeCost c + 4) := by
  unfold Thread.work
  cases th.point <;> simp only <;> (try split) <;> (try split) <;> omega

section store
variable [DecidableEq τ]

theorem work_store : th.work c freelist (Function.update mr q v) ≤ th.work c freelist mr + 4 := by
  unfold Thread.work
  cases th.point <;> simp only <;> (try split) <;> (try split) <;> omega

/-- To store what `freelist` is costs nobody. -/
theorem work_store_current : th.work c freelist (Function.update mr q freelist) ≤ th.work c freelist mr := by
  unfold Thread.work
  cases th.point with
  | expect =>
    cases th.lflTail with
    | none => simp
    | some tail => by_cases ht : tail = q <;> simp [ht]; split <;> omega
  | _ => simp only; omega

/-- An access takes from the thread's own work what it sets the others back by. -/
theorem Access.pays {M : Addr → Ptr} {th' : Thread} (hx : Access freelist mr th freelist' M th') :
    ∃ k, (∀ o : Thread, o.work c freelist' M ≤ o.work c freelist mr + k) ∧
      th'.work c freelist' M + k * c < th.work c freelist mr := by
  have hswap : (storeCost c + 4) * c = swapCost c := rfl
  have hstore : 4 * c = storeCost c := rfl
  cases hx with
  | load hp =>
    refine ⟨0, fun _ => le_rfl, ?_⟩
    by_cases hf : freelist = none <;> simp only [Thread.work, hp, hf, if_true, if_false] <;> omega
  | take hp hf =>
    refine ⟨storeCost c + 4, fun _ => work_swap, ?_⟩
    simp only [Thread.work, hp, hf, if_true]
    omega
  | retake hp hf =>
    refine ⟨0, fun _ => le_rfl, ?_⟩
    simp only [Thread.work, hp, if_neg (Ne.symm hf)]
    omega
  | pop node hp =>
    refine ⟨0, fun _ => le_rfl, ?_⟩
    simp only [Thread.work, hp]
    omega
  | push p hp =>
    refine ⟨4, fun _ => work_store, ?_⟩
    simp only [Thread.work, hp, hstore]
    by_cases hcnt : amortFreeOn ≤ th.lcnt + 1 <;> simp only [hcnt, if_true, if_false] <;> omega
  | flushLoad hp | retryLoad hp =>
    refine ⟨0, fun _ => le_rfl, ?_⟩
    simp only [Thread.work, hp, if_true]
    omega
  | store v tail hp ht =>
    have hm : th.lflTail.map (Function.update mr tail v) = some v := by simp [ht]
    by_cases hv : v = freelist
    · subst hv
      refine ⟨0, fun _ => work_store_current, ?_⟩
      rcases hp with hp | hp <;> simp only [Thread.work, hp, hm, if_true] <;> omega
    · refine ⟨4, fun _ => work_store, ?_⟩
      have hne : some v ≠ some freelist := fun he => hv (Option.some.inj he)
      rcases hp with hp | hp <;> simp only [Thread.work, hp, hm, if_neg hv, if_neg hne] <;> omega
  | expect tail hp ht =>
    refine ⟨0, fun _ => le_rfl, ?_⟩
    have hm : th.lflTail.map mr = some (mr tail) := by simp [ht]
    by_cases hv : mr tail = freelist <;> simp [Thread.work, hp, ht, hv]
  | publish hp =>
    refine ⟨storeCost c + 4, fun _ => work_swap, ?_⟩
    simp only [Thread.work, hp, if_true]
    omega
  | republish e hp hf =>
    refine ⟨0, fun _ => le_rfl, ?_⟩
    simp only [Thread.work, hp, if_neg (Ne.symm hf)]
    omega

variable [Fintype τ] {a : Act τ}

/-- How many steps all calls together have left at most. -/
def State.work (s : State τ) : Nat := ∑ t, (s.threads t).work (Fintype.card τ) s.freelist s.mrNext

def Act.calls : Act τ → Bool
  | .newNode _ | .freeNode .. => true
  | .run _ | .calloc .. => false

theorem work_setback {k : Nat} (hth : s'.threads = Function.update s.threads t th)
    (ho : ∀ o : Thread, o.work (Fintype.card τ) s'.freelist s'.mrNext ≤ o.work (Fintype.card τ) s.freelist s.mrNext + k)
    (hm : th.work (Fintype.card τ) s'.freelist s'.mrNext + k * Fintype.card τ <
      (s.threads t).work (Fintype.card τ) s.freelist s.mrNext) : s'.work < s.work := by
  have hsum := sum_setback (p := t) (c := k) (f := fun u => (s.threads u).work (Fintype.card τ) s.freelist s.mrNext)
    (g := fun u => (s'.threads u).work (Fintype.card τ) s'.freelist s'.mrNext) fun u hu => by
      simp only [hth, Function.update_of_ne hu]
      exact ho _
  simp only [hth, Function.update_self] at hsum
  unfold State.work
  rw [hth]
  omega

/-- Every step but a new call takes from it. -/
theorem step_work (hs : step s a = some s') (hc : a.calls = false) : s'.work < s.work := by
  cases a with
  | newNode | freeNode => cases hc
  | run t =>
    obtain ⟨th', hx, hth⟩ := run_access hs
    obtain ⟨k, ho, hm⟩ := hx.pays (c := Fintype.card τ)
    exact work_setback hth ho hm
  | calloc t fresh =>
    simp only [step] at hs
    split at hs <;> cases hs
    rename_i hp
    refine work_setback (k := 4) rfl (fun _ => work_store) ?_
    simp only [Thread.work, hp.1]
    show 0 + storeCost (Fintype.card τ) < _
    omega

end store

/-- The points of `add_free`. -/
def Point.adding : Point → Bool
  | .push _ | .flushLoad | .flushStore _ | .expect | .publish _ | .retryLoad | .retryStore _ => true
  | .idle | .load | .take | .pop | .calloc => false

/-- The pointers that the thread is to follow are not null. -/
structure Ready (th : Thread) : Prop where
  list : th.point = .take ∨ th.point = .pop → th.lfl ≠ none
  tail : th.point.adding → th.lflTail ≠ none

theorem Access.ready {M : Addr → Ptr} {th' : Thread} (hx : Access freelist mr th freelist' M th') (h : Ready th) : Ready th' := by
  cases hx with
  | load hp => by_cases hf : freelist = none <;> constructor <;> simp [hf, Point.adding]
  | take hp | retake hp => exact ⟨fun _ => h.list (.inl hp), fun he => by cases he⟩
  | pop => exact ⟨fun he => by simp at he, fun he => by cases he⟩
  | push p hp => exact ⟨fun _ he => (by cases he), fun _ => h.tail (by rw [hp]; rfl)⟩
  | flushLoad hp | expect _ hp | republish _ hp | retryLoad hp =>
    exact ⟨fun he => by simp at he, fun _ => h.tail (by rw [hp]; rfl)⟩
  | store v tail hp ht => exact ⟨fun he => by simp at he, fun _ => by simp [ht]⟩
  | publish => exact ⟨fun he => by simp at he, fun he => by cases he⟩

section run
variable [DecidableEq τ] {a : Act τ}

theorem ready_step (hs : step s a = some s') (h : ∀ t, Ready (s.threads t)) (t : τ) : Ready (s'.threads t) := by
  by_cases ht : t = a.thread
  · subst ht
    cases a with
    | newNode t =>
      simp only [step] at hs
      split at hs <;> cases hs
      simp only [Act.thread, State.put, Function.update_self]
      by_cases hl : (s.threads t).lfl = none <;> constructor <;> simp [hl, Point.adding]
    | freeNode t n =>
      simp only [step] at hs
      split at hs <;> cases hs
      simp only [Act.thread, State.put, Function.update_self]
      exact ⟨fun he => by simp at he, fun _ => by simp⟩
    | calloc t fresh =>
      simp only [step] at hs
      split at hs <;> cases hs
      simp only [Act.thread, State.put, Function.update_self]
      exact ⟨fun he => by simp at he, fun he => by cases he⟩
    | run t =>
      obtain ⟨th', hx, hth⟩ := run_access hs
      rw [Act.thread, hth, Function.update_self]
      exact hx.ready (h t)
  · rw [step_other hs ht]
    exact h t

theorem ready_reachable (hs : Reachable (Steps step) (.init τ) s) (t : τ) : Ready (s.threads t) :=
  hs.invariant (P := fun s => ∀ t, Ready (s.threads t)) (fun _ => ⟨fun he => by simp [State.init] at he, fun he => by cases he⟩)
    (fun _ _ _ h hr => ready_step hr h) t

/-- A thread in a call can go on. -/
theorem Ready.enabled (h : Ready (s.threads t)) (hp : (s.threads t).point ≠ .idle) (hc : (s.threads t).point ≠ .calloc) :
    ∃ s', step s (.run t) = some s' := by
  obtain ⟨hlist, htail⟩ := h
  simp only [step, State.run]
  cases hpt : (s.threads t).point <;> simp only [hpt] at hp hc hlist htail ⊢
  case idle => exact (hp rfl).elim
  case calloc => exact (hc rfl).elim
  case load | push | flushLoad | retryLoad => exact ⟨_, rfl⟩
  case take | publish => split <;> exact ⟨_, rfl⟩
  case pop =>
    obtain ⟨node, hn⟩ := Option.ne_none_iff_exists'.mp (hlist (.inr trivial))
    exact ⟨_, by rw [hn]; rfl⟩
  case flushStore | expect | retryStore =>
    obtain ⟨tail, ht⟩ := Option.ne_none_iff_exists'.mp (htail rfl)
    exact ⟨_, by rw [ht]; rfl⟩

/-- The allocator is lock-free, with any number of threads and in every run, stale `lfl_tail`s or not. Each failed
compare-and-swap of a thread is charged to a change by another: of `freelist`, or of `lfl_tail->mr_next` between the
thread's own accesses to it. Without new calls all threads together take boundedly many steps, however they are
scheduled, and a thread in a call can always go on, with a new node where it waits for `calloc`. -/
theorem allocator_lock_free {τ : Type} [DecidableEq τ] [Fintype τ] {s : State τ} (hs : Reachable (Steps step) (.init τ) s) :
    (∀ t tr s', (s.threads t).point = .idle → Run (Steps step) s tr s' →
      Charged (Fails t) (Disturbs t) s tr ∧ stepCount (Fails t) s tr ≤ stepCount (Disturbs t) s tr) ∧
    (∀ tr s', Run (Steps step) s tr s' → (∀ e ∈ tr, e.1.calls = false) → tr.length + s'.work ≤ s.work) ∧
    ∀ t, (s.threads t).point ≠ .idle → (∃ s', step s (.run t) = some s') ∨
      (s.threads t).point = .calloc ∧ ∀ fresh, s.obtained fresh = false → ∃ s', step s (.calloc t fresh) = some s' := by
  refine ⟨fun t tr s' hp hrun => ⟨charged hrun hp, (charged hrun hp).count_le⟩, fun tr s' hrun hc => ?_, fun t hp => ?_⟩
  · exact hrun.length_le (P := fun _ => True) trivial (fun _ _ _ _ _ => trivial) (fun _ _ _ _ ht ha => step_work ht ha) hc
  · by_cases hc : (s.threads t).point = .calloc
    · exact .inr ⟨hc, fun fresh hf => ⟨_, if_pos ⟨hc, hf⟩⟩⟩
    · exact .inl ((ready_reachable hs t).enabled hp hc)

/-- Thread 0 obtains and frees 100 nodes, and publishes them. -/
def published : List (Act (Fin 3)) :=
  (List.range 100).flatMap (fun i => [.newNode 0, .run 0, .calloc 0 i]) ++
    (List.range 100).flatMap (fun i => [.freeNode 0 i, .run 0]) ++ List.replicate 4 (.run 0)

/-- Then threads 1 and 2 load `freelist`, and thread 1 takes it. -/
def taken : List (Act (Fin 3)) := [.newNode 1, .newNode 2, .run 1, .run 2, .run 1]

theorem allocator_lock_free_contended : ∃ (s u : State (Fin 3)) (tr : List (Act (Fin 3) × State (Fin 3))),
    StepAt (Fails 2) s tr 5 ∧ Charged (Fails 2) (Disturbs 2) s tr ∧ (∃ v, step u (.run 2) = some v) ∧
      ∀ tr' v, Run (Steps step) u tr' v → (∀ e ∈ tr', e.1.calls = false) → tr'.length ≤ u.work := by
  have h : (exec step (.init (Fin 3)) published).any fun s => decide ((s.threads 2).point = .idle) &&
      (exec step s taken).any fun t => decide ((t.threads 2).point = .take ∧ t.freelist ≠ (t.threads 2).lfl) &&
        (step t (.run 2)).any fun u => decide ((u.threads 2).point = .load) := by decide +kernel
  obtain ⟨s, hs, h⟩ := (Option.any_eq_true _ _).mp h
  obtain ⟨hidle, h⟩ := Bool.and_eq_true_iff.mp h
  obtain ⟨t, ht, h⟩ := (Option.any_eq_true _ _).mp h
  obtain ⟨hfail, h⟩ := Bool.and_eq_true_iff.mp h
  obtain ⟨u, hu, hload⟩ := (Option.any_eq_true _ _).mp h
  have hlen : (execTrace step s taken).length = 5 := execTrace_length ht
  have hrun := exec_run ht
  have hr : Run (Steps step) s _ u := .snoc hrun hu
  obtain ⟨hcharged, _, _⟩ := allocator_lock_free ⟨_, exec_run hs⟩
  obtain ⟨_, hbound, hgo⟩ := allocator_lock_free (hr.reachable_append ⟨_, exec_run hs⟩)
  refine ⟨s, u, _, (stepAt_snoc hrun).mpr (.inr ⟨hlen.symm, rfl, .inl (of_decide_eq_true hfail)⟩),
    (hcharged 2 _ u (of_decide_eq_true hidle) hr).1, ?_, fun tr' v hv hc => (Nat.le_add_right ..).trans (hbound tr' v hv hc)⟩
  rcases hgo 2 (by rw [of_decide_eq_true hload]; nofun) with hgo | ⟨hp, _⟩
  · exact hgo
  · rw [of_decide_eq_true hload] at hp
    cases hp

end run
end Gecos.Threads
