import Gecos.Library.Run
import Gecos.Mrow.Config
import Mathlib.Data.Finset.Card

/-! How `test` of mrow.c starts and stops the threads of `run`, over all its iterations: one access to `go`, `done`
and `ready` a step. What the calls of a pass do to the table is not part of it. -/
namespace Gecos.Test
open Library Mrow

/-- `NB_TEST`. -/
def nbTest : Nat := 2000000

/-- `ITERATION`. -/
def iterations : Nat := 5

/-- Where a thread is in `run`, with its counter `i`; `absent` before it is created. -/
inductive Thread where
  | absent
  | addReady
  | waitGo
  | call (i : Nat)
  | called (i : Nat)
  | next (i : Nat)
  | left (i : Nat)
  | returned
  deriving DecidableEq

/-- Where the main thread is in `test`; at `join i` the threads below `i` are still to be joined. -/
inductive Main where
  | hashInit
  | resetDone
  | resetGo
  | resetReady
  | create (i : Nat)
  | waitReady
  | setGo
  | join (i : Nat)
  | setDone (i : Nat)
  | returned
  deriving DecidableEq

/-- `thread k` is the array of the threads that iteration `k` creates. -/
structure State where
  go : Nat
  done : Nat
  ready : Nat
  iteration : Nat
  main : Main
  thread : Nat → Nat → Thread

inductive Act where
  | test
  | run (k t : Nat)

def State.init : State := ⟨0, 0, 0, 0, .hashInit, fun _ _ => .absent⟩

/-- The threads of the current iteration. -/
def State.now (s : State) : Nat → Thread := s.thread s.iteration

def State.put (s : State) (k t : Nat) (p : Thread) : State :=
  { s with thread := Function.update s.thread k (Function.update (s.thread k) t p) }

/-- A step of `run` in thread `t`: what it leaves in `ready`, and where it gets to. `while (++i)` also ends
the loop where the `unsigned long` wraps to 0. -/
def run (c : Config) (s : State) (t : Nat) : Thread → Option (Nat × Thread)
  | .addReady => some (s.ready + 1, .waitGo)
  | .waitGo => some (s.ready, if s.go = 0 then .waitGo else .call 0)
  | .call i => some (s.ready, .called i)
  | .called i =>
    if c.nbupdaters ≤ t then some (s.ready, if nbTest ≤ i then .left i else .next i)
    else some (s.ready, if s.done = 0 then .next i else .left i)
  | .next i =>
    let i := (i + 1) % 2 ^ 64
    some (s.ready, if i = 0 then .left i else .call i)
  | .left _ => some (s.ready, .returned)
  | .absent | .returned => none

/-- A step of `test`, and of the loop of `main` around it. -/
def test (c : Config) (s : State) : Option State :=
  match s.main with
  | .hashInit => some { s with main := .resetDone }
  | .resetDone => some { s with done := 0, main := .resetGo }
  | .resetGo => some { s with go := 0, main := .resetReady }
  | .resetReady => some { s with ready := 0, main := .create 0 }
  | .create i =>
    if i < c.nbthreads then some { s.put s.iteration i .addReady with main := .create (i + 1) }
    else some { s with main := .waitReady }
  | .waitReady => some { s with main := if s.ready = c.nbthreads then .setGo else .waitReady }
  | .setGo => some { s with go := 1, main := .join c.nbthreads }
  | .join (i + 1) =>
    if s.now i = .returned then some { s with main := if i = c.nbupdaters then .setDone i else .join i }
    else none
  | .setDone i => some { s with done := 1, main := .join i }
  | .join 0 =>
    if s.iteration + 1 < iterations then some { s with iteration := s.iteration + 1, main := .hashInit }
    else some { s with main := .returned }
  | .returned => none

def step (c : Config) (s : State) : Act → Option State
  | .test => test c s
  | .run k t => (run c s t (s.thread k t)).map fun r => { s.put k t r.2 with ready := r.1 }

/-- In its loop. -/
def Thread.Loops : Thread → Prop
  | .call _ | .called _ | .next _ => True
  | _ => False

/-- Past its loop. -/
def Thread.Finished : Thread → Prop
  | .left _ | .returned => True
  | _ => False

/-- Past its increment of `ready`. -/
def Thread.Ready : Thread → Prop
  | .absent | .addReady => False
  | _ => True

def Thread.Running (p : Thread) : Prop := p ≠ .absent ∧ p ≠ .returned

/-- About to store 0 to `done`, `go` or `ready`. -/
def Main.Resets : Main → Prop
  | .resetDone | .resetGo | .resetReady => True
  | _ => False

/-- By its next step a thread leaves its loop. -/
def Leaves (c : Config) (s : State) (k t : Nat) : Prop :=
  (s.thread k t).Loops ∧ ∃ s', step c s (.run k t) = some s' ∧ (s'.thread k t).Finished

/-- At the increment that wraps. -/
def Wraps (p : Thread) : Prop := ∃ i, p = .next i ∧ (i + 1) % 2 ^ 64 = 0

/-- The protocol of a test run; `Excused` says where an updater may leave its loop early. -/
structure Protocol (c : Config) (Excused : Thread → Prop) (s : State) : Prop where
  starts : ∀ k t i, s.thread k t = .call i → ∀ t' < c.nbthreads, (s.thread k t').Ready
  stops : ∀ k t, t < c.nbupdaters → Leaves c s k t → ¬ Excused (s.thread k t) →
    ∀ r, c.nbupdaters ≤ r → r < c.nbthreads → (s.thread k r).Finished
  joins : ∀ i < c.nbupdaters, s.main = .join (i + 1) → s.done ≠ 0
  resets : s.main.Resets → ∀ k t, ¬ (s.thread k t).Running

section invariant
variable {c : Config} {s s' : State} {now : Nat → Thread} {go done ready r i k t : Nat} {p : Thread} {m : Main}

/-- As long as `go` is 0: `ready` counts the threads that wait for it. -/
structure Starting (c : Config) (go done ready : Nat) (now : Nat → Thread) (i : Nat) : Prop where
  go : go = 0
  done : done = 0
  ready : ready = (Finset.filter (now · = .waitGo) (.range c.nbthreads)).card
  created : ∀ t < i, now t = .addReady ∨ now t = .waitGo
  absent : ∀ t, i ≤ t → now t = .absent
  le : i ≤ c.nbthreads

/-- Once `go` is set: the threads from `i` on have been joined. -/
structure Stopping (c : Config) (now : Nat → Thread) (i : Nat) : Prop where
  ready : ∀ t < c.nbthreads, (now t).Ready
  joined : ∀ t, i ≤ t → t < c.nbthreads → now t = .returned
  absent : ∀ t, c.nbthreads ≤ t → now t = .absent

/-- What the place of the main thread says about the threads of its iteration. -/
def At (c : Config) (go done ready : Nat) (now : Nat → Thread) : Main → Prop
  | .hashInit | .resetDone => ∀ t, now t = .absent
  | .resetGo => done = 0 ∧ ∀ t, now t = .absent
  | .resetReady => go = 0 ∧ done = 0 ∧ ∀ t, now t = .absent
  | .create i => Starting c go done ready now i
  | .waitReady => Starting c go done ready now c.nbthreads
  | .setGo => Starting c go done ready now c.nbthreads ∧ ∀ t < c.nbthreads, now t = .waitGo
  | .join i => Stopping c now i ∧ (done = 0 ↔ c.nbupdaters < i)
  | .setDone i => Stopping c now i ∧ i = c.nbupdaters
  | .returned => ∀ t, ¬ (now t).Running

structure Inv (c : Config) (s : State) : Prop where
  past : ∀ k < s.iteration, ∀ t, ¬ (s.thread k t).Running
  future : ∀ k, s.iteration < k → ∀ t, s.thread k t = .absent
  now : At c s.go s.done s.ready s.now s.main

theorem Thread.not_running_iff : ¬ p.Running ↔ p = .absent ∨ p = .returned := by
  unfold Thread.Running
  tauto

theorem run_running (h : run c s t p = some (r, p')) : p.Running := by
  constructor <;> rintro rfl <;> cases h

/-- What a thread can do that has incremented `ready`. -/
theorem run_ready (hp : p.Ready) (h : run c s t p = some (r, p')) : r = s.ready ∧ p'.Ready := by
  cases p with
  | absent => cases hp
  | addReady => cases hp
  | waitGo =>
    cases h
    refine ⟨rfl, ?_⟩
    split <;> trivial
  | call i => cases h; exact ⟨rfl, trivial⟩
  | called i =>
    simp only [run] at h
    split at h <;> cases h <;> refine ⟨rfl, ?_⟩ <;> split <;> trivial
  | next i =>
    cases h
    refine ⟨rfl, ?_⟩
    split <;> trivial
  | left i => cases h; exact ⟨rfl, trivial⟩
  | returned => cases h

/-- The wait for `ready` ends when every thread waits for `go`. -/
theorem Starting.all_wait (h : Starting c go done ready now i) (hr : ready = c.nbthreads) :
    ∀ t < c.nbthreads, now t = .waitGo := by
  have hc : (Finset.filter (now · = .waitGo) (.range c.nbthreads)).card = (Finset.range c.nbthreads).card := by
    rw [← h.ready, hr, Finset.card_range]
  rw [Finset.card_filter_eq_iff] at hc
  intro t ht
  exact hc t (Finset.mem_range.mpr ht)

theorem Starting.init (hgo : go = 0) (hdone : done = 0) (hnow : ∀ t, now t = .absent) :
    Starting c go done 0 now 0 where
  go := hgo
  done := hdone
  ready := by simp [hnow]
  created _ ht := absurd ht (Nat.not_lt_zero _)
  absent t _ := hnow t
  le := Nat.zero_le _

theorem Starting.create (h : Starting c go done ready now i) (hi : i < c.nbthreads) :
    Starting c go done ready (Function.update now i .addReady) (i + 1) where
  go := h.go
  done := h.done
  ready := by
    rw [h.ready]
    congr 1
    apply Finset.filter_congr
    intro t _
    obtain rfl | ht := eq_or_ne t i
    · simp [h.absent t le_rfl]
    · rw [Function.update_of_ne ht]
  created t ht := by
    obtain rfl | hne := eq_or_ne t i
    · simp
    · rw [Function.update_of_ne hne]
      exact h.created t (by omega)
  absent t ht := by
    rw [Function.update_of_ne (by omega)]
    exact h.absent t (by omega)
  le := hi

/-- A created thread that steps increments `ready` or goes on waiting. -/
theorem Starting.run (h : Starting c s.go s.done s.ready s.now i) (hr : Test.run c s t (s.now t) = some (r, p)) :
    Starting c s.go s.done r (Function.update s.now t p) i := by
  have hti : t < i := by
    by_contra hti
    exact (run_running hr).1 (h.absent t (by omega))
  rcases h.created t hti with ht | ht
  · rw [ht] at hr
    cases hr
    refine ⟨h.go, h.done, ?_, fun t' ht' => ?_, fun t' ht' => ?_, h.le⟩
    · have hne : t ∉ Finset.filter (s.now · = .waitGo) (.range c.nbthreads) := by simp [ht]
      have hset : Finset.filter (Function.update s.now t .waitGo · = .waitGo) (.range c.nbthreads) =
          insert t (Finset.filter (s.now · = .waitGo) (.range c.nbthreads)) := by
        ext t'
        obtain rfl | hne := eq_or_ne t' t
        · simp [hti.trans_le h.le]
        · simp [hne]
      rw [hset, Finset.card_insert_of_notMem hne, ← h.ready]
    · obtain rfl | hne := eq_or_ne t' t
      · simp
      · rw [Function.update_of_ne hne]
        exact h.created t' ht'
    · rw [Function.update_of_ne (by omega)]
      exact h.absent t' ht'
  · rw [ht, Test.run, if_pos h.go] at hr
    cases hr
    rw [← ht, Function.update_eq_self]
    exact h

theorem Stopping.start (h : Starting c go done ready now c.nbthreads) (hw : ∀ t < c.nbthreads, now t = .waitGo) :
    Stopping c now c.nbthreads where
  ready t ht := by
    rw [hw t ht]
    trivial
  joined t ht ht' := absurd ht (by omega)
  absent := h.absent

theorem Stopping.join (h : Stopping c now (i + 1)) (hi : now i = .returned) : Stopping c now i where
  ready := h.ready
  joined t ht ht' := by
    obtain rfl | hlt := ht.eq_or_lt
    · exact hi
    · exact h.joined t hlt ht'
  absent := h.absent

theorem Stopping.not_running (h : Stopping c now 0) (t : Nat) : ¬ (now t).Running := by
  rw [Thread.not_running_iff]
  by_cases ht : t < c.nbthreads
  · exact .inr (h.joined t (Nat.zero_le _) ht)
  · exact .inl (h.absent t (by omega))

/-- No step of a thread takes one back behind its increment, or changes one that was joined. -/
theorem Stopping.run (h : Stopping c s.now i) (hr : Test.run c s t (s.now t) = some (r, p)) :
    r = s.ready ∧ Stopping c (Function.update s.now t p) i := by
  have hrun := run_running hr
  have htn : t < c.nbthreads := by
    by_contra htn
    exact hrun.1 (h.absent t (by omega))
  obtain ⟨rfl, hp⟩ := run_ready (h.ready t htn) hr
  refine ⟨rfl, fun t' ht' => ?_, fun t' hi ht' => ?_, fun t' ht' => ?_⟩
  · obtain rfl | hne := eq_or_ne t' t
    · simpa using hp
    · rw [Function.update_of_ne hne]
      exact h.ready t' ht'
  · have hne : t' ≠ t := by
      rintro rfl
      exact hrun.2 (h.joined t' hi ht')
    rw [Function.update_of_ne hne]
    exact h.joined t' hi ht'
  · rw [Function.update_of_ne (by omega)]
    exact h.absent t' ht'

/-- A step of a thread of the iteration keeps what the place of the main thread says. -/
theorem At.run (h : At c s.go s.done s.ready s.now m) (hr : Test.run c s t (s.now t) = some (r, p)) :
    At c s.go s.done r (Function.update s.now t p) m := by
  have hrun := run_running hr
  cases m with
  | hashInit | resetDone => exact absurd (h t) hrun.1
  | resetGo => exact absurd (h.2 t) hrun.1
  | resetReady => exact absurd (h.2.2 t) hrun.1
  | create i => exact Starting.run h hr
  | waitReady => exact Starting.run h hr
  | setGo =>
    obtain ⟨hs, hw⟩ := h
    have ht : t < c.nbthreads := by
      by_contra ht
      exact hrun.1 (hs.absent t (by omega))
    rw [hw t ht, Test.run, if_pos hs.go] at hr
    cases hr
    rw [← hw t ht, Function.update_eq_self]
    exact ⟨hs, hw⟩
  | join i => exact ⟨(h.1.run hr).2, h.2⟩
  | setDone i => exact ⟨(h.1.run hr).2, h.2⟩
  | returned => exact absurd hrun (h t)

theorem State.now_put (s : State) (t : Nat) (p : Thread) : (s.put s.iteration t p).now = Function.update s.now t p :=
  Function.update_self ..

theorem State.put_of_ne {k' : Nat} (hk : k' ≠ k) : (s.put k t p).thread k' = s.thread k' :=
  Function.update_of_ne hk ..

theorem Inv.init : Inv c .init where
  past _ hk := absurd hk (Nat.not_lt_zero _)
  future _ _ _ := rfl
  now _ := rfl

/-- The main thread moves on, and may store to the flags. -/
theorem Inv.main (h : Inv c s) (hat : At c go done ready s.now m) :
    Inv c { s with go := go, done := done, ready := ready, main := m } where
  past := h.past
  future := h.future
  now := hat

/-- A thread of the current iteration moves. -/
theorem Inv.put (h : Inv c s) (hat : At c s.go s.done r (Function.update s.now t p) m) :
    Inv c { s.put s.iteration t p with ready := r, main := m } where
  past k hk t' := by
    have hne : k ≠ s.iteration := ne_of_lt hk
    change ¬ ((s.put s.iteration t p).thread k t').Running
    rw [State.put_of_ne hne]
    exact h.past k hk t'
  future k hk t' := by
    have hne : k ≠ s.iteration := ne_of_gt hk
    change (s.put s.iteration t p).thread k t' = .absent
    rw [State.put_of_ne hne]
    exact h.future k hk t'
  now := by
    rw [← State.now_put] at hat
    exact hat

/-- The next iteration starts when the threads of this one have returned. -/
theorem Inv.iterate (h : Inv c s) (hover : ∀ t, ¬ (s.now t).Running) :
    Inv c { s with iteration := s.iteration + 1, main := .hashInit } where
  past k hk t := by
    obtain rfl | hlt := (Nat.le_of_lt_succ hk).eq_or_lt
    · exact hover t
    · exact h.past k hlt t
  future k hk t := h.future k (by simp at hk; omega) t
  now t := h.future _ (Nat.lt_succ_self _) t

/-- A thread that can step is one of the current iteration. -/
theorem Inv.current (h : Inv c s) (hp : (s.thread k t).Running) : k = s.iteration := by
  rcases lt_trichotomy k s.iteration with hk | hk | hk
  · exact absurd hp (h.past k hk t)
  · exact hk
  · exact absurd (h.future k hk t) hp.1

theorem Inv.run (h : Inv c s) (hs : step c s (.run k t) = some s') : Inv c s' := by
  obtain ⟨⟨r, p⟩, hr, rfl⟩ := Option.map_eq_some_iff.mp hs
  obtain rfl := h.current (run_running hr)
  exact h.put (h.now.run hr)

theorem Inv.test (hc : c.nbupdaters < c.nbthreads) (h : Inv c s) (hs : step c s .test = some s') : Inv c s' := by
  have hat := h.now
  change Test.test c s = some s' at hs
  cases hm : s.main with
  | hashInit =>
    simp only [Test.test, hm] at hs hat
    cases hs
    exact h.main hat
  | resetDone =>
    simp only [Test.test, hm] at hs hat
    cases hs
    exact h.main ⟨rfl, hat⟩
  | resetGo =>
    simp only [Test.test, hm] at hs hat
    cases hs
    exact h.main ⟨rfl, hat.1, hat.2⟩
  | resetReady =>
    simp only [Test.test, hm] at hs hat
    cases hs
    exact h.main (.init hat.1 hat.2.1 hat.2.2)
  | create i =>
    simp only [Test.test, hm] at hs hat
    split at hs
    case isTrue hi => cases hs; exact h.put (Starting.create hat hi)
    case isFalse hi =>
      cases hs
      obtain rfl : i = c.nbthreads := Nat.le_antisymm hat.le (by omega)
      exact h.main hat
  | waitReady =>
    simp only [Test.test, hm] at hs hat
    cases hs
    apply h.main
    split
    case isTrue hr => exact ⟨hat, hat.all_wait hr⟩
    case isFalse => exact hat
  | setGo =>
    simp only [Test.test, hm] at hs hat
    cases hs
    exact h.main ⟨.start hat.1 hat.2, iff_of_true hat.1.done hc⟩
  | join i =>
    cases i with
    | zero =>
      simp only [Test.test, hm] at hs hat
      have hover := hat.1.not_running
      split at hs <;> cases hs
      · exact h.iterate hover
      · exact h.main hover
    | succ i =>
      simp only [Test.test, hm] at hs hat
      split at hs
      case isFalse => cases hs
      case isTrue hret =>
        cases hs
        have hjoin := hat.1.join hret
        apply h.main
        split
        case isTrue hi => exact ⟨hjoin, hi⟩
        case isFalse hi =>
          refine ⟨hjoin, ?_⟩
          rw [hat.2]
          omega
  | setDone i =>
    simp only [Test.test, hm] at hs hat
    cases hs
    refine h.main ⟨hat.1, ?_⟩
    rw [hat.2]
    simp
  | returned =>
    simp only [Test.test, hm] at hs
    cases hs

theorem Inv.step (hc : c.nbupdaters < c.nbthreads) (h : Inv c s) (a : Act) (hs : Test.step c s a = some s') :
    Inv c s' := by
  cases a with
  | test => exact h.test hc hs
  | run k t => exact h.run hs

theorem Run.inv (hc : c.nbupdaters < c.nbthreads) {tr} (h : Run (Steps (Test.step c)) .init tr s) : Inv c s :=
  h.invariant .init fun _ a _ hi hs => hi.step hc a hs

theorem Thread.Loops.running (hl : p.Loops) : p.Running := by
  constructor <;> rintro rfl <;> exact hl

theorem Starting.not_loops (h : Starting c go done ready now i) (t : Nat) : ¬ (now t).Loops := by
  intro hl
  by_cases ht : t < i
  · rcases h.created t ht with hp | hp <;> rw [hp] at hl <;> exact hl
  · exact hl.running.1 (h.absent t (by omega))

/-- While a thread is in its loop, the main thread joins; `done` tells how far it is. -/
theorem At.stopping (h : At c go done ready now m) (hl : (now t).Loops) :
    ∃ i, Stopping c now i ∧ (done ≠ 0 → i ≤ c.nbupdaters) := by
  have hrun := hl.running
  cases m with
  | hashInit | resetDone => exact absurd (h t) hrun.1
  | resetGo => exact absurd (h.2 t) hrun.1
  | resetReady => exact absurd (h.2.2 t) hrun.1
  | create i => exact absurd hl (Starting.not_loops h t)
  | waitReady => exact absurd hl (Starting.not_loops h t)
  | setGo => exact absurd hl (h.1.not_loops t)
  | join i => exact ⟨i, h.1, fun hd => Nat.le_of_not_lt fun hi => hd (h.2.mpr hi)⟩
  | setDone i => exact ⟨i, h.1, fun _ => h.2.le⟩
  | returned => exact absurd hrun (h t)

/-- An updater leaves its loop because `done` is set or its counter wraps. -/
theorem run_leaves (ht : t < c.nbupdaters) (hl : p.Loops) (h : run c s t p = some (r, p')) (hp : p'.Finished) :
    s.done ≠ 0 ∨ Wraps p := by
  cases p with
  | call i =>
    cases h
    cases hp
  | called i =>
    rw [run, if_neg (by omega)] at h
    cases h
    left
    intro hd
    rw [if_pos hd] at hp
    exact hp
  | next i =>
    cases h
    right
    by_contra hw
    have hne : (i + 1) % 2 ^ 64 ≠ 0 := fun h => hw ⟨i, rfl, h⟩
    simp only [if_neg hne] at hp
    exact hp
  | _ => cases hl

/-- Every run keeps the protocol, but for an updater whose counter wraps before the readers have finished. -/
theorem run_protocol (hc : c.nbupdaters < c.nbthreads) {tr} (h : Run (Steps (Test.step c)) .init tr s) :
    Protocol c Wraps s := by
  have hinv := Run.inv hc h
  refine ⟨fun k t i hcall t' ht' => ?_, fun k t ht hleaves hw r hr hrn => ?_, fun i hi hjoin => ?_, fun hreset k t => ?_⟩
  · have hl : (s.thread k t).Loops := by
      rw [hcall]
      trivial
    obtain rfl := hinv.current hl.running
    obtain ⟨_, hstop, _⟩ := hinv.now.stopping hl
    exact hstop.ready t' ht'
  · obtain ⟨hl, s', hs, hfin⟩ := hleaves
    obtain ⟨⟨r', p⟩, hrun, rfl⟩ := Option.map_eq_some_iff.mp hs
    obtain rfl := hinv.current hl.running
    have hp : p.Finished := by simpa [State.put] using hfin
    have hd := (run_leaves ht hl hrun hp).resolve_right hw
    obtain ⟨i, hstop, hi⟩ := hinv.now.stopping hl
    have hret : s.thread s.iteration r = .returned := hstop.joined r ((hi hd).trans hr) hrn
    rw [hret]
    trivial
  · have hat := hinv.now
    rw [hjoin] at hat
    rw [ne_eq, hat.2]
    omega
  · have hat := hinv.now
    have habsent : s.now t = .absent := by
      cases hm : s.main <;> rw [hm] at hat hreset
      case resetDone => exact hat t
      case resetGo => exact hat.2 t
      case resetReady => exact hat.2.2 t
      all_goals cases hreset
    intro hrun
    obtain rfl := hinv.current hrun
    exact hrun.1 habsent

theorem State.put_put (s : State) (k t : Nat) (p p' : Thread) : (s.put k t p).put k t p' = s.put k t p' := by
  simp [State.put]

theorem State.put_self (s : State) (k t : Nat) : s.put k t (s.thread k t) = s := by
  simp [State.put]

theorem step_put (hr : run c s t p = some (s.ready, p')) :
    step c (s.put k t p) (.run k t) = some (s.put k t p') := by
  have hp : (s.put k t p).thread k t = p := by simp [State.put]
  have hrun : Test.run c (s.put k t p) t p = run c s t p := by cases p <;> rfl
  unfold step
  simp only [hp, hrun, hr, Option.map_some, State.put_put]
  rfl

/-- An updater goes on that finds `done` 0, -/
theorem updater_goes_on (ht : t < c.nbupdaters) (hd : s.done = 0) : run c s t (.called i) = some (s.ready, .next i) := by
  rw [run, if_neg (by omega), if_pos hd]

/-- and a reader that has made fewer than `NB_TEST` passes. -/
theorem reader_goes_on (ht : c.nbupdaters ≤ t) (hi : i < nbTest) : run c s t (.called i) = some (s.ready, .next i) := by
  rw [run, if_pos ht, if_neg (by omega)]

theorem pass (hcalled : run c s t (.called i) = some (s.ready, .next i)) (hi : i + 1 < 2 ^ 64) :
    Reachable (Steps (step c)) (s.put k t (.call i)) (s.put k t (.call (i + 1))) := by
  have hcall : run c s t (.call i) = some (s.ready, .called i) := rfl
  have hnext : run c s t (.next i) = some (s.ready, .call (i + 1)) := by
    simp only [run, Nat.mod_eq_of_lt hi]
    rfl
  exact .head (step_put hcall) (.head (step_put hcalled) (.head (step_put hnext) ⟨_, .nil⟩))

/-- A thread that goes on can make its passes without any other thread taking a step. -/
theorem passes {n : Nat} (hcalled : ∀ i < n, run c s t (.called i) = some (s.ready, .next i)) (hn : n < 2 ^ 64) :
    Reachable (Steps (step c)) (s.put k t (.call 0)) (s.put k t (.call n)) := by
  induction n with
  | zero => exact ⟨_, .nil⟩
  | succ n ih => exact (ih (fun i hi => hcalled i (by omega)) (by omega)).trans (pass (hcalled n (by omega)) hn)

end invariant

/-- One updater and one reader, up to the first call of the updater. -/
def firstCall : List Act := List.replicate 7 Act.test ++ [Act.run 0 0, .run 0 1, .test, .test, .run 0 0]

theorem exec_firstCall : ∃ s, exec (step ⟨2, 1, 1, 1, 1, 1⟩) .init firstCall = some s ∧
    s.thread 0 0 = .call 0 ∧ s.thread 0 1 = .waitGo ∧ s.done = 0 := by
  have hfirst : (exec (step ⟨2, 1, 1, 1, 1, 1⟩) .init firstCall).any fun s =>
      s.thread 0 0 = .call 0 ∧ s.thread 0 1 = .waitGo ∧ s.done = 0 := by decide
  obtain ⟨s, hs, hp⟩ := Option.any_eq_true _ _ |>.mp hfirst
  exact ⟨s, hs, of_decide_eq_true hp⟩

/-- The reader leaves its loop and is joined, then the updater, and the next iteration resets `done`. -/
def nextReset : List Act :=
  [.run 0 1, .run 0 1, .run 0 1, .test, .test, .run 0 0, .run 0 0, .run 0 0] ++ List.replicate 4 Act.test

theorem run_protocol_firstCall : ∃ tr s, Run (Steps (step ⟨2, 1, 1, 1, 1, 1⟩)) .init tr s ∧ s.iteration = 1 ∧
    s.main = .resetGo ∧ s.thread 0 0 = .returned ∧ s.thread 0 1 = .returned ∧
    ∀ v ∈ states .init tr, Protocol ⟨2, 1, 1, 1, 1, 1⟩ Wraps v := by
  have h : (exec (step ⟨2, 1, 1, 1, 1, 1⟩) .init (firstCall ++ [.run 0 1])).any fun s =>
      decide (s.thread 0 1 = .call 0) && (exec (step ⟨2, 1, 1, 1, 1, 1⟩) (s.put 0 1 (.call nbTest)) nextReset).any fun u =>
        decide (u.iteration = 1) && decide (u.main = .resetGo) && decide (u.thread 0 0 = .returned) &&
        decide (u.thread 0 1 = .returned) := by decide +kernel
  obtain ⟨s, hs, hp⟩ := (Option.any_eq_true _ _).mp h
  rw [Bool.and_eq_true, decide_eq_true_eq, Option.any_eq_true] at hp
  obtain ⟨h1, u, hu, hp⟩ := hp
  simp only [Bool.and_eq_true, decide_eq_true_eq] at hp
  have hreads : Reachable (Steps (step ⟨2, 1, 1, 1, 1, 1⟩)) (s.put 0 1 (.call 0)) (s.put 0 1 (.call nbTest)) :=
    passes (fun i hi => reader_goes_on (by decide) hi) (by decide)
  rw [← h1, State.put_self] at hreads
  obtain ⟨tr, hrun⟩ := (Reachable.trans ⟨_, exec_run hs⟩ hreads).trans ⟨_, exec_run hu⟩
  refine ⟨tr, u, hrun, hp.1.1.1, hp.1.1.2, hp.1.2, hp.2, fun v hv => ?_⟩
  obtain ⟨tr', _, hv⟩ := hrun.upTo hv
  exact run_protocol (by decide) hv

/-- The updater goes on alone until its counter wraps, and leaves while the reader still waits for `go`. -/
theorem updater_leaves_early :
    ∃ tr s, Run (Steps (step ⟨2, 1, 1, 1, 1, 1⟩)) .init tr s ∧ ¬ Protocol ⟨2, 1, 1, 1, 1, 1⟩ (fun _ => False) s := by
  obtain ⟨s, hs, h0, h1, hd⟩ := exec_firstCall
  have hs0 : s.put 0 0 (.call 0) = s := by rw [← h0, State.put_self]
  have hpasses : Reachable (Steps (step ⟨2, 1, 1, 1, 1, 1⟩)) (s.put 0 0 (.call 0)) (s.put 0 0 (.call (2 ^ 64 - 1))) :=
    passes (fun i _ => updater_goes_on (by decide) hd) (by decide)
  have hlast : Reachable (Steps (step ⟨2, 1, 1, 1, 1, 1⟩)) (s.put 0 0 (.call (2 ^ 64 - 1)))
      (s.put 0 0 (.next (2 ^ 64 - 1))) :=
    .head (step_put rfl) (.head (step_put (by simp [run, hd])) ⟨_, .nil⟩)
  rw [hs0] at hpasses
  obtain ⟨tr, hrun⟩ := (Reachable.trans ⟨_, exec_run hs⟩ hpasses).trans hlast
  refine ⟨tr, _, hrun, fun h => ?_⟩
  have hloops : ((s.put 0 0 (.next (2 ^ 64 - 1))).thread 0 0).Loops := by simp [State.put, Thread.Loops]
  have hleft : step ⟨2, 1, 1, 1, 1, 1⟩ (s.put 0 0 (.next (2 ^ 64 - 1))) (.run 0 0) = some (s.put 0 0 (.left 0)) :=
    step_put rfl
  have hleaves : Leaves ⟨2, 1, 1, 1, 1, 1⟩ (s.put 0 0 (.next (2 ^ 64 - 1))) 0 0 :=
    ⟨hloops, _, hleft, by simp [State.put, Thread.Finished]⟩
  have hfin := h.stops 0 0 (by decide) hleaves id 1 (by decide) (by decide)
  simp [State.put, h1, Thread.Finished] at hfin

end Gecos.Test
