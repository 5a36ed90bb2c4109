import Gecos.Lock.Blocking
import Gecos.Table.Object

/-! What LSPIN and RWLOCK exclude, and the table of these builds as one object. -/
namespace Gecos.ListPthread
open Library
variable {β υ ρ : Type} {B : Build} {s t : State β υ ρ} {u v : υ} {r : ρ} {k : Int} {b : β} {res : Nat}
  {a : Act β υ ρ}

def Act.label : Act β υ ρ → Label β υ ρ
  | .begin u op k b => .begin u op k b
  | .update u => .update u
  | .alloc .. => .other
  | .call r k b => .call r k b
  | .read r => .read r

theorem label_call : a.label = .call r k b ↔ a = .call r k b := by
  cases a <;> simp [Act.label]

theorem label_read : a.label = .read r ↔ a = .read r := by
  cases a <;> simp [Act.label]

def Searcher.running : Searcher β → Bool
  | .idle | .returned _ => false
  | _ => true

/-- The result that a search returned, or is to return once it has unlocked. -/
def Searcher.result : Searcher β → Option Nat
  | .runlock _ _ res | .returned res => some res
  | _ => none

def Searcher.answer : Searcher β → Option Nat
  | .returned res => some res
  | _ => none

theorem answer_returned {x : Searcher β} : x.answer = some res ↔ x = .returned res := by
  cases x <;> simp [Searcher.answer]

def client (β υ ρ : Type) : Client (State β υ ρ) (Act β υ ρ) β υ ρ where
  label := Act.label
  mem := State.mem
  stage s u := (s.upd u).stage
  result s u := (s.upd u).result
  reading s r := (s.rd r).running
  answer s r := (s.rd r).answer

def parts (β υ ρ : Type) : (client β υ ρ).Parts (Writer β Unit) (Searcher β) where
  upd := State.upd
  stage := Writer.stage
  result := Writer.result
  rd := State.rd
  running := Searcher.running
  pending := Searcher.result
  answer := Searcher.answer
  stage_eq _ := rfl
  result_eq _ := rfl
  reading_eq _ := rfl
  answer_eq _ := rfl
  stage_ne := Writer.stage_ne
  pending_eq x res h := by
    cases x with
    | returned => exact h
    | idle | rlock | head | key | next | runlock => cases h

/-- A completed call of `search(k, &heads[b], &locks[b])` by `r` with result `res`; `hist` are the
states from just after the call to just before the return. -/
def Completed [DecidableEq β] [DecidableEq υ] [DecidableEq ρ] (B : Build) (r : ρ) (k : Int) (b : β) (res : Nat)
    (hist : List (State β υ ρ)) : Prop :=
  Interval (Steps (step B)) (.init β υ ρ) (· = .call r k b) (fun a => ∀ k b, a ≠ .call r k b)
    (fun a s => a = .read r ∧ s.rd r = .returned res) hist

theorem Searcher.step_running {m : Mem β} {x x' : Searcher β} (h : x.step m = some x') :
    x.running = true ∧ x'.running = true ∧ x'.answer = none ∧ ∀ res, x'.result = some res → res ≤ 1 := by
  cases x with
  | idle | rlock | runlock | returned => cases h
  | head k b =>
    cases h
    cases m.heads b <;> exact ⟨rfl, rfl, rfl, by simp [Searcher.loop, Searcher.result]⟩
  | key k b cur =>
    cases h
    split
    · refine ⟨rfl, rfl, rfl, fun res hr => ?_⟩
      cases hr
      split <;> simp
    · exact ⟨rfl, rfl, rfl, by simp [Searcher.result]⟩
  | next k b cur =>
    cases h
    cases m.next cur <;> exact ⟨rfl, rfl, rfl, by simp [Searcher.loop, Searcher.result]⟩

section step
variable [DecidableEq β] [DecidableEq υ] [DecidableEq ρ]

omit [DecidableEq υ] in
/-- A result is 0 or 1, and an earlier one does not change. -/
theorem Reads.running (h : Reads B s r t) :
    t.mem = s.mem ∧ t.upd = s.upd ∧ (s.rd r).running = true ∧
      ∃ x, t.rd = Function.update s.rd r x ∧ x.running = x.answer.isNone ∧
        ∀ res, x.result = some res → res ≤ 1 ∨ (s.rd r).result = some res := by
  cases h with
  | access x hx =>
    obtain ⟨hrun, hrun', hans, hres⟩ := Searcher.step_running hx
    exact ⟨rfl, rfl, hrun, x, rfl, by rw [hrun', hans]; rfl, fun res hr => .inl (hres res hr)⟩
  | lock k b l hr =>
    rw [hr]
    exact ⟨rfl, rfl, rfl, .head k b, rfl, rfl, by simp [Searcher.result]⟩
  | unlock k b res hr =>
    rw [hr]
    exact ⟨rfl, rfl, rfl, .returned res, rfl, rfl, fun res' hr => .inr hr⟩

omit [DecidableEq υ] in
/-- What a reader's step does to its request and its lock, unless it returns. -/
theorem Reads.wanted [Fintype ρ] (h : Reads B s r t) (hi : Inv B s) :
    (∃ res, t.rd r = .returned res) ∨
      (t.rd r).wanted = (s.rd r).wanted ∧ ((s.rd r).holds = none ∨ (t.rd r).holds = (s.rd r).holds) := by
  cases h with
  | access x hx =>
    obtain ⟨_, hh, hw⟩ := Searcher.step_facts (hi.facts r) hi.writers.table hx
    simp only [Function.update_self]
    exact .inr ⟨hw, .inr hh⟩
  | lock k b l hr =>
    simp only [Function.update_self, hr]
    exact .inr ⟨rfl, .inl rfl⟩
  | unlock k b res hr =>
    simp only [Function.update_self]
    exact .inl ⟨res, rfl⟩

omit [DecidableEq ρ] in
theorem Inv.update_point [Fintype ρ] (h : Inv B s) (hs : Updates s u t) :
    Point s.mem.keys t.mem.keys (s.upd u).stage (t.upd u).stage (t.upd u).result ∧
      (∃ w, t.upd = Function.update s.upd u w) ∧ t.rd = s.rd := by
  cases hs with
  | access m' w' hw =>
    refine ⟨?_, ⟨w', rfl⟩, rfl⟩
    simp only [Function.update_self]
    exact h.writers.step_point hw
  | lock op k b l hw hl =>
    refine ⟨?_, ⟨.loadHead op k b, rfl⟩, rfl⟩
    simp only [Function.update_self, hw]
    exact .quiet rfl rfl
  | free b n hw =>
    refine ⟨?_, ⟨.wunlock b 1, rfl⟩, rfl⟩
    simp only [Function.update_self, hw]
    exact .quiet rfl rfl
  | unlock b res hw =>
    refine ⟨?_, ⟨.returned res, rfl⟩, rfl⟩
    simp only [Function.update_self, hw]
    exact .ret res rfl rfl (.inl rfl)

omit [DecidableEq ρ] in
/-- Whatever happens, a bucket that a reader has locked stays as it is. -/
theorem Inv.update_agree [Fintype ρ] (h : Inv B s) (hs : Updates s u t) (hr : (s.rd r).holds = some b) : s.mem.Agree t.mem b := by
  cases hs with
  | access m' w' hw => exact h.writers.step_agree hw (h.reader_alone hr u)
  | lock | free | unlock => exact ⟨rfl, fun _ _ => rfl, fun _ _ => rfl⟩

theorem call_cases (h : step B s (.call r k b) = some t) :
    (s.rd r).running = false ∧ t = { s with rd := Function.update s.rd r (.rlock k b) } := by
  simp only [ListPthread.step] at h
  split at h <;> cases h
  all_goals
    rename_i hr
    exact ⟨by rw [hr]; rfl, rfl⟩

theorem Inv.step_agree [Fintype ρ] (h : Inv B s) (hs : ListPthread.step B s a = some t) (hr : (s.rd r).holds = some b) :
    s.mem.Agree t.mem b := by
  have hsame (m : Mem β) (hm : m.key = s.mem.key) (hn : m.next = s.mem.next) (hh : m.heads = s.mem.heads) :
      s.mem.Agree m b := by
    refine ⟨?_, fun n _ => by rw [hm], fun n _ => by rw [hn]⟩
    simp [Mem.chain, hn, hh]
  cases a with
  | begin u op k b =>
    obtain ⟨w, _, rfl⟩ := Option.map_eq_some_iff.mp hs
    exact hsame s.mem rfl rfl rfl
  | update u => exact h.update_agree (update_cases hs) hr
  | alloc u n =>
    obtain ⟨⟨m, w⟩, hw, rfl⟩ := Option.map_eq_some_iff.mp hs
    obtain ⟨_, _, hk, hn, hh⟩ := Writer.alloc_stage hw
    exact hsame m hk hn hh
  | call r' k' b' =>
    obtain ⟨_, rfl⟩ := call_cases hs
    exact hsame s.mem rfl rfl rfl
  | read r' =>
    obtain ⟨hm, _⟩ := (read_cases hs).running
    exact hsame t.mem (by rw [hm]) (by rw [hm]) (by rw [hm])

/-- Only its own calls and steps move a reader. -/
theorem step_reader (hs : step B s a = some t) (hno : ∀ k b, a ≠ .call r k b) :
    t.rd r = s.rd r ∨ a = .read r ∧ Reads B s r t := by
  cases a with
  | begin | alloc =>
    obtain ⟨_, _, rfl⟩ := Option.map_eq_some_iff.mp hs
    exact .inl rfl
  | update u =>
    refine .inl ?_
    cases update_cases hs <;> rfl
  | call r' k b =>
    obtain ⟨_, rfl⟩ := call_cases hs
    refine .inl (Function.update_of_ne (fun he => hno k b ?_) ..)
    rw [he]
  | read r' =>
    by_cases hne : r = r'
    · subst hne
      exact .inr ⟨rfl, read_cases hs⟩
    · obtain ⟨_, _, _, x, hx, _⟩ := (read_cases hs).running
      rw [hx]
      exact .inl (Function.update_of_ne hne ..)

variable [Fintype ρ]

/-- What is known of a search since its call: once it has the lock it keeps it, and the bucket is as it
is now. -/
structure Watched (B : Build) (r : ρ) (k : Int) (b : β) (hist : List (State β υ ρ)) (s : State β υ ρ) : Prop where
  wanted : (s.rd r).wanted = some (k, b)
  here : s ∈ hist
  sound : ∀ m ∈ hist, Inv B m
  held : ∀ m ∈ hist, (m.rd r).holds = some b → (s.rd r).holds = some b ∧ (m.mem.Member b k ↔ s.mem.Member b k)

omit [DecidableEq υ] [DecidableEq ρ] in
theorem Watched.snoc {hist : List (State β υ ρ)} (h : Watched B r k b hist s) (ht : Inv B t)
    (hw : (t.rd r).wanted = (s.rd r).wanted) (hh : (s.rd r).holds = none ∨ (t.rd r).holds = (s.rd r).holds)
    (ha : (s.rd r).holds = some b → s.mem.Agree t.mem b) : Watched B r k b (hist ++ [t]) t := by
  have hi := h.sound s h.here
  refine ⟨hw.trans h.wanted, by simp, fun m hm => ?_, fun m hm hb => ?_⟩
  · rcases List.mem_append.mp hm with hm | hm
    · exact h.sound m hm
    · obtain rfl := List.mem_singleton.mp hm
      exact ht
  · rcases List.mem_append.mp hm with hm | hm
    · obtain ⟨hs, hiff⟩ := h.held m hm hb
      have hkeep : (t.rd r).holds = some b := (hh.resolve_left (by simp [hs])).trans hs
      exact ⟨hkeep, hiff.trans ((ha hs).member hi.writers.table ht.writers.table).symm⟩
    · obtain rfl := List.mem_singleton.mp hm
      exact ⟨hb, Iff.rfl⟩

/-- A completed search has been watched, up to the unlock that ends it. -/
theorem Completed.watched {hist : List (State β υ ρ)} (h : Completed B r k b res hist) :
    ∃ s, Watched B r k b hist s ∧ s.rd r = .runlock k b res := by
  have hknow := h.knowledge
    (K := fun hist s => Inv B s ∧ (Watched B r k b hist s ∨ ∃ res, s.rd r = .returned res))
    (fun s a t hs ha hcall => ?_) fun hist s a t hk ha hno => ?_
  · obtain ⟨s, a, t, ⟨hi, hk⟩, ha, hread, hret⟩ := hknow
    subst hread
    have hreads := read_cases ha
    rcases hk with hw | ⟨res', hr⟩
    · refine ⟨s, hw, ?_⟩
      cases hreads with
      | access x hx =>
        obtain ⟨_, _, hans, _⟩ := Searcher.step_running hx
        simp only [Function.update_self] at hret
        rw [hret] at hans
        cases hans
      | lock k' b' l hr =>
        simp only [Function.update_self, reduceCtorEq] at hret
      | unlock k' b' res' hr =>
        simp only [Function.update_self, Searcher.returned.injEq] at hret
        have hkb := hw.wanted
        rw [hr] at hkb
        cases hkb
        rw [hr, hret]
    · have hrun := hreads.running.2.2.1
      rw [hr] at hrun
      cases hrun
  · subst hcall
    have ht := (inv_reachable hs).step ha
    obtain ⟨_, rfl⟩ := call_cases ha
    refine ⟨ht, .inl ⟨by simp [Searcher.wanted], by simp, fun m hm => ?_, fun m hm hb => ?_⟩⟩
    · obtain rfl := List.mem_singleton.mp hm
      exact ht
    · obtain rfl := List.mem_singleton.mp hm
      simp [Searcher.holds] at hb
  · obtain ⟨hi, hk⟩ := hk
    have ht := hi.step ha
    refine ⟨ht, ?_⟩
    rcases step_reader ha hno with hr | ⟨_, hreads⟩
    · refine hk.imp (fun hw => ?_) fun hret => by rwa [hr]
      exact hw.snoc ht (by rw [hr]) (.inr (by rw [hr])) (hi.step_agree ha)
    · rcases hk with hw | ⟨res', hr⟩
      · rcases hreads.wanted hi with hret | ⟨hwant, hh⟩
        · exact .inr hret
        · exact .inl (hw.snoc ht hwant hh (hi.step_agree ha))
      · have hrun := hreads.running.2.2.1
        rw [hr] at hrun
        cases hrun

/-- A search has the lock of its bucket at some time. All that time no updater is inside, with LSPIN no
other reader either, and the answer is right. -/
theorem pthread_search_locked {hist : List (State β υ ρ)} (h : Completed B r k b res hist) :
    (∃ m ∈ hist, (m.rd r).holds = some b) ∧
      ∀ m ∈ hist, (m.rd r).holds = some b →
        (∀ u, (m.upd u).inside ≠ some b) ∧ (B = .lspin → ∀ r', (m.rd r').holds = some b → r' = r) ∧
          (res = 1 ↔ m.mem.Member b k) := by
  obtain ⟨s, hw, hr⟩ := h.watched
  refine ⟨⟨s, hw.here, by rw [hr]; rfl⟩, fun m hm hb => ?_⟩
  have hi := hw.sound m hm
  refine ⟨hi.reader_alone hb, fun hB r' hr' => ?_, ?_⟩
  · subst hB
    exact hi.locked.reader_unique hr' hb
  · exact ((hw.sound s hw.here).wanted_answer hr).2.trans (hw.held m hm hb).2.symm

/-- A reader that waits while a key is inserted, and then finds it. -/
theorem pthread_search_locked_waiting : ∃ hist : List (State Unit Unit Unit), Completed .lspin () 1 () 1 hist ∧
    ∃ m ∈ hist, (∀ u, (m.upd u).inside ≠ some ()) ∧ m.mem.Member () 1 := by
  have h : (exec (step .lspin) (.init Unit Unit Unit) ([Act.begin () .insert 1 (), .update ()] ++
      (Act.call () 1 () :: ([Act.update (), .alloc () 0] ++ List.replicate 4 (Act.update ()) ++
        List.replicate 3 (Act.read ()) ++ [Act.read ()])))).any fun s => decide (s.rd () = .returned 1) := by decide +kernel
  obtain ⟨hist, hc⟩ : ∃ hist : List (State Unit Unit Unit), Completed .lspin () 1 () 1 hist :=
    Interval.of_exec h rfl (by simp) fun _ ht => ⟨rfl, of_decide_eq_true ht⟩
  obtain ⟨⟨m, hm, hb⟩, hall⟩ := pthread_search_locked hc
  obtain ⟨hno, _, hiff⟩ := hall m hm hb
  exact ⟨hist, hc, m, hm, hno, hiff.mp rfl⟩

theorem Inv.parts_moves (h : Inv B s) (hs : ListPthread.step B s a = some t) : (parts β υ ρ).Moves s t a.label := by
  cases a with
  | begin u op k b =>
    obtain ⟨w, hw, rfl⟩ := Option.map_eq_some_iff.mp hs
    exact ⟨rfl, rfl, w, rfl, Writer.begin_stage hw⟩
  | update u =>
    obtain ⟨hp, ⟨w, hw⟩, hrd⟩ := h.update_point (update_cases hs)
    rw [hw, Function.update_self] at hp
    exact ⟨hrd, w, hw, hp⟩
  | alloc u n =>
    obtain ⟨⟨m, w⟩, hw, rfl⟩ := Option.map_eq_some_iff.mp hs
    obtain ⟨hst, _, hk, hn, hh⟩ := Writer.alloc_stage hw
    exact ⟨Mem.keys_of_same hk hn hh, rfl, u, w, rfl, hst⟩
  | call r k b =>
    obtain ⟨hrun, rfl⟩ := call_cases hs
    exact ⟨rfl, rfl, .rlock k b, rfl, hrun, rfl, rfl⟩
  | read r =>
    obtain ⟨hm, hu, hrun, x, hx, hans, hres⟩ := (read_cases hs).running
    exact ⟨by simp only [client, hm], hu, x, hx, hrun, hans, hres⟩

omit [Fintype ρ] in
theorem searched_completed {hist : List (State β υ ρ)}
    (h : (client β υ ρ).Searched (Steps (step B)) (.init β υ ρ) r k b res hist) : Completed B r k b res hist :=
  h.imp (fun _ => label_call.mp) (fun _ hno k b he => hno k b (label_call.mpr he)) fun _ _ hret =>
    ⟨label_read.mp hret.1, answer_returned.mp hret.2⟩

/-- The points at which the calls take effect. -/
theorem table_points (B : Build) :
    Points (Steps (step B)) (.init β υ ρ) (client β υ ρ).interface Request.apply (fun s => s.mem.keys)
      (client β υ ρ).stages := by
  refine Client.Parts.points (P := parts β υ ρ) (fun _ => rfl) (fun _ => ⟨rfl, rfl⟩)
    (fun s a t hs ha => (inv_reachable hs).parts_moves ha) fun r k b res hist h => ?_
  obtain ⟨s, hw, hr⟩ := (searched_completed h).watched
  exact ⟨s, hw.here, ((hw.sound s hw.here).wanted_answer hr).2⟩

/-- The table of list_lock.c is linearizable with spin locks and with reader-writer locks. -/
theorem pthread_table_linearizable (B : Build) :
    Linearizable (Steps (step B)) (.init β υ ρ) (client β υ ρ).interface Request.apply fun s => s.mem.keys :=
  (table_points B).linearizable

end step
end Gecos.ListPthread
