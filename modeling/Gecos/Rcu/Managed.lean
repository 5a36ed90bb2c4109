import Gecos.Allocation.Managed
import Gecos.Allocation.Roles
import Gecos.Rcu.Object

/-! list_rcu.c with the allocator under it: the updater's thread calls `new_node`, the `call_rcu` thread
`free_node`, and their accesses interleave. -/
namespace Gecos

/-- A node that is linked or in hand is so after an access, too. -/
theorem Writers.step_holds {β ρ υ : Type} [DecidableEq β] {m m' : Mem β} {upd : υ → Writer β ρ} {u : υ} {w' : Writer β ρ}
    {start : ρ} {n : Addr} (h : Writers m upd) (hs : (upd u).step start m = some (m', w'))
    (hn : (∃ b, n ∈ m.chain b) ∨ (upd u).inHand = some n) : (∃ b, n ∈ m'.chain b) ∨ w'.inHand = some n := by
  rcases hn with ⟨b, hb⟩ | hn
  · obtain ⟨_, hch, _⟩ := h.step_keeps hs
    refine (hch b n hb).imp (fun hb' => ⟨b, hb'⟩) fun hw => ?_
    rw [hw]
    rfl
  · have hf := h.facts u
    cases hw : upd u with
    | storeKey | storeNext =>
      rw [hw] at hs hn
      cases hs
      exact .inr hn
    | link k b prev p new =>
      have hnew := (h.fresh u new (by rw [hw]; rfl)).2
      rw [hw] at hs hf hn
      obtain ⟨⟨l₁, l₂, hp, rfl, _⟩, _, hx⟩ := hf
      cases hs
      cases hn
      obtain ⟨_, _, hch, _⟩ := h.table.link_chain hp hnew hx
      exact .inl ⟨b, by simp [hch]⟩
    | freeNodeLater | handOver =>
      rw [hw] at hs
      cases hs
    | _ =>
      rw [hw] at hn
      cases hn

namespace Threads
variable {τ : Type} [DecidableEq τ] {s s' : State τ} {a : Act τ} {n : Addr} {t : τ}

/-- Nodes get into use where `new_node` returns. -/
theorem step_allocated (hs : step s a = some s') (hno : ∀ t n, a ≠ .freeNode t n) :
    s'.allocated = (returned s a).elim s.allocated fun n => Function.update s.allocated n true := by
  cases a with
  | freeNode t n => exact (hno t n rfl).elim
  | newNode t =>
    simp only [step] at hs
    split at hs <;> cases hs
    rfl
  | calloc t fresh =>
    simp only [step] at hs
    split at hs <;> cases hs
    rfl
  | run t =>
    simp only [step, State.run] at hs
    split at hs
    case h_5 hp =>
      obtain ⟨node, hl, rfl⟩ := Option.map_eq_some_iff.mp hs
      simp only [returned, hp, if_true, hl]
      rfl
    all_goals
      rename_i hp
      simp only [returned, hp, reduceCtorEq, if_false]
      first
      | cases hs
        done
      | cases hs
        rfl
      | split at hs <;> cases hs <;> rfl
      | obtain ⟨_, _, rfl⟩ := Option.map_eq_some_iff.mp hs
        rfl

theorem freeNode_allocated (hs : step s (.freeNode t n) = some s') :
    s.allocated n = true ∧ s'.allocated = Function.update s.allocated n false := by
  simp only [step] at hs
  split at hs <;> cases hs
  rename_i h
  exact ⟨h.2, rfl⟩

/-- Only its own steps move a thread. -/
theorem step_threads (hs : step s a = some s') (hn : ∀ n, a ≠ .freeNode t n) (hnew : a ≠ .newNode t)
    (hp : (s'.threads t).point ≠ .idle) : (s.threads t).point ≠ .idle := by
  intro hidle
  have hother {u : τ} {q : State τ} {th : Thread} (hq : q.threads = s.threads) (hu : t ≠ u) :
      ((q.put u th).threads t).point = .idle := by
    simp [State.put, Function.update_of_ne hu, hq, hidle]
  cases a with
  | newNode u =>
    simp only [step] at hs
    split at hs <;> cases hs
    exact hp (hother rfl fun he => hnew (by rw [he]))
  | freeNode u n =>
    simp only [step] at hs
    split at hs <;> cases hs
    exact hp (hother rfl fun he => hn n (by rw [he]))
  | calloc u fresh =>
    simp only [step] at hs
    split at hs <;> cases hs
    rename_i hu
    refine hp (hother rfl fun he => ?_)
    rw [← he, hidle] at hu
    cases hu.1
  | run u =>
    by_cases hu : t = u
    · subst hu
      simp [step, State.run, hidle] at hs
    · simp only [step, State.run] at hs
      split at hs
      all_goals
        first
        | cases hs
          done
        | cases hs
          exact hp (hother rfl hu)
        | split at hs <;> cases hs <;> exact hp (hother rfl hu)
        | obtain ⟨_, _, rfl⟩ := Option.map_eq_some_iff.mp hs
          exact hp (hother rfl hu)

/-- A thread to which `new_node` returns is done with it. -/
theorem returned_idle (hs : step s a = some s') (hn : returned s a = some n) :
    ∃ t, (s.threads t).point.allocating = true ∧ (s'.threads t).point = .idle := by
  cases a with
  | newNode | freeNode => cases hn
  | calloc t fresh =>
    simp only [step] at hs
    split at hs <;> cases hs
    rename_i h
    exact ⟨t, by rw [h.1]; rfl, by simp [State.put]⟩
  | run t =>
    simp only [returned] at hn
    split at hn
    case isFalse => cases hn
    case isTrue hp =>
      simp only [step, State.run, hp] at hs
      obtain ⟨_, _, rfl⟩ := Option.map_eq_some_iff.mp hs
      exact ⟨t, by rw [hp]; rfl, by simp [State.put]⟩

end Threads

namespace ListRcu
open Library
variable {β ρ : Type}

/-- A node in use is linked, in the updater's hand, or waits for its callback. -/
def Kept (s : State β ρ) : Prop :=
  ∀ n, s.mem.avail n = false → (∃ b, n ∈ s.mem.chain b) ∨ (s.upd ()).inHand = some n ∨ s.pending n = true

section kept
variable [DecidableEq β] {s s' : State β ρ} {n : Addr}

theorem Kept.update (h : Kept s) (hi : Inv s) (hs : s.update = some s') : Kept s' := by
  unfold State.update at hs
  split at hs
  case h_1 op k b hu | h_2 b res hu =>
    cases hs
    intro n hn
    have hold := h n hn
    rw [hu] at hold
    exact hold.imp_right fun hold => .inr (hold.resolve_left (by simp [Writer.inHand]))
  case h_3 b x hu =>
    cases hs
    intro n hn
    refine (h n hn).imp_right fun hold => .inr ?_
    by_cases hx : n = x
    · rw [hx]
      exact Function.update_self ..
    · refine (Function.update_of_ne hx ..).trans (hold.resolve_left fun hh => hx ?_)
      rw [hu] at hh
      exact (Option.some.inj hh).symm
  case h_4 =>
    obtain ⟨⟨m', w'⟩, hw, rfl⟩ := Option.map_eq_some_iff.mp hs
    intro n hn
    have hav := Writer.step_avail hw
    have hn' : s.mem.avail n = false := by rw [← hav]; exact hn
    rw [← or_assoc]
    refine (or_assoc.mpr (h n hn')).imp_left fun hold => ?_
    exact (hi.writers.step_holds (u := ()) hw hold).imp_right fun hw' => by simpa [State.put] using hw'

omit [DecidableEq β] in
theorem Kept.alloc (h : Kept s) {m : Mem β} {w : Writer β Unit} (hs : (s.upd ()).alloc s.mem n = some (m, w)) :
    Kept (s.put (m, w)) := by
  intro x hx
  unfold Writer.alloc at hs
  split at hs
  case h_2 => cases hs
  case h_1 hu =>
    split at hs <;> cases hs
    by_cases he : x = n
    · refine .inr (.inl ?_)
      rw [he]
      rfl
    · have hold := h x ((Function.update_of_ne he ..).symm.trans hx)
      rw [hu] at hold
      exact hold.imp_right fun hold => .inr (hold.resolve_left (by simp [Writer.inHand]))

variable [Fintype ρ]

omit [DecidableEq β] in
theorem Kept.callback (h : Kept s) (hs : s.callback n = some s') : Kept s' := by
  unfold State.callback at hs
  split at hs <;> cases hs
  intro x hx
  by_cases he : x = n
  · simp [he] at hx
  · refine (h x ((Function.update_of_ne he ..).symm.trans hx)).imp_right fun hold => hold.imp_right fun hp => ?_
    exact (Function.update_of_ne he ..).trans hp

variable [DecidableEq ρ]

theorem Kept.step {a : Act β ρ} (h : Kept s) (hi : Inv s) (hs : ListRcu.step s a = some s') : Kept s' := by
  cases a with
  | begin op k b =>
    obtain ⟨w, hw, rfl⟩ := Option.map_eq_some_iff.mp hs
    intro n hn
    have hold := h n hn
    unfold Writer.begin at hw
    split at hw
    case h_3 => cases hw
    all_goals
      rename_i hu
      rw [hu] at hold
      exact hold.imp_right fun hold => .inr (hold.resolve_left (by simp [Writer.inHand]))
  | update => exact h.update hi hs
  | alloc n =>
    obtain ⟨⟨m, w⟩, hw, rfl⟩ := Option.map_eq_some_iff.mp hs
    exact h.alloc hw
  | callback n => exact h.callback hs
  | call r k b =>
    simp only [ListRcu.step] at hs
    split at hs <;> cases hs <;> exact h
  | read r =>
    obtain ⟨x, _, rfl⟩ := Option.map_eq_some_iff.mp hs
    exact h

theorem kept_reachable (h : Reachable (Steps step) (.init β ρ) s) : Kept s := by
  refine (h.invariant (P := fun s => Inv s ∧ Kept s) ⟨Inv.init, ?_⟩ fun _ _ _ hi hr => ⟨hi.1.step hr, hi.2.step hi.1 hr⟩).2
  intro n hn
  cases hn

end kept

/-- The updater's own steps free nothing. -/
theorem update_avail [DecidableEq β] {s s' : State β ρ} (hs : s.update = some s') : s'.mem.avail = s.mem.avail := by
  unfold State.update at hs
  split at hs
  case h_1 | h_2 | h_3 =>
    cases hs
    rfl
  case h_4 =>
    obtain ⟨⟨m', w'⟩, hw, rfl⟩ := Option.map_eq_some_iff.mp hs
    exact Writer.step_avail hw

namespace Managed

/-- Of the allocator's threads `false` is the updater's and `true` the `call_rcu` thread. -/
structure State (β ρ : Type) where
  prog : ListRcu.State β ρ
  pool : Threads.State Bool

/-- A step of the program but for its calls of the allocator; the updater's call of `new_node`; an access of the
allocator; the return of `calloc`; the `call_rcu` thread's call of `free_node` in the callback of a node. -/
inductive Act (β ρ : Type) where
  | prog (a : ListRcu.Act β ρ)
  | newNode
  | run (t : Bool)
  | calloc (fresh : Addr)
  | callback (n : Addr)

def State.init (β ρ : Type) : State β ρ := ⟨.init β ρ, .init Bool⟩

/-- The updater gets `n` from `new_node`, whatever the state of `n`. -/
def give (s : ListRcu.State β ρ) (n : Addr) : Option (ListRcu.State β ρ) := ((s.upd ()).give s.mem n).map s.put

/-- A step of the allocator, by which `new_node` may return. -/
def pool (s : State β ρ) (a : Threads.Act Bool) : Option (State β ρ) :=
  (Threads.step s.pool a).bind fun p =>
    match Threads.returned s.pool a with
    | none => some { s with pool := p }
    | some n => (give s.prog n).map fun q => ⟨q, p⟩

section step
variable [DecidableEq β] [DecidableEq ρ] [Fintype ρ]

def step (s : State β ρ) : Act β ρ → Option (State β ρ)
  | .prog (.alloc _) | .prog (.callback _) => none
  | .prog a => (ListRcu.step s.prog a).map fun q => { s with prog := q }
  | .newNode => match s.prog.upd () with
    | .initNewNode .. => pool s (.newNode false)
    | _ => none
  | .run t => pool s (.run t)
  | .calloc fresh => pool s (.calloc false fresh)
  | .callback n => (s.prog.callback n).bind fun q => (Threads.step s.pool (.freeNode true n)).map fun p => ⟨q, p⟩

end step

/-- What the clients of the program see. -/
def interface {P O V : Type} (I : Interface (ListRcu.Act β ρ) (ListRcu.State β ρ) P O V) :
    Interface (Act β ρ) (State β ρ) P O V where
  call
    | .prog a => I.call a
    | _ => none
  ret a t := match a with
    | .prog a => I.ret a t.prog
    | _ => none

/-- Where a node can be that `calloc` has returned. -/
inductive Place (β : Type) where
  | linked (b : β)
  | hand
  | waiting
  | freeing
  | freer
  | freelist
  | updater

def State.At (s : State β ρ) (n : Addr) : Place β → Prop
  | .linked b => n ∈ s.prog.mem.chain b
  | .hand => (s.prog.upd ()).inHand = some n
  | .waiting => s.prog.pending n = true
  | .freeing => (s.pool.threads true).point = .push n
  | .freer => s.pool.Has true n
  | .freelist => Reach s.pool.mrNext s.pool.freelist n
  | .updater => s.pool.Has false n

/-- Program and allocator agree on what is in use, and the updater is at its call of `new_node` while its
thread is in the allocator. -/
structure Inv (s : State β ρ) : Prop where
  pool : Reachable (Threads.RoleStep (· = true)) (.init Bool) s.pool
  inUse : ∀ n, s.prog.mem.avail n = !s.pool.allocated n
  calling : (s.pool.threads false).point ≠ .idle → ∃ k b prev cur, s.prog.upd () = .initNewNode k b prev cur

section run
variable [DecidableEq β] [DecidableEq ρ] [Fintype ρ] {s t : State β ρ} {a : Threads.Act Bool} {p : Threads.State Bool} {n : Addr}

omit [DecidableEq β] [DecidableEq ρ] [Fintype ρ] in
theorem Inv.init : Inv (.init β ρ) where
  pool := ⟨[], .nil⟩
  inUse _ := rfl
  calling h := (h rfl).elim

omit [DecidableEq β] [DecidableEq ρ] [Fintype ρ] in
/-- The node that `new_node` returns is not in use, and only the updater is ever waiting for one. -/
theorem Inv.returned (h : Inv s) (hp : Threads.step s.pool a = some p) (hn : Threads.returned s.pool a = some n) :
    s.prog.mem.avail n = true ∧ (p.threads false).point = .idle ∧ ∃ k b prev cur, s.prog.upd () = .initNewNode k b prev cur := by
  obtain ⟨own, g, hh⟩ := Threads.held_reachable h.pool
  have hfree := hh.inv.fresh hp hn
  obtain ⟨u, hu, hidle⟩ := Threads.returned_idle hp hn
  have hfalse : u = false := by
    cases u with
    | false => rfl
    | true => exact absurd rfl (hh.not_frees hu)
  subst hfalse
  refine ⟨by rw [h.inUse, hfree]; rfl, hidle, h.calling fun he => ?_⟩
  rw [he] at hu
  cases hu

omit [DecidableEq ρ] [Fintype ρ] in
theorem give_step [DecidableEq ρ] [Fintype ρ] {q : ListRcu.State β ρ} (hav : q.mem.avail n = true) :
    give q n = ListRcu.step q (.alloc n) := by
  simp only [give, ListRcu.step, Writer.give_eq_alloc hav]

/-- A step of the allocator is none of the program, or hands the updater an available node. -/
theorem Inv.pool_step (h : Inv s) (hp : Threads.step s.pool a = some p) (ha : a.Allowed (· = true))
    (hno : ∀ t n, a ≠ .freeNode t n) (hnew : a = .newNode false → ∃ k b prev cur, s.prog.upd () = .initNewNode k b prev cur) :
    ∃ q, Managed.pool s a = some ⟨q, p⟩ ∧ Inv ⟨q, p⟩ ∧
      (Threads.returned s.pool a = none ∧ q = s.prog ∨
        ∃ n, Threads.returned s.pool a = some n ∧ ListRcu.step s.prog (.alloc n) = some q) := by
  have hall := Threads.step_allocated hp hno
  have hpool : Reachable (Threads.RoleStep (· = true)) (.init Bool) p := by
    obtain ⟨tr, hr⟩ := h.pool
    exact ⟨_, hr.snoc ⟨hp, ha⟩⟩
  cases hr : Threads.returned s.pool a with
  | none =>
    rw [hr, Option.elim_none] at hall
    refine ⟨s.prog, by simp [Managed.pool, hp, hr], ⟨hpool, fun n => by rw [h.inUse, hall], fun hne => ?_⟩, .inl ⟨rfl, rfl⟩⟩
    by_cases he : a = .newNode false
    · exact hnew he
    · exact h.calling (Threads.step_threads hp (hno false) he hne)
  | some n =>
    rw [hr, Option.elim_some] at hall
    obtain ⟨hav, hidle, k, b, prev, cur, hu⟩ := h.returned hp hr
    obtain ⟨q, hgive, hqav⟩ : ∃ q, give s.prog n = some q ∧ q.mem.avail = Function.update s.prog.mem.avail n false := by
      rw [give, hu]
      exact ⟨_, rfl, rfl⟩
    refine ⟨q, by simp [Managed.pool, hp, hr, hgive], ⟨hpool, fun x => ?_, fun hne => (hne hidle).elim⟩, .inr ⟨n, rfl, ?_⟩⟩
    · rw [hall, hqav]
      by_cases hx : x = n
      · simp [hx]
      · simp [Function.update_of_ne hx, h.inUse]
    · rw [← give_step hav]
      exact hgive

omit [DecidableEq β] [DecidableEq ρ] in
/-- The callback of a node in use frees it, once the `call_rcu` thread is not in another. -/
theorem Inv.callback (h : Inv s) (hi : ListRcu.Inv s.prog) {q : ListRcu.State β ρ} (hs : s.prog.callback n = some q)
    (hidle : (s.pool.threads true).point = .idle) :
    ∃ p, Threads.step s.pool (.freeNode true n) = some p ∧ Inv ⟨q, p⟩ := by
  unfold ListRcu.State.callback at hs
  split at hs <;> cases hs
  rename_i hpend
  have hav := (hi.pending n hpend.1).1
  rw [h.inUse] at hav
  have hall : s.pool.allocated n = true := by simpa using hav
  obtain ⟨p, hp⟩ : ∃ p, Threads.step s.pool (.freeNode true n) = some p := by simp [Threads.step, hidle, hall]
  obtain ⟨_, hp'⟩ := Threads.freeNode_allocated hp
  obtain ⟨tr, hr⟩ := h.pool
  refine ⟨p, hp, ⟨_, hr.snoc ⟨hp, rfl⟩⟩, fun x => ?_, fun hne => ?_⟩
  · rw [hp']
    by_cases hx : x = n
    · simp [hx]
    · simp [Function.update_of_ne hx, h.inUse]
  · exact h.calling (Threads.step_threads hp (fun _ he => by cases he) (fun he => by cases he) hne)

/-- What a step of the whole is to the program: nothing, a step that its clients do not see, or one of its own. -/
inductive Projects (s t : State β ρ) : Act β ρ → Prop where
  | still {a : Act β ρ} : (∀ b, a ≠ .prog b) → t.prog = s.prog → Projects s t a
  | silent {a : Act β ρ} (b : ListRcu.Act β ρ) : (∀ b, a ≠ .prog b) → b.label = .other →
      ListRcu.step s.prog b = some t.prog → Projects s t a
  | prog (b : ListRcu.Act β ρ) : ListRcu.step s.prog b = some t.prog → Projects s t (.prog b)

theorem Inv.projects_pool {b : Act β ρ} (h : Inv s) (hs : Managed.pool s a = some t) (ha : a.Allowed (· = true))
    (hnp : ∀ c, b ≠ .prog c) (hno : ∀ t n, a ≠ .freeNode t n)
    (hnew : a = .newNode false → ∃ k b prev cur, s.prog.upd () = .initNewNode k b prev cur) : Inv t ∧ Projects s t b := by
  obtain ⟨p, hp, _⟩ := Option.bind_eq_some_iff.mp hs
  obtain ⟨q, hq, hi, hcase⟩ := h.pool_step hp ha hno hnew
  cases hs.symm.trans hq
  refine ⟨hi, ?_⟩
  rcases hcase with ⟨_, rfl⟩ | ⟨n, _, hn⟩
  · exact .still hnp rfl
  · exact .silent (.alloc n) hnp rfl hn

theorem Inv.step {a : Act β ρ} (h : Inv s) (hr : Reachable (Steps ListRcu.step) (.init β ρ) s.prog)
    (hs : Managed.step s a = some t) : Inv t ∧ Projects s t a := by
  cases a with
  | newNode =>
    simp only [Managed.step] at hs
    split at hs
    case h_2 => cases hs
    case h_1 k b prev cur hu =>
      exact h.projects_pool hs (by simp [Threads.Act.Allowed]) (by simp) (by simp) fun _ => ⟨k, b, prev, cur, hu⟩
  | run t => exact h.projects_pool hs trivial (by simp) (by simp) (by simp)
  | calloc fresh => exact h.projects_pool hs trivial (by simp) (by simp) (by simp)
  | callback n =>
    obtain ⟨q, hq, hmap⟩ := Option.bind_eq_some_iff.mp hs
    obtain ⟨p, hp, rfl⟩ := Option.map_eq_some_iff.mp hmap
    have hidle : (s.pool.threads true).point = .idle := by
      by_contra hne
      simp [Threads.step, hne] at hp
    obtain ⟨p', hp', hi⟩ := h.callback (inv_reachable hr) hq hidle
    cases hp.symm.trans hp'
    exact ⟨hi, .silent (.callback n) (by simp) rfl hq⟩
  | prog a =>
    have hprog (hs : (ListRcu.step s.prog a).map (fun q => { s with prog := q }) = some t)
        (hav : ∀ q, ListRcu.step s.prog a = some q → q.mem.avail = s.prog.mem.avail ∧
          ((∃ k b prev cur, s.prog.upd () = .initNewNode k b prev cur) → q.upd () = s.prog.upd ())) :
        Inv t ∧ Projects s t (.prog a) := by
      obtain ⟨q, hq, rfl⟩ := Option.map_eq_some_iff.mp hs
      obtain ⟨hmem, hupd⟩ := hav q hq
      refine ⟨⟨h.pool, fun n => ?_, fun hne => ?_⟩, .prog a hq⟩
      · exact (congrFun hmem n).trans (h.inUse n)
      · have hcall := h.calling hne
        have hu := hupd hcall
        obtain ⟨k, b, prev, cur, hc⟩ := hcall
        exact ⟨k, b, prev, cur, hu.trans hc⟩
    cases a with
    | alloc | callback => cases hs
    | begin op k b =>
      refine hprog hs fun q hq => ?_
      obtain ⟨w, hw, rfl⟩ := Option.map_eq_some_iff.mp hq
      refine ⟨rfl, fun hcall => ?_⟩
      obtain ⟨k', b', prev, cur, hu⟩ := hcall
      rw [hu] at hw
      cases hw
    | update =>
      refine hprog hs fun q hq => ⟨update_avail hq, fun hcall => ?_⟩
      obtain ⟨k, b, prev, cur, hu⟩ := hcall
      simp [ListRcu.step, ListRcu.State.update, hu, Writer.step] at hq
    | call r k b =>
      refine hprog hs fun q hq => ?_
      simp only [ListRcu.step] at hq
      split at hq <;> cases hq <;> exact ⟨rfl, fun _ => rfl⟩
    | read r =>
      refine hprog hs fun q hq => ?_
      obtain ⟨x, _, rfl⟩ := Option.map_eq_some_iff.mp hq
      exact ⟨rfl, fun _ => rfl⟩

/-- Every run of the whole is one of list_rcu.c with some allocator. -/
theorem run_prog {tr : List (Act β ρ × State β ρ)} (h : Run (Steps Managed.step) (.init β ρ) tr t) :
    ∃ tr', Run (Steps ListRcu.step) (.init β ρ) tr' t.prog ∧
      (client β ρ).interface.history tr' = (interface (client β ρ).interface).history tr ∧ Inv t := by
  induction h with
  | nil => exact ⟨[], .nil, rfl, .init⟩
  | @snoc tr s a t _ hs ih =>
    obtain ⟨tr', hrun, hhist, hi⟩ := ih
    obtain ⟨hi', hproj⟩ := hi.step ⟨tr', hrun⟩ hs
    have hother {a : Act β ρ} (hnp : ∀ b, a ≠ .prog b) (t : State β ρ) : (interface (client β ρ).interface).event a t = none := by
      cases a with
      | prog b => exact (hnp b rfl).elim
      | newNode | run | calloc | callback => rfl
    cases hproj with
    | still hnp he =>
      refine ⟨tr', by rwa [he], ?_, hi'⟩
      rw [Interface.history_snoc, hother hnp, hhist]
      simp
    | silent b hnp hl hb =>
      have hnone : (client β ρ).interface.event b t.prog = none := by
        simp [Interface.event, Client.interface, client, hl]
      refine ⟨_, hrun.snoc hb, ?_, hi'⟩
      rw [Interface.history_snoc, Interface.history_snoc, hother hnp, hnone, hhist]
    | prog b hb =>
      refine ⟨_, hrun.snoc hb, ?_, hi'⟩
      rw [Interface.history_snoc, Interface.history_snoc, hhist]
      rfl

/-- The place as the allocator names it. -/
def Place.pool : Place β → Threads.Place Bool
  | .linked _ | .hand | .waiting => .client
  | .freeing => .hand true
  | .freer => .lfl true
  | .freelist => .freelist
  | .updater => .lfl false

variable {own : Bool → List Addr} {g : List Addr} {i j : Place β}

omit [DecidableEq β] [DecidableEq ρ] [Fintype ρ] in
theorem Inv.at_pool (h : Inv s) (hi : ListRcu.Inv s.prog) (hh : Threads.Held (· = true) s.pool own g) (hat : s.At n i) :
    s.pool.At own g n i.pool := by
  have huse (hav : s.prog.mem.avail n = false) : s.pool.allocated n = true := by
    rw [h.inUse] at hav
    simpa using hav
  cases i with
  | linked b => exact huse (hi.writers.table.inUse b n hat)
  | hand => exact huse (hi.writers.fresh () n hat).1
  | waiting => exact huse (hi.pending n hat).1
  | freeing => exact hat
  | freer => exact (hh.inv.has_iff true n).mp hat
  | freelist => exact (Chain.reach_iff hh.inv.freelist).mp hat
  | updater => exact (hh.inv.has_iff false n).mp hat

omit [DecidableEq β] [DecidableEq ρ] [Fintype ρ] in
theorem Inv.at_unique (h : Inv s) (hi : ListRcu.Inv s.prog) (hh : Threads.Held (· = true) s.pool own g) (hat : s.At n i)
    (hat' : s.At n j) : i = j := by
  have hpool := hh.inv.apart n _ _ (h.at_pool hi hh hat) (h.at_pool hi hh hat')
  have hlinked (b : β) (hb : n ∈ s.prog.mem.chain b) : (s.prog.upd ()).inHand ≠ some n ∧ s.prog.pending n ≠ true :=
    ⟨fun hu => (hi.writers.fresh () n hu).2 b hb, fun hp => (hi.pending n hp).2.1 b hb⟩
  have hhand (hu : (s.prog.upd ()).inHand = some n) : s.prog.pending n ≠ true := fun hp => (hi.pending n hp).2.2 hu
  cases i with
  | linked b =>
    cases j with
    | linked b' => rw [hi.writers.table.apart b b' n hat hat']
    | hand => exact ((hlinked b hat).1 hat').elim
    | waiting => exact ((hlinked b hat).2 hat').elim
    | freeing | freer | freelist | updater => cases hpool
  | hand =>
    cases j with
    | linked b => exact ((hlinked b hat').1 hat).elim
    | hand => rfl
    | waiting => exact (hhand hat hat').elim
    | freeing | freer | freelist | updater => cases hpool
  | waiting =>
    cases j with
    | linked b => exact ((hlinked b hat').2 hat).elim
    | hand => exact (hhand hat' hat).elim
    | waiting => rfl
    | freeing | freer | freelist | updater => cases hpool
  | freeing | freer | freelist | updater => cases j <;> first | rfl | cases hpool

/-- list_rcu.c, rcu.c, list_writer.c and allocator_malloc.c together make the table one object. Every node that
`calloc` returned is in exactly one place, and what waits for its callback is freed as soon as this may run. -/
theorem rcu_managed (β ρ : Type) [DecidableEq β] [DecidableEq ρ] [Fintype ρ] :
    Linearizable (Steps Managed.step) (.init β ρ) (interface (client β ρ).interface) Request.apply (fun s => s.prog.mem.keys) ∧
      ∀ s, Reachable (Steps Managed.step) (.init β ρ) s →
        (∀ n, s.pool.obtained n = true → ∃! i, s.At n i) ∧
          ∀ n, s.prog.pending n = true → (∀ r, s.prog.waits n r = false) → (s.pool.threads true).point = .idle →
            ∃ t, Managed.step s (.callback n) = some t ∧ t.pool.allocated n = false := by
  refine ⟨(table_points β ρ).linearizable.of_runs rfl fun tr t hr => ?_, fun s ⟨tr, hr⟩ => ?_⟩
  · obtain ⟨tr', hrun, hhist, _⟩ := run_prog hr
    exact ⟨tr', t.prog, hrun, hhist, rfl⟩
  · obtain ⟨tr', hrun, _, h⟩ := run_prog hr
    have hi := inv_reachable ⟨tr', hrun⟩
    refine ⟨fun n hn => ?_, fun n hp hw hidle => ?_⟩
    · obtain ⟨own, g, hh⟩ := Threads.held_reachable h.pool
      have hex : ∃ i, s.At n i := by
        obtain ⟨i, hat⟩ := hh.kept n hn
        cases i with
        | client =>
          have hav : s.prog.mem.avail n = false := by
            rw [h.inUse, show s.pool.allocated n = true from hat]
            rfl
          rcases kept_reachable ⟨tr', hrun⟩ n hav with ⟨b, hb⟩ | hu | hp
          · exact ⟨.linked b, hb⟩
          · exact ⟨.hand, hu⟩
          · exact ⟨.waiting, hp⟩
        | freelist => exact ⟨.freelist, (Chain.reach_iff hh.inv.freelist).mpr hat⟩
        | lfl u =>
          cases u with
          | true => exact ⟨.freer, (hh.inv.has_iff true n).mpr hat⟩
          | false => exact ⟨.updater, (hh.inv.has_iff false n).mpr hat⟩
        | hand u =>
          cases u with
          | true => exact ⟨.freeing, hat⟩
          | false =>
            have hpt : (s.pool.threads false).point = .push n := hat
            rcases (hh.fits false).other (by simp) with he | he <;> rw [hpt] at he <;> cases he
      obtain ⟨i, hat⟩ := hex
      exact ⟨i, hat, fun j hj => h.at_unique hi hh hj hat⟩
    · obtain ⟨q, hq⟩ : ∃ q, s.prog.callback n = some q := by simp [ListRcu.State.callback, hp, hw]
      obtain ⟨p, hp', _⟩ := h.callback hi hq hidle
      obtain ⟨_, hall⟩ := Threads.freeNode_allocated hp'
      refine ⟨⟨q, p⟩, by simp [Managed.step, hq, hp'], ?_⟩
      simp [hall]

end run
end Managed
end ListRcu
end Gecos
