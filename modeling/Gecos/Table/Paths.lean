import Gecos.Table.Balance
import Gecos.Table.Sequential
import Gecos.Hazard.Protection

/-! No node ever leads back to itself, linked or not: whatever the threads do, each path along `next` ends. -/
namespace Gecos
open Library
variable {β υ ρ σ : Type} [DecidableEq β]

section writer
variable {m m' m₁ : Mem β} {upd : υ → Writer β σ} {u : υ} {start : σ} {w' : Writer β σ}

/-- A shared access of list_writer.c, which redirects one link, leads to no cycle. -/
theorem Writers.step_ends (h : Writers m upd) (hs : (upd u).step start m = some (m', w')) (he : Ends m.next) :
    Ends m'.next := by
  have hf := h.facts u
  cases hw : upd u with
  | ready | wlock | freeNodeLater | initNewNode | handOver | wunlock | returned =>
    simp [hw, Writer.step] at hs
  | emptyTest | loadKey | loadNext | loadHead | advance | storeKey =>
    rw [hw] at hs
    cases hs
    exact he
  | loadKeyAgain op k b prev cur =>
    rw [hw] at hs
    cases op <;> cases hs <;> exact he
  | storeNext k b prev cur new =>
    have hnew := (h.fresh u new (by rw [hw]; rfl)).2 b
    rw [hw] at hs hf
    obtain ⟨⟨l₁, l₂, hp, rfl, _⟩, _⟩ := hf
    cases hs
    -- the new node leads to the rest of its bucket, where it is not linked yet
    have hc := h.table.ends b
    rw [hp.split] at hc hnew
    obtain ⟨q, _, h₂⟩ := seg_append.mp hc
    rw [Seg.head h₂] at h₂
    exact he.update h₂ fun hm => hnew (List.mem_append_right _ hm)
  | unlink k b prev cur nx =>
    rw [hw] at hs hf
    obtain ⟨⟨l₁, l₂, hp⟩, _, rfl⟩ := hf
    cases hs
    exact h.table.unlink_ends hp he
  | link k b prev p new =>
    have hnew := (h.fresh u new (by rw [hw]; rfl)).2
    rw [hw] at hs hf
    obtain ⟨⟨l₁, l₂, hp, rfl, _⟩, _, hx⟩ := hf
    cases hs
    obtain ⟨h₃, hd, _⟩ := h.table.link_chain hp hnew hx
    rw [hp.link]
    exact Mem.store_ends he h₃ hd

/-- What a step of a build does to the links: what an access of list_writer.c does, or nothing. -/
def Relinks (start : σ) (upd : υ → Writer β σ) (m m' : Mem β) : Prop :=
  m'.next = m.next ∨ ∃ u m₁ w, (upd u).step start m = some (m₁, w) ∧ m'.next = m₁.next

theorem Relinks.of_eq (h : m'.next = m.next) : Relinks start upd m m' := .inl h

theorem Relinks.of_step (h : (upd u).step start m = some (m', w')) : Relinks start upd m m' :=
  .inr ⟨u, m', w', h, rfl⟩

omit [DecidableEq β] in
theorem Writer.alloc_next {w w' : Writer β σ} {n : Addr} (h : w.alloc m n = some (m', w')) : m'.next = m.next := by
  unfold Writer.alloc at h
  split at h
  · split at h <;> cases h
    rfl
  · cases h

/-- A build whose links change in list_writer.c only has no cycles. -/
theorem ends_of_relinks {S L : Type} {R : S → L → S → Prop} {s₀ s : S} (mem : S → Mem β) (upd : S → υ → Writer β σ)
    (hw : ∀ s, Reachable R s₀ s → Writers (mem s) (upd s))
    (hstep : ∀ s a t, Reachable R s₀ s → R s a t → Relinks start (upd s) (mem s) (mem t)) (h0 : (mem s₀).next = (Mem.init β).next)
    (h : Reachable R s₀ s) : Ends (mem s).next := by
  obtain ⟨tr, h⟩ := h
  induction h with
  | nil =>
    rw [h0]
    exact fun n => ⟨[n], rfl, rfl⟩
  | @snoc tr s a t hrun hr ih =>
    rcases hstep s a t ⟨tr, hrun⟩ hr with he | ⟨u, m₁, w, hs, he⟩
    · rwa [he]
    · rw [he]
      exact (hw s ⟨tr, hrun⟩).step_ends hs ih

end writer

section builds
variable [DecidableEq υ] [DecidableEq ρ]

namespace ListGecos
variable {cfg : Locking υ} {v : Variant} {s t : State β υ ρ} {a : Act β υ ρ}

omit [DecidableEq υ] in
private theorem update_relinks {m m' : Mem β} {upd : υ → Writer β Bump} {u : υ} {w' : Writer β Bump}
    (hs : update cfg m (upd u) = some (m', w')) : Relinks .load upd m m' := by
  unfold update at hs
  split at hs
  case h_1 | h_2 =>
    split at hs
    · cases hs
      exact .of_eq rfl
    · first
        | split at hs <;> cases hs; exact .of_eq rfl
        | cases hs; exact .of_eq rfl
  case h_3 | h_4 | h_5 =>
    cases hs
    exact .of_eq rfl
  case h_6 => exact .of_step hs

theorem step_relinks (hs : step cfg v s a = some t) : Relinks .load s.shared.upd s.shared.mem t.shared.mem := by
  cases a with
  | begin u op k b =>
    obtain ⟨w, _, rfl⟩ := Option.map_eq_some_iff.mp hs
    exact .of_eq rfl
  | update u =>
    obtain ⟨mw, hm, rfl⟩ := Option.map_eq_some_iff.mp hs
    exact update_relinks hm
  | alloc u n =>
    obtain ⟨mw, hm, rfl⟩ := Option.map_eq_some_iff.mp hs
    exact .of_eq (Writer.alloc_next hm)
  | call r k b l =>
    simp only [ListGecos.step] at hs
    split at hs <;> cases hs <;> exact .of_eq rfl
  | read r =>
    obtain ⟨x, _, rfl⟩ := Option.map_eq_some_iff.mp hs
    exact .of_eq rfl

end ListGecos

namespace ListSgecos
variable {s t : State β ρ} {a : Act β ρ}

private theorem update_relinks {m m' : Mem β} {upd : Unit → Writer β Bump} {w' : Writer β Bump}
    (hs : update m (upd ()) = some (m', w')) : Relinks .load upd m m' := by
  unfold update at hs
  split at hs
  case h_1 | h_2 | h_3 | h_4 =>
    cases hs
    exact .of_eq rfl
  case h_5 => exact .of_step hs

theorem step_relinks (hs : step s a = some t) : Relinks .load s.shared.upd s.shared.mem t.shared.mem := by
  cases a with
  | begin op k b =>
    obtain ⟨w, _, rfl⟩ := Option.map_eq_some_iff.mp hs
    exact .of_eq rfl
  | update =>
    obtain ⟨mw, hm, rfl⟩ := Option.map_eq_some_iff.mp hs
    exact update_relinks hm
  | alloc n =>
    obtain ⟨mw, hm, rfl⟩ := Option.map_eq_some_iff.mp hs
    exact .of_eq (Writer.alloc_next hm)
  | call r k b l =>
    simp only [ListSgecos.step] at hs
    split at hs <;> cases hs <;> exact .of_eq rfl
  | read r =>
    obtain ⟨x, _, rfl⟩ := Option.map_eq_some_iff.mp hs
    exact .of_eq rfl

end ListSgecos

namespace ListRcu
variable [Fintype ρ] {s t : State β ρ} {a : Act β ρ}

theorem step_relinks (hs : step s a = some t) : Relinks () s.upd s.mem t.mem := by
  cases a with
  | begin op k b =>
    obtain ⟨w, _, rfl⟩ := Option.map_eq_some_iff.mp hs
    exact .of_eq rfl
  | update =>
    simp only [ListRcu.step, State.update] at hs
    split at hs
    case h_1 | h_2 | h_3 =>
      cases hs
      exact .of_eq rfl
    case h_4 =>
      obtain ⟨mw, hm, rfl⟩ := Option.map_eq_some_iff.mp hs
      exact .of_step hm
  | alloc n =>
    obtain ⟨mw, hm, rfl⟩ := Option.map_eq_some_iff.mp hs
    exact .of_eq (Writer.alloc_next hm)
  | callback n =>
    simp only [ListRcu.step, State.callback] at hs
    split at hs <;> cases hs
    exact .of_eq rfl
  | call r k b =>
    simp only [ListRcu.step] at hs
    split at hs <;> cases hs <;> exact .of_eq rfl
  | read r =>
    obtain ⟨x, _, rfl⟩ := Option.map_eq_some_iff.mp hs
    exact .of_eq rfl

end ListRcu

namespace ListRc
variable {s t : State β ρ} {a : Act β ρ}

omit [DecidableEq β] in
private theorem later_next {m m' : Mem β} {n : Addr} {x : Later} {x' : Option Later} (hs : x.step m n = some (m', x')) :
    m'.next = m.next := by
  cases x with
  | loadNext | inc =>
    cases hs
    rfl
  | dec d =>
    obtain ⟨⟨m₁, d'⟩, hd, he⟩ := Option.map_eq_some_iff.mp hs
    cases he
    exact (dec_mem hd).2.1

theorem step_relinks (hs : step s a = some t) : Relinks .loadNext s.upd s.mem t.mem := by
  cases a with
  | begin op k b =>
    obtain ⟨w, _, rfl⟩ := Option.map_eq_some_iff.mp hs
    exact .of_eq rfl
  | update =>
    simp only [ListRc.step, State.update] at hs
    split at hs
    case h_1 | h_2 | h_3 =>
      cases hs
      exact .of_eq rfl
    case h_4 =>
      obtain ⟨mr, hm, rfl⟩ := Option.map_eq_some_iff.mp hs
      exact .of_eq (later_next hm)
    case h_5 hw =>
      obtain ⟨mw, hm, rfl⟩ := Option.map_eq_some_iff.mp hs
      rw [← hw] at hm
      exact .of_step hm
    case h_6 =>
      obtain ⟨mw, hm, rfl⟩ := Option.map_eq_some_iff.mp hs
      exact .of_step hm
  | alloc n =>
    simp only [ListRc.step, State.alloc] at hs
    split at hs
    · split at hs <;> cases hs
      exact .of_eq rfl
    · cases hs
  | call r k b =>
    simp only [ListRc.step] at hs
    split at hs <;> cases hs <;> exact .of_eq rfl
  | read r =>
    obtain ⟨⟨m', x⟩, hx, rfl⟩ := Option.map_eq_some_iff.mp hs
    exact .of_eq (searcher_mem hx).2.1

end ListRc

namespace ListLock
variable {B : Build υ} {s t : State β υ ρ} {a : Act β υ ρ}

theorem Inv.step_relinks (hi : Inv B s) (hs : ListLock.step B s a = some t) :
    Relinks () (fun u => (s.upd u).writer) s.mem t.mem := by
  cases a with
  | begin u op k b =>
    obtain ⟨x, _, rfl⟩ := Option.map_eq_some_iff.mp hs
    exact .of_eq rfl
  | update u =>
    obtain ⟨⟨m', x'⟩, hm, rfl⟩ := Option.map_eq_some_iff.mp hs
    have hmoves := hi.moves hm
    generalize (s.upd u).takes B s.mem = i, (s.upd u).gives B = o at hmoves
    cases hmoves with
    | access w _ w' hx hw =>
      have hw' : (s.upd u).writer.step () s.mem = some (m', w') := by
        rw [hx]
        exact hw
      exact .of_step hw'
    | rest | enter | leave | freeInside | free => exact .of_eq rfl
  | alloc u n =>
    obtain ⟨mx, hm, rfl⟩ := Option.map_eq_some_iff.mp hs
    exact .of_eq (alloc_outside hm).2.2.1
  | call r k b =>
    simp only [ListLock.step] at hs
    split at hs <;> cases hs <;> exact .of_eq rfl
  | read r =>
    obtain ⟨x, _, rfl⟩ := Option.map_eq_some_iff.mp hs
    exact .of_eq rfl

theorem ends_reachable (h : Reachable (Steps (step B)) (.init β υ ρ) s) : Ends s.mem.next :=
  ends_of_relinks State.mem (fun s u => (s.upd u).writer) (fun _ hs => (inv_reachable hs).writers)
    (fun _ _ _ hs => (inv_reachable hs).step_relinks) rfl h

end ListLock

namespace ListPthread
variable {B : Build} {s t : State β υ ρ} {a : Act β υ ρ}

theorem step_relinks (hs : step B s a = some t) : Relinks () s.upd s.mem t.mem := by
  cases a with
  | begin u op k b =>
    obtain ⟨w, _, rfl⟩ := Option.map_eq_some_iff.mp hs
    exact .of_eq rfl
  | update u =>
    cases update_cases hs with
    | lock | free | unlock => exact .of_eq rfl
    | access m' w' hm => exact .of_step hm
  | alloc u n =>
    obtain ⟨mw, hm, rfl⟩ := Option.map_eq_some_iff.mp hs
    exact .of_eq (Writer.alloc_next hm)
  | call r k b =>
    simp only [ListPthread.step] at hs
    split at hs <;> cases hs <;> exact .of_eq rfl
  | read r =>
    cases read_cases hs with
    | _ => exact .of_eq rfl

end ListPthread

namespace ListHp
variable {cfg : Config} {s t : State β} {a : Act β}

theorem step_relinks (hs : step cfg s a = some t) : Relinks () s.upd s.mem t.mem := by
  cases a with
  | begin op k b =>
    obtain ⟨w, _, rfl⟩ := Option.map_eq_some_iff.mp hs
    exact .of_eq rfl
  | update =>
    simp only [ListHp.step] at hs
    split at hs
    · unfold State.update at hs
      split at hs
      case h_1 | h_2 | h_3 =>
        cases hs
        exact .of_eq rfl
      case h_4 =>
        obtain ⟨mw, hm, rfl⟩ := Option.map_eq_some_iff.mp hs
        exact .of_step hm
    · cases hs
  | alloc n =>
    obtain ⟨mw, hm, rfl⟩ := Option.map_eq_some_iff.mp hs
    exact .of_eq (Writer.alloc_next hm)
  | scan =>
    obtain ⟨smr, _, rfl⟩ := Option.map_eq_some_iff.mp hs
    exact .of_eq rfl
  | free junk =>
    obtain ⟨smr, _, rfl⟩ := Option.map_eq_some_iff.mp hs
    exact .of_eq rfl
  | call r k b l =>
    simp only [ListHp.step] at hs
    split at hs
    · split at hs <;> cases hs <;> exact .of_eq rfl
    · cases hs
  | read r =>
    obtain ⟨x, _, rfl⟩ := Option.map_eq_some_iff.mp hs
    exact .of_eq rfl

end ListHp

end builds

/-- In every build, variants and all, and in every state it reaches, the path along `next` from any node ends at
`NULL`: from a linked one, from one that an updater has in hand, waits to be freed or was freed long ago. -/
theorem links_end (β υ ρ : Type) [DecidableEq β] [DecidableEq υ] [DecidableEq ρ] [Fintype ρ] (cfg : Locking υ)
    (v : ListGecos.Variant) (lock : ListLock.Build υ) (pthread : ListPthread.Build) (hp : ListHp.Config) :
    (∀ s, Reachable (Steps (ListGecos.step cfg v)) (.init β υ ρ) s → Ends s.shared.mem.next) ∧
    (∀ s, Reachable (Steps ListSgecos.step) (.init β ρ) s → Ends s.shared.mem.next) ∧
    (∀ s, Reachable (Steps ListRcu.step) (.init β ρ) s → Ends s.mem.next) ∧
    (∀ s, Reachable (Steps ListRc.step) (.init β ρ) s → Ends s.mem.next) ∧
    (∀ s, Reachable (Steps (ListLock.step lock)) (.init β υ ρ) s → Ends s.mem.next) ∧
    (∀ s, Reachable (Steps (ListPthread.step pthread)) (.init β υ ρ) s → Ends s.mem.next) ∧
    ∀ s, Reachable (Steps (ListHp.step hp)) (.init β) s → Ends s.mem.next := by
  refine ⟨fun s h => ?_, fun s h => ?_, fun s h => ?_, fun s h => ?_, fun s h => ListLock.ends_reachable h, fun s h => ?_,
    fun s h => ?_⟩
  · refine ends_of_relinks (fun s => s.shared.mem) (fun s => s.shared.upd) (fun s hs => ?_)
      (fun _ _ _ _ => ListGecos.step_relinks) rfl h
    have hi : ListGecos.Inv cfg s.shared := ListGecos.inv_reachable (fun _ _ _ h => h) hs
    exact hi.writers
  · exact ends_of_relinks (fun s : ListSgecos.State β ρ => s.shared.mem) (fun s => s.shared.upd) (fun _ hs => (ListSgecos.inv_reachable hs).writers)
      (fun _ _ _ _ => ListSgecos.step_relinks) rfl h
  · exact ends_of_relinks ListRcu.State.mem ListRcu.State.upd (fun _ hs => (ListRcu.inv_reachable hs).writers)
      (fun _ _ _ _ => ListRcu.step_relinks) rfl h
  · refine ends_of_relinks ListRc.State.mem ListRc.State.upd (fun s hs => ?_) (fun _ _ _ _ => ListRc.step_relinks) rfl h
    obtain ⟨l, hi⟩ := ListRc.inv_reachable hs
    exact hi.writers
  · exact ends_of_relinks ListPthread.State.mem ListPthread.State.upd (fun _ hs => (ListPthread.inv_reachable hs).writers)
      (fun _ _ _ _ => ListPthread.step_relinks) rfl h
  · refine ends_of_relinks ListHp.State.mem ListHp.State.upd (fun s hs => ?_) (fun _ _ _ _ => ListHp.step_relinks) rfl h
    obtain ⟨hz, hi⟩ := ListHp.inv_reachable hs
    exact hi.writers

/-- `n` steps of the updater. -/
def updates (n : Nat) : List (ListLock.Act Unit Unit Unit) := List.replicate n (.update ())

/-- Two inserts, of which a delete undoes the second. -/
def insertTwo : List (ListLock.Act Unit Unit Unit) :=
  .begin () .insert 5 () :: (updates 4 ++ .alloc () 1 :: (updates 4 ++
    .begin () .insert 3 () :: (updates 6 ++ .alloc () 0 :: (updates 4 ++
      .begin () .delete 3 () :: updates 11))))

/-- A node that was freed and still leads into its bucket. -/
theorem links_end_freed : ∃ s : ListLock.State Unit Unit Unit,
    s.mem.avail 0 = true ∧ s.mem.next 0 = some 1 ∧ Ends s.mem.next := by
  have h : (exec (ListLock.step ⟨.gclock, false, false, nofun⟩) (.init Unit Unit Unit) insertTwo).any fun s =>
      decide (s.mem.avail 0 = true ∧ s.mem.next 0 = some 1) := by decide +kernel
  obtain ⟨s, hs, h⟩ := (Option.any_eq_true _ _).mp h
  obtain ⟨hav, hnx⟩ := of_decide_eq_true h
  obtain ⟨_, _, _, _, hlock, _⟩ := links_end Unit Unit Unit .solo .plain ⟨.gclock, false, false, nofun⟩ .lspin
    ⟨2, 0, by decide, by decide⟩
  exact ⟨s, hav, hnx, hlock s ⟨_, exec_run hs⟩⟩

end Gecos
