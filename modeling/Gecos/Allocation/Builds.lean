import Gecos.Allocation.Managed
import Gecos.Lock.BlockingObject
import Gecos.Lock.Object
import Gecos.Refcount.Object
import Gecos.Versioned.Object
import Gecos.Versioned.SgecosObject

/-! The builds with the allocators: the default one for a single updater, `ONE_WRITER`, and that of `SIMPLE_ALLOC`
for any number. -/
namespace Gecos
open Library
variable {β ρ υ A : Type} [DecidableEq β] [DecidableEq ρ] [DecidableEq υ]

omit [DecidableEq β] [DecidableEq υ] in
/-- What is available is neither linked nor in an updater's hand. -/
theorem Writers.idle_of_avail {π : Type} {m : Mem β} {upd : υ → Writer β π} {n : Addr} (h : Writers m upd)
    (hn : m.avail n = true) : (∀ b, n ∉ m.chain b) ∧ ∀ u, (upd u).inHand ≠ some n := by
  refine ⟨fun b hb => ?_, fun u hu => ?_⟩
  · rw [h.table.inUse b n hb] at hn
    cases hn
  · rw [(h.fresh u n hu).1] at hn
    cases hn

/-- The node that the next step of an updater passes to `free_node`, after the version is incremented. -/
def Writer.bumped : Writer β Bump → Option Addr
  | .freeNodeLater _ n .free => some n
  | _ => none

omit [DecidableEq β] in
theorem Writer.inHand_of_bumped {w : Writer β Bump} {n : Addr} (h : w.bumped = some n) : w.inHand = some n := by
  unfold bumped at h
  split at h
  · exact h
  · cases h

namespace Managed
variable {S L P π τ : Type} [DecidableEq P] {M : Allocator A τ} {C : Caller S L τ} {s₀ : S} {mem : S → Mem β}
  {upd : S → υ → Writer β π}

/-- With its allocator the table is one object, and no node is handed out while it is linked or in hand. -/
def Sound (M : Allocator A τ) (C : Caller S L τ) (s₀ : S) (I : Interface L S P (Request β) Nat) (mem : S → Mem β)
    (upd : S → υ → Writer β π) : Prop :=
  Linearizable (Steps (step M C)) (.init M s₀) (interface I) Request.apply (fun s => (mem s.prog).keys) ∧
    ∀ s, Reachable (Steps (step M C)) (.init M s₀) s → ∀ t fresh, s.obtained fresh = false →
      (∀ b, (M.newNode s.pool t fresh).2 ∉ (mem s.prog).chain b) ∧
        ∀ u, (upd s.prog u).inHand ≠ some (M.newNode s.pool t fresh).2

omit [DecidableEq β] [DecidableEq υ] in
theorem sound {I : Interface L S P (Request β) Nat} (hC : C.Lawful s₀) (hI : ∀ t n s, I.event (C.take t n) s = none)
    (h : Linearizable (Steps C.step) s₀ I Request.apply fun s => (mem s).keys)
    (hw : ∀ s, Reachable (Steps C.step) s₀ s → Writers (mem s) (upd s)) (hav : ∀ s, C.avail s = (mem s).avail) :
    Sound M C s₀ I mem upd := by
  obtain ⟨hlin, hidle⟩ := linearizable (M := M) hC hI h
  refine ⟨hlin, fun s hs t fresh hf => ?_⟩
  obtain ⟨tr, hr⟩ := hs
  obtain ⟨_, hrun, _⟩ := run_prog hC I hI hr
  have hn := hidle s ⟨tr, hr⟩ t fresh hf
  rw [hav] at hn
  exact (hw s.prog ⟨_, hrun⟩).idle_of_avail hn

/-- With `free_later`, the node that each thread unlinked last is given to no thread. -/
def Keeps [DecidableEq τ] (M : Allocator A τ) (C : Caller S L τ) (s₀ : S) : Prop :=
  ∀ s, Reachable (Steps (step M.freeLater C)) (.init M.freeLater s₀) s → ∀ t u fresh n, s.obtained fresh = false →
    s.pool.2 t = some n → (M.freeLater.newNode s.pool u fresh).2 ≠ n

omit [DecidableEq β] [DecidableEq υ] [DecidableEq P] in
theorem keeps [DecidableEq τ] (hC : C.Lawful s₀) : Keeps M C s₀ := by
  intro s hs t u fresh n hf hn
  obtain ⟨tr, hr⟩ := hs
  obtain ⟨_, _, _, F, hi⟩ := run_prog hC (⟨fun _ => none, fun _ _ => none⟩ : Interface L S Empty Empty Empty)
    (fun _ _ _ => rfl) hr
  exact M.kept hi.holds (hi.not_free hf) hn

end Managed

namespace ListGecos

variable (β ρ) in
def caller (cfg : Locking υ) (v : Variant) : Caller (State β υ ρ) (Act β υ ρ) υ where
  step := step cfg v
  avail s := s.shared.mem.avail
  take := .alloc
  takes
    | .alloc .. => true
    | _ => false
  give s u n := ((s.shared.upd u).give s.shared.mem n).map fun mw => { s with shared := s.shared.put u mw }
  frees s
    | .update u => (s.shared.upd u).bumped.map (u, ·)
    | _ => none

omit [DecidableEq ρ] [DecidableEq υ] in
theorem update_avail {cfg : Locking υ} {m : Mem β} {w : Writer β Bump} {mw : Mem β × Writer β Bump}
    (h : update cfg m w = some mw) :
    mw.1.avail = w.bumped.elim m.avail fun n => Function.update m.avail n true := by
  unfold update at h
  split at h
  case h_1 | h_2 =>
    split at h
    · cases h
      rfl
    · first
      | cases h
        rfl
      | split at h <;> cases h
        rfl
  case h_3 | h_4 | h_5 =>
    cases h
    rfl
  case h_6 hno =>
    have hnone : w.bumped = none := by
      unfold Writer.bumped
      split
      · exact (hno _ _ rfl).elim
      · rfl
    rw [hnone]
    exact Writer.step_avail h

variable {cfg : Locking υ} {v : Variant}

theorem caller_lawful : (caller β ρ cfg v).Lawful (.init β υ ρ) where
  init _ := rfl
  give_take s u n s' h hs := by
    simp only [caller, step] at hs ⊢
    rwa [← Writer.give_eq_alloc h]
  given s u n t h := by
    obtain ⟨mw, hw, rfl⟩ := Option.map_eq_some_iff.mp h
    exact Writer.give_avail hw
  stepped s a t _ h htakes := by
    cases a with
    | alloc => cases htakes
    | begin | read =>
      obtain ⟨_, _, rfl⟩ := Option.map_eq_some_iff.mp h
      rfl
    | update u =>
      obtain ⟨mw, hw, rfl⟩ := Option.map_eq_some_iff.mp h
      simp only [caller, Option.elim_map]
      exact update_avail hw
    | call r k b l =>
      simp only [caller, step] at h
      split at h <;> cases h <;> rfl
  inUse s a e hr hf := by
    have hi : Inv cfg s.shared := inv_reachable (fun _ _ _ h => h) hr
    cases a with
    | update u =>
      obtain ⟨n, hn, rfl⟩ := Option.map_eq_some_iff.mp hf
      exact (hi.writers.fresh u n (Writer.inHand_of_bumped hn)).1
    | begin | alloc | call | read => cases hf

private theorem managed_of (M : Allocator A υ) (cfg : Locking υ) (hv : v ≠ .back) :
    Managed.Sound M (caller β ρ cfg v) (.init β υ ρ) (client β υ ρ).interface (fun s => s.shared.mem)
      fun s => s.shared.upd := by
  refine Managed.sound caller_lawful (fun _ _ _ => rfl) (table_points cfg hv).linearizable (fun s hs => ?_) fun _ => rfl
  have hi : Inv cfg s.shared := inv_reachable (fun _ _ _ h => h) hs
  exact hi.writers

/-- list_gecos.c, list_writer.c and allocator_malloc.c together: the default search and that with relink. -/
theorem gecos_managed (cfg : Locking υ) (solo : Locking Unit) (v : Variant) (hv : v = .plain ∨ v = .relink) :
    Managed.Sound (SimplePool.allocator υ) (caller β ρ cfg v) (.init β υ ρ) (client β υ ρ).interface
      (fun s => s.shared.mem) (fun s => s.shared.upd) ∧
    Managed.Sound Pool.allocator (caller β ρ solo v) (.init β Unit ρ) (client β Unit ρ).interface
      (fun s => s.shared.mem) fun s => s.shared.upd := by
  have hb : v ≠ .back := by rcases hv with rfl | rfl <;> decide
  exact ⟨managed_of _ cfg hb, managed_of _ solo hb⟩

theorem gecos_managed_relink : Managed.Sound Pool.allocator (caller Unit Unit .solo .relink)
    (.init Unit Unit Unit) (client Unit Unit Unit).interface (fun s => s.shared.mem) fun s => s.shared.upd :=
  (gecos_managed .solo .solo .relink (.inr rfl)).2

end ListGecos

namespace ListSgecos

variable (β ρ) in
def caller : Caller (State β ρ) (Act β ρ) Unit where
  step := step
  avail s := s.shared.mem.avail
  take _ := .alloc
  takes
    | .alloc _ => true
    | _ => false
  give s _ n := ((s.shared.upd ()).give s.shared.mem n).map fun mw => { s with shared := s.shared.put () mw }
  frees s
    | .update => (s.shared.upd ()).bumped.map ((), ·)
    | _ => none

omit [DecidableEq ρ] in
theorem update_avail {m : Mem β} {w : Writer β Bump} {mw : Mem β × Writer β Bump} (h : update m w = some mw) :
    mw.1.avail = w.bumped.elim m.avail fun n => Function.update m.avail n true := by
  unfold update at h
  split at h
  case h_1 | h_2 | h_3 | h_4 =>
    cases h
    rfl
  case h_5 hno =>
    have hnone : w.bumped = none := by
      unfold Writer.bumped
      split
      · exact (hno _ _ rfl).elim
      · rfl
    rw [hnone]
    exact Writer.step_avail h

theorem caller_lawful : (caller β ρ).Lawful (.init β ρ) where
  init _ := rfl
  give_take s _ n s' h hs := by
    simp only [caller, step] at hs ⊢
    rwa [← Writer.give_eq_alloc h]
  given s _ n t h := by
    obtain ⟨mw, hw, rfl⟩ := Option.map_eq_some_iff.mp h
    exact Writer.give_avail hw
  stepped s a t _ h htakes := by
    cases a with
    | alloc => cases htakes
    | begin | read =>
      obtain ⟨_, _, rfl⟩ := Option.map_eq_some_iff.mp h
      rfl
    | update =>
      obtain ⟨mw, hw, rfl⟩ := Option.map_eq_some_iff.mp h
      simp only [caller, Option.elim_map]
      exact update_avail hw
    | call r k b l =>
      simp only [caller, step] at h
      split at h <;> cases h <;> rfl
  inUse s a e hr hf := by
    cases a with
    | update =>
      obtain ⟨n, hn, rfl⟩ := Option.map_eq_some_iff.mp hf
      exact ((inv_reachable hr).writers.fresh () n (Writer.inHand_of_bumped hn)).1
    | begin | alloc | call | read => cases hf

/-- list_sgecos.c and allocator_malloc.c together. -/
theorem sgecos_managed :
    Managed.Sound Pool.allocator (caller β ρ) (.init β ρ) (client β ρ).interface (fun s => s.shared.mem)
      fun s => s.shared.upd :=
  Managed.sound caller_lawful (fun _ _ _ => rfl) table_points.linearizable (fun _ hs => (inv_reachable hs).writers) fun _ => rfl

end ListSgecos

namespace ListLock

/-- The node that the next step of an updater passes to `free_node`: before the unlock with SEQLOCK, after it
with GCLOCK. -/
def Updater.freeing (B : Build υ) : Updater β → Option Addr
  | .list (.freeNodeLater _ n ()) => if B.macros = .seqlock then some n else none
  | .free n => some n
  | _ => none

variable (β ρ) in
def caller (B : Build υ) : Caller (State β υ ρ) (Act β υ ρ) υ where
  step := step B
  avail s := s.mem.avail
  take := .alloc
  takes
    | .alloc .. => true
    | _ => false
  give s u n := match s.upd u with
    | .list w => (w.give s.mem n).map fun mw => { s with mem := mw.1, upd := Function.update s.upd u (.list mw.2) }
    | _ => none
  frees s
    | .update u => ((s.upd u).freeing B).map (u, ·)
    | _ => none

variable {B : Build υ}

omit [DecidableEq ρ] [DecidableEq υ] in
theorem unlock_avail (m : Mem β) (b : β) (e : Exit) : (Updater.unlock B m b e).1.avail = m.avail := by
  unfold Updater.unlock
  split <;> rfl

omit [DecidableEq ρ] [DecidableEq υ] in
theorem step_avail {m : Mem β} {x : Updater β} {mx : Mem β × Updater β} (h : x.step B m = some mx) :
    mx.1.avail = (x.freeing B).elim m.avail fun n => Function.update m.avail n true := by
  cases x with
  | aborted => cases h
  | free n | release b e old | check op k b =>
    cases h
    rfl
  | take op k b old =>
    simp only [Updater.step, Option.some.injEq] at h
    subst h
    split
    · rfl
    · split <;> rfl
  | list w =>
    cases w with
    | wlock op k b =>
      cases h
      rfl
    | wunlock b res =>
      cases h
      exact unlock_avail ..
    | freeNodeLater b n r =>
      simp only [Updater.step, Option.some.injEq] at h
      subst h
      cases hB : B.macros with
      | seqlock => simp [Updater.freeing, hB]
      | gclock => simp [Updater.freeing, hB, unlock_avail]
    | ready | initNewNode | handOver | returned => cases h
    | _ =>
      simp only [Updater.step] at h
      obtain ⟨mw, hw, rfl⟩ := Option.map_eq_some_iff.mp h
      exact Writer.step_avail hw

theorem caller_lawful : (caller β ρ B).Lawful (.init β υ ρ) where
  init _ := rfl
  give_take s u n s' h hs := by
    simp only [caller, step] at hs ⊢
    cases hu : s.upd u with
    | list w =>
      rw [hu] at hs
      simp only [Updater.alloc]
      rw [← Writer.give_eq_alloc h, Option.map_map]
      exact hs
    | _ =>
      rw [hu] at hs
      cases hs
  given s u n t h := by
    simp only [caller] at h
    split at h
    · obtain ⟨mw, hw, rfl⟩ := Option.map_eq_some_iff.mp h
      exact Writer.give_avail hw
    · cases h
  stepped s a t _ h htakes := by
    cases a with
    | alloc => cases htakes
    | begin | read =>
      obtain ⟨_, _, rfl⟩ := Option.map_eq_some_iff.mp h
      rfl
    | update u =>
      obtain ⟨mx, hx, rfl⟩ := Option.map_eq_some_iff.mp h
      simp only [caller, Option.elim_map]
      exact step_avail hx
    | call r k b =>
      simp only [caller, step] at h
      split at h <;> cases h <;> rfl
  inUse s a e hr hf := by
    have hi := inv_reachable hr
    cases a with
    | update u =>
      obtain ⟨n, hn, rfl⟩ := Option.map_eq_some_iff.mp hf
      unfold Updater.freeing at hn
      split at hn
      · rename_i hu
        split at hn <;> cases hn
        exact (hi.writers.fresh u n (by rw [hu]; rfl)).1
      · rename_i hu
        cases hn
        exact (hi.retired u n (by rw [hu]; rfl)).1
      · cases hn
    | begin | alloc | call | read => cases hf

private theorem managed_of (M : Allocator A υ) (B : Build υ) :
    Managed.Sound M (caller β ρ B) (.init β υ ρ) (client β υ ρ).interface (fun s => s.mem) fun s u => (s.upd u).writer :=
  Managed.sound caller_lawful (fun _ _ _ => rfl) (table_points B).linearizable (fun _ hs => (inv_reachable hs).writers)
    fun _ => rfl

/-- list_lock.c with SEQLOCK or GCLOCK, list_writer.c and allocator_malloc.c together. -/
theorem lock_managed (B : Build υ) (solo : Build Unit) :
    Managed.Sound (SimplePool.allocator υ) (caller β ρ B) (.init β υ ρ) (client β υ ρ).interface (fun s => s.mem)
      (fun s u => (s.upd u).writer) ∧
    Managed.Sound Pool.allocator (caller β ρ solo) (.init β Unit ρ) (client β Unit ρ).interface (fun s => s.mem)
      fun s u => (s.upd u).writer :=
  ⟨managed_of _ B, managed_of _ solo⟩

/-- The same with the `free_node_later` of GCLOCK_NONEED. -/
theorem noneed_managed (B : Build υ) (solo : Build Unit) :
    Managed.Sound (SimplePool.allocator υ).freeLater (caller β ρ B) (.init β υ ρ) (client β υ ρ).interface (fun s => s.mem)
      (fun s u => (s.upd u).writer) ∧
    Managed.Sound Pool.allocator.freeLater (caller β ρ solo) (.init β Unit ρ) (client β Unit ρ).interface (fun s => s.mem)
      (fun s u => (s.upd u).writer) ∧
    Managed.Keeps (SimplePool.allocator υ) (caller β ρ B) (.init β υ ρ) ∧
    Managed.Keeps Pool.allocator (caller β ρ solo) (.init β Unit ρ) :=
  ⟨managed_of _ B, managed_of _ solo, Managed.keeps caller_lawful, Managed.keeps caller_lawful⟩

end ListLock

namespace ListRc

variable (β ρ) in
/-- The threads that free are the updater, `none`, and the readers. -/
def caller : Caller (State β ρ) (Act β ρ) (Option ρ) where
  step := ListRc.step
  avail s := s.mem.avail
  take _ := .alloc
  takes
    | .alloc _ => true
    | _ => false
  give s t n := match t, s.upd () with
    | none, .initNewNode k b prev cur =>
      some (s.put ({ s.mem with avail := Function.update s.mem.avail n false }, .handOver k b prev cur n))
    | _, _ => none
  frees s
    | .update => (freeing (s.dec none)).map (none, ·)
    | .read r => (freeing (s.dec (some r))).map (some r, ·)
    | _ => none

theorem avail_of_iff {f g : Addr → Bool} {o : Option Addr} (h : ∀ p, g p = true ↔ o = some p ∨ f p = true) :
    g = o.elim f fun n => Function.update f n true := by
  funext p
  rw [Bool.eq_iff_iff, h]
  cases o with
  | none => simp
  | some n =>
    by_cases hp : p = n
    · simp [hp]
    · simp [Function.update_of_ne hp, Ne.symm hp]

variable [Fintype ρ]

theorem caller_lawful : (caller β ρ).Lawful (.init β ρ) where
  init _ := rfl
  give_take s t n s' h hs := by
    simp only [caller] at hs h
    split at hs
    · rename_i hu
      simpa [caller, ListRc.step, State.alloc, hu, h] using hs
    · cases hs
  given s t n s' hs := by
    simp only [caller] at hs
    split at hs
    · cases hs
      rfl
    · cases hs
  stepped s a s' hr hs htakes := by
    obtain ⟨l, hi⟩ := inv_reachable hr
    cases a with
    | alloc => cases htakes
    | begin =>
      obtain ⟨_, _, rfl⟩ := Option.map_eq_some_iff.mp hs
      rfl
    | update =>
      simp only [caller, Option.elim_map]
      exact avail_of_iff fun p => hi.update_avail hs
    | call r k b =>
      simp only [caller, ListRc.step] at hs
      split at hs <;> cases hs <;> rfl
    | read r =>
      obtain ⟨⟨m', x'⟩, hx, rfl⟩ := Option.map_eq_some_iff.mp hs
      simp only [caller, Option.elim_map]
      exact avail_of_iff fun p => searcher_avail hx
  inUse s a e hr hf := by
    obtain ⟨l, hi⟩ := inv_reachable hr
    cases a with
    | update =>
      obtain ⟨n, hn, rfl⟩ := Option.map_eq_some_iff.mp hf
      exact (hi.unused hn).inUse
    | read r =>
      obtain ⟨n, hn, rfl⟩ := Option.map_eq_some_iff.mp hf
      exact (hi.unused hn).inUse
    | begin | alloc | call => cases hf

/-- rc.c, list_rc.c, list_writer.c and allocator_malloc.c together: every thread frees what it drops last. -/
theorem rc_managed : Managed.Sound (SimplePool.allocator (Option ρ)) (caller β ρ) (.init β ρ) (client β ρ).interface
    (fun s => s.mem) fun s => s.upd := by
  refine Managed.sound caller_lawful (fun _ _ _ => rfl) (table_points β ρ).linearizable (fun s hs => ?_) fun _ => rfl
  obtain ⟨l, hi⟩ := inv_reachable hs
  exact hi.writers

end ListRc

namespace ListPthread

/-- The node that the next step of an updater passes to `free_node`, the lock still held. -/
def freeing : Writer β Unit → Option Addr
  | .freeNodeLater _ n () => some n
  | _ => none

variable (β ρ υ) in
def caller (B : Build) : Caller (State β υ ρ) (Act β υ ρ) υ where
  step := step B
  avail s := s.mem.avail
  take := .alloc
  takes
    | .alloc .. => true
    | _ => false
  give s u n := ((s.upd u).give s.mem n).map fun mw => { s with mem := mw.1, upd := Function.update s.upd u mw.2 }
  frees s
    | .update u => (freeing (s.upd u)).map (u, ·)
    | _ => none

variable {B : Build} [Fintype ρ]

theorem caller_lawful : (caller β ρ υ B).Lawful (.init β υ ρ) where
  init _ := rfl
  give_take s u n s' h hs := by
    simp only [caller, step] at hs ⊢
    rwa [← Writer.give_eq_alloc h]
  given s u n t h := by
    obtain ⟨mw, hw, rfl⟩ := Option.map_eq_some_iff.mp h
    exact Writer.give_avail hw
  stepped s a t _ h htakes := by
    cases a with
    | alloc => cases htakes
    | begin =>
      obtain ⟨_, _, rfl⟩ := Option.map_eq_some_iff.mp h
      rfl
    | update u =>
      simp only [caller, Option.elim_map]
      change t.mem.avail = (freeing (s.upd u)).elim s.mem.avail fun n => Function.update s.mem.avail n true
      cases update_cases h with
      | access m' w' hw =>
        have hnone : freeing (s.upd u) = none := by
          cases hu : s.upd u with
          | freeNodeLater =>
            rw [hu] at hw
            cases hw
          | _ => rfl
        rw [hnone]
        exact Writer.step_avail hw
      | lock op k b l hu | free b n hu | unlock b res hu =>
        rw [hu]
        rfl
    | call r k b =>
      have hs : step B s (.call r k b) = some t := h
      obtain ⟨_, rfl⟩ := call_cases hs
      rfl
    | read r =>
      obtain ⟨hm, _⟩ := (read_cases h).running
      exact congrArg Mem.avail hm
  inUse s a e hr hf := by
    cases a with
    | update u =>
      obtain ⟨n, hn, rfl⟩ := Option.map_eq_some_iff.mp hf
      unfold freeing at hn
      split at hn
      · rename_i hu
        cases hn
        exact ((inv_reachable hr).writers.fresh u n (by rw [hu]; rfl)).1
      · cases hn
    | begin | alloc | call | read => cases hf

private theorem managed_of (M : Allocator A υ) (B : Build) :
    Managed.Sound M (caller β ρ υ B) (.init β υ ρ) (client β υ ρ).interface (fun s => s.mem) fun s => s.upd :=
  Managed.sound caller_lawful (fun _ _ _ => rfl) (table_points B).linearizable (fun _ hs => (inv_reachable hs).writers)
    fun _ => rfl

/-- list_lock.c with spin locks or reader-writer locks, list_writer.c and allocator_malloc.c together. -/
theorem pthread_managed (B : Build) :
    Managed.Sound (SimplePool.allocator υ) (caller β ρ υ B) (.init β υ ρ) (client β υ ρ).interface (fun s => s.mem)
      (fun s => s.upd) ∧
    Managed.Sound Pool.allocator (caller β ρ Unit B) (.init β Unit ρ) (client β Unit ρ).interface (fun s => s.mem)
      fun s => s.upd :=
  ⟨managed_of _ B, managed_of _ B⟩

end ListPthread
end Gecos
