import Gecos.Allocation.Allocator
import Gecos.Allocation.Simple
import Gecos.Library.Linearizability
import Gecos.Table.Writer

/-! A build together with an allocator of allocator_malloc.c, where no two threads share free lists: the default
one with a single caller, and `SIMPLE_ALLOC`, in which every thread has a list of its own. -/
namespace Gecos
open Library

namespace Writer
variable {β ρ : Type} {m : Mem β} {w : Writer β ρ} {mw : Mem β × Writer β ρ} {n : Addr} {start : ρ}

/-- `init_new_node` returns `n`, whether or not `n` is available. -/
def give (m : Mem β) (w : Writer β ρ) (n : Addr) : Option (Mem β × Writer β ρ) :=
  match w with
  | .initNewNode k b prev cur => some ({ m with avail := Function.update m.avail n false }, .storeKey k b prev cur n)
  | _ => none

theorem give_eq_alloc (h : m.avail n = true) : w.give m n = w.alloc m n := by
  cases w with
  | initNewNode => simp [give, alloc, h]
  | _ => rfl

theorem give_avail (h : w.give m n = some mw) : mw.1.avail = Function.update m.avail n false := by
  unfold give at h
  split at h <;> cases h
  rfl

theorem step_avail [DecidableEq β] (h : w.step start m = some mw) : mw.1.avail = m.avail := by
  cases w with
  | ready | wlock | freeNodeLater | initNewNode | handOver | wunlock | returned => cases h
  | loadKeyAgain op k b prev cur => cases op <;> cases h <;> rfl
  | unlink | link =>
    cases h
    exact Mem.store_avail ..
  | _ =>
    cases h
    rfl

end Writer

/-- An allocator for the threads `τ`. `Holds a F` says that its free lists are sound and have the nodes `F`; it hands
out one of these or what `calloc` returns, and takes up nothing but what is freed. -/
structure Allocator (A τ : Type) where
  init : A
  newNode : A → τ → Addr → A × Addr
  freeNode : A → τ → Addr → A
  Holds : A → (Addr → Prop) → Prop
  holds_init : Holds init fun _ => False
  holds_newNode : ∀ a t fresh F, Holds a F → ¬ F fresh → ∃ F', Holds (newNode a t fresh).1 F' ∧
    (∀ n, F' n → F n ∧ n ≠ (newNode a t fresh).2) ∧ (F (newNode a t fresh).2 ∨ (newNode a t fresh).2 = fresh)
  holds_freeNode : ∀ a t p F, Holds a F → ¬ F p → ∃ F', Holds (freeNode a t p) F' ∧ ∀ n, F' n → F n ∨ n = p

/-- The default allocator with one caller. -/
def Pool.allocator : Allocator Pool Unit where
  init := .init
  newNode a _ := a.newNode
  freeNode a _ := a.freeNode
  Holds a F := ∃ l g, a.Lists l g ∧ ∀ n, F n ↔ n ∈ l ∨ n ∈ g
  holds_init := ⟨[], [], .init, by simp⟩
  holds_newNode a _ fresh F h _ := by
    obtain ⟨l, g, hl, hF⟩ := h
    obtain ⟨l', g', hl', hsub, hn₁, hn₂, hn, _⟩ := hl.newNode fresh
    refine ⟨_, ⟨l', g', hl', fun n => Iff.rfl⟩, fun n hn' => ⟨(hF n).mpr (hsub n hn'), ?_⟩, ?_⟩
    · rintro rfl
      exact hn'.elim hn₁ hn₂
    · rcases hn with hn | hn | ⟨_, hn⟩
      · exact .inl ((hF _).mpr (.inl hn))
      · exact .inl ((hF _).mpr (.inr hn))
      · exact .inr hn
  holds_freeNode a _ p F h hp := by
    obtain ⟨l, g, hl, hF⟩ := h
    obtain ⟨l', g', hl', hsub⟩ := hl.freeNode (p := p) (fun hm => hp ((hF p).mpr (.inl hm))) fun hm => hp ((hF p).mpr (.inr hm))
    exact ⟨_, ⟨l', g', hl', fun n => Iff.rfl⟩, fun n hn => (hsub n hn).symm.imp_left fun hn => (hF n).mpr hn⟩

/-- That of `SIMPLE_ALLOC`, with any number of callers. -/
def SimplePool.allocator (τ : Type) [DecidableEq τ] : Allocator (SimplePool τ) τ where
  init := .init τ
  newNode := SimplePool.newNode
  freeNode := SimplePool.freeNode
  Holds a F := ∃ own, a.Lists own ∧ ∀ n, F n ↔ ∃ t, n ∈ own t
  holds_init := ⟨_, .init, by simp⟩
  holds_newNode a t fresh F h hf := by
    obtain ⟨own, hl, hF⟩ := h
    have hno (u : τ) : fresh ∉ own u := fun hu => hf ((hF fresh).mpr ⟨u, hu⟩)
    obtain ⟨own', hl', hcase⟩ := hl.newNode t hno
    refine ⟨_, ⟨own', hl', fun n => Iff.rfl⟩, fun n hn => ?_, ?_⟩
    · obtain ⟨u, hu⟩ := hn
      rcases hcase with ⟨_, hn, rfl⟩ | ⟨l, hl₁, rfl⟩
      · refine ⟨(hF n).mpr ⟨u, hu⟩, ?_⟩
        rintro rfl
        rw [hn] at hu
        exact hno u hu
      · refine ⟨(hF n).mpr ⟨u, SimplePool.mem_pop hl₁ hu⟩, ?_⟩
        rintro rfl
        exact hl.pop_notMem hl₁ hu
    · rcases hcase with ⟨_, hn, _⟩ | ⟨l, hl₁, _⟩
      · exact .inr hn
      · exact .inl ((hF _).mpr ⟨t, by simp [hl₁]⟩)
  holds_freeNode a t p F h hp := by
    obtain ⟨own, hl, hF⟩ := h
    refine ⟨_, ⟨_, hl.push fun u hu => hp ((hF p).mpr ⟨u, hu⟩), fun n => Iff.rfl⟩, fun n hn => ?_⟩
    obtain ⟨u, hu⟩ := hn
    rcases SimplePool.mem_push.mp hu with ⟨_, hu⟩ | hu
    · exact .inr hu
    · exact .inl ((hF n).mpr ⟨u, hu⟩)

/-- The `free_node_later` of `GCLOCK_NONEED` before an allocator: a thread keeps the node that it unlinked last in its
`free_later`, and passes it to `free_node` when it has unlinked another. -/
def Allocator.freeLater {A τ : Type} [DecidableEq τ] (M : Allocator A τ) : Allocator (A × (τ → Option Addr)) τ where
  init := (M.init, fun _ => none)
  newNode a t fresh := (((M.newNode a.1 t fresh).1, a.2), (M.newNode a.1 t fresh).2)
  freeNode a t n := ((a.2 t).elim a.1 (M.freeNode a.1 t), Function.update a.2 t (some n))
  Holds a F := ∃ F', M.Holds a.1 F' ∧ (∀ t n, a.2 t = some n → ¬ F' n) ∧
    (∀ t u n, a.2 t = some n → a.2 u = some n → t = u) ∧ ∀ n, F n ↔ F' n ∨ ∃ t, a.2 t = some n
  holds_init := ⟨_, M.holds_init, by simp, by simp, by simp⟩
  holds_newNode a t fresh F h hf := by
    obtain ⟨F', hl, hoff, hinj, hF⟩ := h
    obtain ⟨F'', hl', hsub, hn⟩ := M.holds_newNode a.1 t fresh F' hl fun hm => hf ((hF fresh).mpr (.inl hm))
    refine ⟨_, ⟨F'', hl', fun u n hu hm => hoff u n hu (hsub n hm).1, hinj, fun n => Iff.rfl⟩, fun n hn' => ?_, ?_⟩
    · rcases hn' with hm | ⟨u, hu⟩
      · exact ⟨(hF n).mpr (.inl (hsub n hm).1), (hsub n hm).2⟩
      · refine ⟨(hF n).mpr (.inr ⟨u, hu⟩), ?_⟩
        rintro rfl
        rcases hn with hm | he
        · exact hoff u _ hu hm
        · exact hf ((hF fresh).mpr (.inr ⟨u, hu.trans (congrArg some he)⟩))
    · exact hn.imp_left fun hm => (hF _).mpr (.inl hm)
  holds_freeNode a t p F h hp := by
    obtain ⟨F', hl, hoff, hinj, hF⟩ := h
    have hp' : ¬ F' p := fun hm => hp ((hF p).mpr (.inl hm))
    have hne (u : τ) : a.2 u ≠ some p := fun hu => hp ((hF p).mpr (.inr ⟨u, hu⟩))
    obtain ⟨F'', hl', hsub⟩ : ∃ F'', M.Holds ((a.2 t).elim a.1 (M.freeNode a.1 t)) F'' ∧ ∀ n, F'' n → F' n ∨ a.2 t = some n := by
      cases hq : a.2 t with
      | none => exact ⟨F', hl, fun n hm => .inl hm⟩
      | some q =>
        obtain ⟨F'', hl', hsub⟩ := M.holds_freeNode a.1 t q F' hl (hoff t q hq)
        exact ⟨F'', hl', fun n hm => (hsub n hm).imp_right fun he => by rw [he]⟩
    have hlater (u : τ) (n : Addr) (hu : Function.update a.2 t (some p) u = some n) : u = t ∧ n = p ∨ u ≠ t ∧ a.2 u = some n := by
      by_cases he : u = t
      · rw [he, Function.update_self] at hu
        cases hu
        exact .inl ⟨he, rfl⟩
      · exact .inr ⟨he, by rwa [Function.update_of_ne he] at hu⟩
    refine ⟨_, ⟨F'', hl', fun u n hu hm => ?_, fun u v n hu hv => ?_, fun n => Iff.rfl⟩, fun n hn => ?_⟩
    · rcases hlater u n hu with ⟨_, rfl⟩ | ⟨he, hu⟩
      · exact (hsub n hm).elim hp' (hne t)
      · exact (hsub n hm).elim (hoff u n hu) fun ht => he (hinj u t n hu ht)
    · rcases hlater u n hu with ⟨hut, hnp⟩ | ⟨_, hu'⟩ <;> rcases hlater v n hv with ⟨hvt, hnp'⟩ | ⟨_, hv'⟩
      · rw [hut, hvt]
      · exact (hne v (hnp ▸ hv')).elim
      · exact (hne u (hnp' ▸ hu')).elim
      · exact hinj u v n hu' hv'
    · rcases hn with hm | ⟨u, hu⟩
      · exact .inl ((hF n).mpr ((hsub n hm).imp_right fun ht => ⟨t, ht⟩))
      · rcases hlater u n hu with ⟨_, rfl⟩ | ⟨_, hu⟩
        · exact .inr rfl
        · exact .inl ((hF n).mpr (.inr ⟨u, hu⟩))

/-- What a thread keeps in its `free_later` is given to nobody. -/
theorem Allocator.kept {A τ : Type} [DecidableEq τ] {M : Allocator A τ} {a : A × (τ → Option Addr)} {F : Addr → Prop}
    {t u : τ} {n fresh : Addr} (h : M.freeLater.Holds a F) (hf : ¬ F fresh) (hn : a.2 t = some n) :
    (M.freeLater.newNode a u fresh).2 ≠ n := by
  obtain ⟨F', hl, hoff, _, hF⟩ := h
  obtain ⟨_, _, _, hnew⟩ := M.holds_newNode a.1 u fresh F' hl fun hm => hf ((hF fresh).mpr (.inl hm))
  intro he
  have hr : (M.newNode a.1 u fresh).2 = n := he
  rw [hr] at hnew
  rcases hnew with hm | rfl
  · exact hoff t n hn hm
  · exact hf ((hF n).mpr (.inr ⟨t, hn⟩))

/-- A build as the allocator sees it: the label by which thread `t` obtains a node, whether a label is such, what
becomes of the thread whose `new_node` returns `n`, and who passes which node to `free_node` in a step. -/
structure Caller (S L τ : Type) where
  step : S → L → Option S
  avail : S → Addr → Bool
  take : τ → Addr → L
  takes : L → Bool
  give : S → τ → Addr → Option S
  frees : S → L → Option (τ × Addr)

/-- What a build owes the allocator: it frees no node that is not in use. -/
structure Caller.Lawful {S L τ : Type} (C : Caller S L τ) (s₀ : S) : Prop where
  init : ∀ n, C.avail s₀ n = true
  give_take : ∀ s t n s', C.avail s n = true → C.give s t n = some s' → C.step s (C.take t n) = some s'
  given : ∀ s t n s', C.give s t n = some s' → C.avail s' = Function.update (C.avail s) n false
  stepped : ∀ s a s', Reachable (Steps C.step) s₀ s → C.step s a = some s' → C.takes a = false →
    C.avail s' = (C.frees s a).elim (C.avail s) fun e => Function.update (C.avail s) e.2 true
  inUse : ∀ s a e, Reachable (Steps C.step) s₀ s → C.frees s a = some e → C.avail s e.2 = false

namespace Managed

/-- Ghost: the nodes that `calloc` returned. -/
structure State (S A : Type) where
  prog : S
  pool : A
  obtained : Addr → Bool

/-- A step of the program, or a call of `new_node` by `t` for which `calloc` would return `fresh`. -/
inductive Act (L τ : Type) where
  | prog (a : L)
  | newNode (t : τ) (fresh : Addr)

variable {S L A τ : Type} (M : Allocator A τ) (C : Caller S L τ)

def State.init (s₀ : S) : State S A := ⟨s₀, M.init, fun _ => false⟩

def step (s : State S A) : Act L τ → Option (State S A)
  | .prog a => if C.takes a then none else (C.step s.prog a).map fun p =>
    { s with prog := p, pool := (C.frees s.prog a).elim s.pool fun e => M.freeNode s.pool e.1 e.2 }
  | .newNode t fresh => if s.obtained fresh then none else
    let (pool, n) := M.newNode s.pool t fresh
    (C.give s.prog t n).map fun p => ⟨p, pool, Function.update s.obtained n true⟩

/-- The step of the program that a step is. -/
def Act.label (s : State S A) : Act L τ → L
  | .prog a => a
  | .newNode t fresh => C.take t (M.newNode s.pool t fresh).2

/-- What the clients of the program see. -/
def interface {P O V : Type} (I : Interface L S P O V) : Interface (Act L τ) (State S A) P O V where
  call
    | .prog a => I.call a
    | .newNode .. => none
  ret a s := match a with
    | .prog a => I.ret a s.prog
    | .newNode .. => none

/-- The nodes of the free lists are available, and so is what `calloc` has not returned. -/
structure Inv (s : State S A) (F : Addr → Prop) : Prop where
  holds : M.Holds s.pool F
  free : ∀ n, F n → C.avail s.prog n = true ∧ s.obtained n = true
  fresh : ∀ n, s.obtained n = false → C.avail s.prog n = true

variable {M C} {s s' : State S A} {s₀ : S} {F : Addr → Prop} {a : Act L τ} {t : τ} {fresh : Addr}

theorem Inv.not_free (h : Inv M C s F) (hf : s.obtained fresh = false) : ¬ F fresh := by
  intro hF
  rw [(h.free fresh hF).2] at hf
  cases hf

/-- `new_node` returns an available node. -/
theorem Inv.newNode_avail (h : Inv M C s F) (hf : s.obtained fresh = false) :
    C.avail s.prog (M.newNode s.pool t fresh).2 = true := by
  obtain ⟨_, _, _, hn⟩ := M.holds_newNode s.pool t fresh F h.holds (h.not_free hf)
  rcases hn with hn | hn
  · exact (h.free _ hn).1
  · rw [hn]
    exact h.fresh fresh hf

private theorem Inv.prog_step {p : S} {b : L} (hC : C.Lawful s₀) (h : Inv M C s F) (hr : Reachable (Steps C.step) s₀ s.prog)
    (hp : C.step s.prog b = some p) (htakes : C.takes b = false) :
    ∃ F', Inv M C { s with prog := p, pool := (C.frees s.prog b).elim s.pool fun e => M.freeNode s.pool e.1 e.2 } F' := by
  have hav := hC.stepped _ _ _ hr hp htakes
  cases hf : C.frees s.prog b with
  | none =>
    rw [hf, Option.elim_none] at hav
    exact ⟨F, h.holds, by rw [hav]; exact h.free, by rw [hav]; exact h.fresh⟩
  | some e =>
    obtain ⟨t, n⟩ := e
    rw [hf, Option.elim_some] at hav
    have hn : C.avail s.prog n = false := hC.inUse _ _ _ hr hf
    have hoff : ¬ F n := by
      intro hF
      rw [(h.free n hF).1] at hn
      cases hn
    obtain ⟨F', hl, hsub⟩ := M.holds_freeNode s.pool t n F h.holds hoff
    refine ⟨F', hl, fun x hx => ?_, fun x hx => ?_⟩
    · rw [hav]
      by_cases he : x = n
      · refine ⟨by simp [he], ?_⟩
        by_contra hno
        rw [he] at hno
        rw [h.fresh n (by simpa using hno)] at hn
        cases hn
      · rw [Function.update_of_ne he]
        exact h.free x ((hsub x hx).resolve_right he)
    · rw [hav]
      by_cases he : x = n
      · simp [he]
      · rw [Function.update_of_ne he]
        exact h.fresh x hx

private theorem Inv.newNode_step {p : S} (hC : C.Lawful s₀) (h : Inv M C s F) (hf : s.obtained fresh = false)
    (hp : C.give s.prog t (M.newNode s.pool t fresh).2 = some p) :
    ∃ F', Inv M C ⟨p, (M.newNode s.pool t fresh).1, Function.update s.obtained (M.newNode s.pool t fresh).2 true⟩ F' := by
  have hav := hC.given _ _ _ _ hp
  obtain ⟨F', hl, hsub, _⟩ := M.holds_newNode s.pool t fresh F h.holds (h.not_free hf)
  refine ⟨F', hl, fun x hx => ?_, fun x hx => ?_⟩
  · obtain ⟨hx, hne⟩ := hsub x hx
    obtain ⟨hx₁, hx₂⟩ := h.free x hx
    rw [hav, Function.update_of_ne hne]
    exact ⟨hx₁, (Function.update_of_ne hne ..).trans hx₂⟩
  · have hne : x ≠ (M.newNode s.pool t fresh).2 := by
      rintro rfl
      simp at hx
    rw [hav, Function.update_of_ne hne]
    exact h.fresh x ((Function.update_of_ne hne ..).symm.trans hx)

/-- Every step is one of the program, and leaves nothing in use on the free lists. -/
theorem Inv.step (hC : C.Lawful s₀) (h : Inv M C s F) (hs : Managed.step M C s a = some s')
    (hr : Reachable (Steps C.step) s₀ s.prog) : C.step s.prog (a.label M C s) = some s'.prog ∧ ∃ F', Inv M C s' F' := by
  cases a with
  | prog a =>
    simp only [Managed.step] at hs
    split at hs
    · cases hs
    · rename_i htakes
      obtain ⟨p, hp, rfl⟩ := Option.map_eq_some_iff.mp hs
      exact ⟨hp, h.prog_step hC hr hp (by simpa using htakes)⟩
  | newNode t fresh =>
    simp only [Managed.step] at hs
    split at hs
    · cases hs
    · rename_i hobt
      have hf : s.obtained fresh = false := by simpa using hobt
      obtain ⟨p, hp, rfl⟩ := Option.map_eq_some_iff.mp hs
      exact ⟨hC.give_take _ _ _ _ (h.newNode_avail hf) hp, h.newNode_step hC hf hp⟩

theorem Inv.init (hC : C.Lawful s₀) : Inv M C (.init M s₀) fun _ => False where
  holds := M.holds_init
  free := by simp
  fresh n _ := hC.init n

/-- Every run of the program with the allocator is a run of the program with some allocator. -/
theorem run_prog {P O V : Type} (hC : C.Lawful s₀) (I : Interface L S P O V) (hI : ∀ t n s, I.event (C.take t n) s = none)
    {tr : List (Act L τ × State S A)} (h : Run (Steps (Managed.step M C)) (.init M s₀) tr s') :
    ∃ tr', Run (Steps C.step) s₀ tr' s'.prog ∧ I.history tr' = (interface I).history tr ∧ ∃ F, Inv M C s' F := by
  induction h with
  | nil => exact ⟨[], .nil, rfl, _, .init hC⟩
  | @snoc tr s a s' _ hs ih =>
    obtain ⟨tr', hrun, hhist, F, hi⟩ := ih
    obtain ⟨hstep, hi'⟩ := hi.step hC hs ⟨tr', hrun⟩
    refine ⟨_, hrun.snoc hstep, ?_, hi'⟩
    rw [I.history_snoc, Interface.history_snoc, hhist]
    cases a with
    | prog a => rfl
    | newNode t fresh =>
      have hnone : I.event (C.take t (M.newNode s.pool t fresh).2) s'.prog = none := hI ..
      simp only [Act.label, hnone]
      rfl

/-- A build that is linearizable whatever the allocator hands out is so with this one, and this one never
hands out a node in use. -/
theorem linearizable {P O V X : Type} [DecidableEq P] (hC : C.Lawful s₀) {I : Interface L S P O V}
    {apply : X → O → X × V} {abs : S → X} (hI : ∀ t n s, I.event (C.take t n) s = none)
    (h : Linearizable (Steps C.step) s₀ I apply abs) :
    Linearizable (Steps (Managed.step M C)) (.init M s₀) (interface I) apply (fun s => abs s.prog) ∧
      ∀ s, Reachable (Steps (Managed.step M C)) (.init M s₀) s → ∀ t fresh, s.obtained fresh = false →
        C.avail s.prog (M.newNode s.pool t fresh).2 = true := by
  refine ⟨h.of_runs rfl fun tr s hr => ?_, fun s hs t fresh hf => ?_⟩
  · obtain ⟨tr', hrun, hhist, _⟩ := run_prog hC I hI hr
    exact ⟨tr', s.prog, hrun, hhist, rfl⟩
  · obtain ⟨tr, hr⟩ := hs
    obtain ⟨_, _, _, F, hi⟩ := run_prog hC I hI hr
    exact hi.newNode_avail hf

end Managed
end Gecos
