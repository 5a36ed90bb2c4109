import Gecos.Library.Linearizability
import Gecos.Table.Walk
import Gecos.Table.WriterStep
import Mathlib.Data.Sum.Basic
import Mathlib.Order.BooleanAlgebra.Set

/-! The table as an object of its own: a set of keys in buckets, and where the calls of
list_writer.c take effect on it. -/
namespace Gecos
open Library

/-- A call of `insert`, `delete` or `search` for a key in a bucket. -/
inductive Request (β : Type) where
  | update (op : Op) (k : Int) (b : β)
  | search (k : Int) (b : β)
  deriving DecidableEq

open Classical in
/-- What a call does to the set of keys, and what it returns. -/
noncomputable def Request.apply {β : Type} (S : Set (β × Int)) : Request β → Set (β × Int) × Nat
  | .update .insert k b => (insert (b, k) S, if (b, k) ∈ S then 0 else 1)
  | .update .delete k b => (S \ {(b, k)}, if (b, k) ∈ S then 1 else 0)
  | .search k b => (S, if (b, k) ∈ S then 1 else 0)

/-- The keys in the table. -/
def Mem.keys {β : Type} (m : Mem β) : Set (β × Int) := {x | m.Member x.1 x.2}

namespace Request
variable {β : Type} {S : Set (β × Int)} {k : Int} {b : β}

theorem insert_present (h : (b, k) ∈ S) : apply S (.update .insert k b) = (S, 0) := by
  simp [apply, h]

theorem insert_absent (h : (b, k) ∉ S) : apply S (.update .insert k b) = (insert (b, k) S, 1) := by
  simp [apply, h]

theorem delete_present (h : (b, k) ∈ S) : apply S (.update .delete k b) = (S \ {(b, k)}, 1) := by
  simp [apply, h]

theorem delete_absent (h : (b, k) ∉ S) : apply S (.update .delete k b) = (S, 0) := by
  simp [apply, h, Set.sdiff_singleton_eq_self]

theorem search_answer {res : Nat} (hle : res ≤ 1) (h : res = 1 ↔ (b, k) ∈ S) : apply S (.search k b) = (S, res) := by
  simp only [apply]
  by_cases hm : (b, k) ∈ S
  · rw [if_pos hm, h.mpr hm]
  · have : res ≠ 1 := fun he => hm (h.mp he)
    rw [if_neg hm, show res = 0 by omega]

end Request

namespace Writer
variable {β ρ : Type}

/-- How far the call is that the updater is in. -/
def stage : Writer β ρ → Stage (Request β) Nat
  | .ready | .returned _ => .idle
  | .emptyTest k b | .loadNext k b _ _ | .unlink k b _ _ _ => .busy (.update .delete k b)
  | .wlock op k b | .loadHead op k b | .loadKey op k b _ _ | .loadKeyAgain op k b _ _ | .advance op k b _ =>
    .busy (.update op k b)
  | .initNewNode k b _ _ | .handOver k b _ _ _ | .storeKey k b _ _ _ | .storeNext k b _ _ _ | .link k b _ _ _ =>
    .busy (.update .insert k b)
  | .freeNodeLater _ _ _ => .decided 1
  | .wunlock _ res => .decided res

/-- What a call returned. -/
def result : Writer β ρ → Option Nat
  | .returned res => some res
  | _ => none

theorem stage_ne (w : Writer β ρ) : w.stage ≠ .reading := by
  cases w <;> simp [stage]

theorem begin_stage {w w' : Writer β ρ} {op : Op} {k : Int} {b : β} (h : w.begin op k b = some w') :
    w.stage = .idle ∧ w'.stage = .busy (.update op k b) := by
  unfold begin at h
  split at h
  case h_3 => cases h
  all_goals cases op <;> cases h <;> exact ⟨rfl, rfl⟩

theorem alloc_stage {m m' : Mem β} {w w' : Writer β ρ} {n : Addr} (h : w.alloc m n = some (m', w')) :
    w'.stage = w.stage ∧ w'.result = none ∧ m'.key = m.key ∧ m'.next = m.next ∧ m'.heads = m.heads := by
  unfold alloc at h
  split at h
  case h_2 => cases h
  split at h <;> cases h
  exact ⟨rfl, rfl, rfl, rfl, rfl⟩

end Writer

/-- What a step of an updater is to the set of keys `S`, which it makes `S'`: nothing, the effect of
its call, or its return. -/
inductive Point {β : Type} (S S' : Set (β × Int)) (x x' : Stage (Request β) Nat) : Option Nat → Prop where
  | quiet : S' = S → x' = x → Point S S' x x' none
  | effect (o : Request β) (v : Nat) : x = .busy o → o.apply S = (S', v) → x' = .decided v → Point S S' x x' none
  | ret (v : Nat) : S' = S → x' = .idle → (x = .decided v ∨ ∃ o : Request β, x = .busy o ∧ o.apply S = (S, v)) →
      Point S S' x x' (some v)

namespace Mem
variable {β : Type} {m m' : Mem β}

theorem keys_of_same (hk : m'.key = m.key) (hn : m'.next = m.next) (hh : m'.heads = m.heads) : m'.keys = m.keys := by
  simp [keys, Member, hk, hn, hh]

theorem Table.keys_of_agree (ht : m.Table) (ht' : m'.Table) (ha : ∀ b, m.Agree m' b) : m'.keys = m.keys :=
  Set.ext fun x => (ha x.1).member ht ht'

end Mem

section step
variable {β ρ υ : Type} [DecidableEq β] [DecidableEq υ] {m m' : Mem β} {upd : υ → Writer β ρ} {u : υ}
  {w' : Writer β ρ} {start : ρ} {b : β} {k : Int} {op : Op} {prev : Link β}

omit [DecidableEq β] [DecidableEq υ] in
/-- The loop test decides a `delete` that has come to the end of its bucket. -/
theorem loop_point {p : Ptr} (h : p = none → ¬ m.Member b k) :
    Point m.keys m.keys (.busy (.update op k b)) (Writer.loop op k b prev p : Writer β ρ).stage
      (Writer.loop op k b prev p : Writer β ρ).result := by
  cases p with
  | some n => exact .quiet rfl rfl
  | none =>
    cases op with
    | insert => exact .quiet rfl rfl
    | delete => exact .effect _ 0 rfl (Request.delete_absent (h rfl)) rfl

/-- The key comparison decides an `insert` that finds its key, and a `delete` that does not. -/
theorem loadKeyAgain_point {cur : Addr} (hk : m.key cur = k ↔ m.Member b k)
    (hs : (Writer.loadKeyAgain op k b prev cur : Writer β ρ).step start m = some (m', w')) :
    Point m.keys m'.keys (.busy (.update op k b)) w'.stage w'.result := by
  cases op with
  | insert =>
    cases hs
    split
    · exact .effect _ 0 rfl (Request.insert_present (hk.mp (by assumption))) rfl
    · exact .quiet rfl rfl
  | delete =>
    cases hs
    split
    · rename_i hne
      exact .effect _ 0 rfl (Request.delete_absent fun hm => hne (hk.mpr hm)) rfl
    · exact .quiet rfl rfl

/-- Every access of `insert` and `delete` is one of the kinds of step. -/
theorem Writers.step_point (h : Writers m upd) (hs : (upd u).step start m = some (m', w')) :
    Point m.keys m'.keys (upd u).stage w'.stage w'.result := by
  have hf := h.facts u
  have ht' := (h.step hs).table
  have hag (b : β) (hb : (upd u).relinks ≠ some b) := h.step_agree_of_relinks hs hb
  cases hw : upd u with
  | ready | wlock | freeNodeLater | initNewNode | handOver | wunlock | returned =>
    simp [hw, Writer.step] at hs
  | emptyTest k b =>
    rw [hw] at hs
    cases hs
    split
    · rename_i hh
      exact .ret 0 rfl rfl (.inr ⟨_, rfl, Request.delete_absent (h.table.head_none hh)⟩)
    · exact .quiet rfl rfl
  | loadHead op k b =>
    rw [hw] at hs
    cases hs
    exact loop_point h.table.head_none
  | loadKey op k b prev cur =>
    rw [hw] at hs
    cases hs
    split <;> exact .quiet rfl rfl
  | loadKeyAgain op k b prev cur =>
    rw [hw] at hs hf
    obtain ⟨⟨l₁, l₂, hp⟩, hk⟩ := hf
    exact loadKeyAgain_point (h.table.settles hp.split hp.below hk) hs
  | advance op k b cur =>
    rw [hw] at hs hf
    obtain ⟨⟨prev, l₁, l₂, hp⟩, hk⟩ := hf
    cases hs
    exact loop_point (h.table.next_none (h.table.around (by simp [hp.split])) hk)
  | loadNext k b prev cur =>
    rw [hw] at hs
    cases hs
    exact .quiet rfl rfl
  | unlink k b prev cur nx =>
    rw [hw] at hs hf
    obtain ⟨⟨l₁, l₂, hp⟩, hk, rfl⟩ := hf
    cases hs
    obtain ⟨_, _, _, hch, hne⟩ := h.table.unlink_chain hp
    have hm : m.Member b k := h.table.member_iff.mpr ⟨cur, by simp [hp.split], hk⟩
    refine .effect _ 1 rfl ?_ rfl
    rw [Request.delete_present hm]
    refine congrArg (·, 1) (Set.ext fun x => ?_)
    refine Iff.trans ?_ (h.table.member_erase ht' hp.split hch hne (Mem.store_key ..) hk x.1 x.2).symm
    simp [Mem.keys, Prod.ext_iff]
  | storeKey k b prev cur new =>
    rw [hw] at hs hag
    cases hs
    exact .quiet (h.table.keys_of_agree ht' fun b' => hag b' (by simp [Writer.relinks])) rfl
  | storeNext k b prev cur new =>
    rw [hw] at hs hag
    cases hs
    exact .quiet (h.table.keys_of_agree ht' fun b' => hag b' (by simp [Writer.relinks])) rfl
  | link k b prev p new =>
    have hnew := (h.fresh u new (by rw [hw]; rfl)).2
    rw [hw] at hs hf
    obtain ⟨⟨l₁, l₂, hp, rfl, hab⟩, hkey, hx⟩ := hf
    cases hs
    obtain ⟨_, _, hch, hne⟩ := h.table.link_chain hp hnew hx
    have hm : ¬ m.Member b k := by
      rw [h.table.member_iff, hp.split]
      rintro ⟨x, hx, he⟩
      rcases List.mem_append.mp hx with hx | hx
      · exact absurd he (ne_of_lt (hp.below x hx))
      · exact absurd he (ne_of_gt (hab x hx))
    refine .effect _ 1 rfl ?_ rfl
    rw [Request.insert_absent hm]
    refine congrArg (·, 1) (Set.ext fun x => ?_)
    have hkey' : (m.store prev (some new)).key new = k := by rw [Mem.store_key, hkey]
    refine Iff.trans ?_ (h.table.member_insert ht' hp.split hch hne (fun _ _ _ => by rw [Mem.store_key]) hkey' x.1 x.2).symm
    simp [Mem.keys, Prod.ext_iff, or_comm]

end step

/-- The labels of a build as its clients see them: an updater's call and its steps, a reader's. -/
inductive Label (β υ ρ : Type) where
  | begin (u : υ) (op : Op) (k : Int) (b : β)
  | update (u : υ)
  | call (r : ρ) (k : Int) (b : β)
  | read (r : ρ)
  | other

/-- What the clients of a build see of it: its labels, the table, how far the updaters are, which
readers are in a call, and what the calls returned. -/
structure Client (S L β υ ρ : Type) where
  label : L → Label β υ ρ
  mem : S → Mem β
  stage : S → υ → Stage (Request β) Nat
  result : S → υ → Option Nat
  reading : S → ρ → Bool
  answer : S → ρ → Option Nat

namespace Client
variable {S L β υ ρ : Type} (C : Client S L β υ ρ)

/-- The processes are the updaters and the readers. -/
def interface : Interface L S (υ ⊕ ρ) (Request β) Nat where
  call a := match C.label a with
    | .begin u op k b => some (.inl u, .update op k b)
    | .call r k b => some (.inr r, .search k b)
    | _ => none
  ret a t := match C.label a with
    | .update u => (C.result t u).map (Sum.inl u, ·)
    | .read r => (C.answer t r).map (Sum.inr r, ·)
    | _ => none

def stages (s : S) : υ ⊕ ρ → Stage (Request β) Nat :=
  Sum.elim (C.stage s) fun r => if C.reading s r then .reading else .idle

/-- A completed `search(k, &heads[b], _)` of `r` with result `res`. -/
def Searched (R : S → L → S → Prop) (s₀ : S) (r : ρ) (k : Int) (b : β) (res : Nat) (hist : List S) : Prop :=
  Interval R s₀ (fun a => C.label a = .call r k b) (fun a => ∀ k b, C.label a ≠ .call r k b)
    (fun a t => C.label a = .read r ∧ C.answer t r = some res) hist

variable [DecidableEq υ] [DecidableEq ρ]

/-- What a step with a label does for the clients. -/
def Does (s t : S) : Label β υ ρ → Prop
  | .begin u op k b => (C.mem t).keys = (C.mem s).keys ∧ C.stage s u = .idle ∧
    C.stage t = Function.update (C.stage s) u (.busy (.update op k b)) ∧ C.reading t = C.reading s
  | .update u => Point (C.mem s).keys (C.mem t).keys (C.stage s u) (C.stage t u) (C.result t u) ∧
    C.stage t = Function.update (C.stage s) u (C.stage t u) ∧ C.reading t = C.reading s
  | .call r _ _ => (C.mem t).keys = (C.mem s).keys ∧ C.reading s r = false ∧ C.stage t = C.stage s ∧
    C.reading t = Function.update (C.reading s) r true
  | .read r => (C.mem t).keys = (C.mem s).keys ∧ C.reading s r = true ∧ C.stage t = C.stage s ∧
    C.reading t = Function.update (C.reading s) r (C.answer t r).isNone
  | .other => (C.mem t).keys = (C.mem s).keys ∧ C.stage t = C.stage s ∧ C.reading t = C.reading s

variable {C} {R : S → L → S → Prop} {s₀ s t : S} {a : L}

theorem stages_updater {u : υ} {x : Stage (Request β) Nat} (hu : C.stage t = Function.update (C.stage s) u x)
    (hr : C.reading t = C.reading s) : C.stages t = Function.update (C.stages s) (.inl u) x := by
  rw [stages, stages, hu, hr, Sum.elim_update_left]

theorem stages_reader {r : ρ} {x : Bool} (hu : C.stage t = C.stage s) (hr : C.reading t = Function.update (C.reading s) r x) :
    C.stages t = Function.update (C.stages s) (.inr r) (if x then .reading else .idle) := by
  unfold stages
  rw [← Sum.elim_update_right, hu, hr]
  congr 1
  funext r'
  exact Function.apply_update (fun _ x => if x = true then Stage.reading else .idle) (C.reading s) r x r'

theorem Does.point (h : C.Does s t (C.label a)) :
    PointStep C.interface Request.apply (fun s => (C.mem s).keys) C.stages s a t := by
  cases ha : C.label a with
  | begin u op k b =>
    rw [ha] at h
    obtain ⟨hk, hs, hu, hr⟩ := h
    exact .call (.inl u) (.update op k b) (by simp [interface, ha]) hk hs (.inl (stages_updater hu hr))
  | update u =>
    rw [ha] at h
    obtain ⟨hp, hu, hr⟩ := h
    have hst := stages_updater hu hr
    have hcall : C.interface.call a = none := by simp [interface, ha]
    have hret : C.interface.ret a t = (C.result t u).map (Sum.inl u, ·) := by simp [interface, ha]
    generalize C.result t u = res at hp hret
    cases hp with
    | quiet hk hx =>
      rw [hx] at hst
      have hs : C.stage s u = C.stages s (.inl u) := rfl
      rw [hs, Function.update_eq_self] at hst
      exact .quiet (by simp [Interface.event, hcall, hret]) hk hst
    | effect o v hb hap hx =>
      rw [hx] at hst
      exact .effect (.inl u) o v (by simp [Interface.event, hcall, hret]) hb hap hst
    | ret v hk hx hd =>
      rw [hx] at hst
      exact .ret (.inl u) v hcall hret hk hst (hd.imp_right .inr)
  | call r k b =>
    rw [ha] at h
    obtain ⟨hk, hs, hu, hr⟩ := h
    exact .call (.inr r) (.search k b) (by simp [interface, ha]) hk (by simp [stages, hs]) (.inr (stages_reader hu hr))
  | read r =>
    rw [ha] at h
    obtain ⟨hk, hs, hu, hr⟩ := h
    have hst := stages_reader hu hr
    have hread : C.stages s (.inr r) = .reading := by simp [stages, hs]
    have hcall : C.interface.call a = none := by simp [interface, ha]
    have hret : C.interface.ret a t = (C.answer t r).map (Sum.inr r, ·) := by simp [interface, ha]
    cases hans : C.answer t r with
    | none =>
      rw [hans] at hst hret
      rw [Option.isNone_none, if_pos rfl, ← hread, Function.update_eq_self] at hst
      exact .quiet (by simp [Interface.event, hcall, hret]) hk hst
    | some v =>
      rw [hans] at hst hret
      exact .ret (.inr r) v hcall hret hk hst (.inr (.inl hread))
  | other =>
    rw [ha] at h
    obtain ⟨hk, hu, hr⟩ := h
    exact .quiet (by simp [Interface.event, interface, ha]) hk (by simp [stages, hu, hr])

/-- The keys in the table, and those that inserts under way are to put there, satisfy `Q`. -/
structure Within (C : Client S L β υ ρ) (Q : Int → Prop) (s : S) : Prop where
  keys : ∀ x ∈ (C.mem s).keys, Q x.2
  inserting : ∀ u k b, C.stage s u = .busy (.update .insert k b) → Q k

omit [DecidableEq ρ] in
/-- The updater `u` moves to a stage that says nothing new. -/
private theorem Within.move {Q : Int → Prop} {u : υ} {x : Stage (Request β) Nat} (h : C.Within Q s)
    (hst : C.stage t = Function.update (C.stage s) u x) (hk : ∀ y ∈ (C.mem t).keys, Q y.2)
    (hx : ∀ k b, x = .busy (.update .insert k b) → Q k) : C.Within Q t := by
  refine ⟨hk, fun v k b hv => ?_⟩
  rw [hst] at hv
  by_cases he : v = u
  · rw [he, Function.update_self] at hv
    exact hx k b hv
  · rw [Function.update_of_ne he] at hv
    exact h.inserting v k b hv

theorem Does.within {Q : Int → Prop} {l : Label β υ ρ} (h : C.Does s t l) (hw : C.Within Q s)
    (hl : ∀ u k b, l = .begin u .insert k b → Q k) : C.Within Q t := by
  cases l with
  | begin u op k b =>
    obtain ⟨hk, _, hst, _⟩ := h
    refine hw.move hst (by rw [hk]; exact hw.keys) fun k' b' he => ?_
    cases he
    exact hl u k b rfl
  | update u =>
    obtain ⟨hp, hst, _⟩ := h
    generalize C.stage t u = x', C.result t u = res at hp hst
    cases hp with
    | quiet hk hx =>
      refine hw.move hst (by rw [hk]; exact hw.keys) fun k b he => ?_
      exact hw.inserting u k b (hx.symm.trans he)
    | effect o v hb hap hx =>
      refine hw.move hst ?_ fun k b he => by cases hx.symm.trans he
      have hkeys : (C.mem t).keys = (o.apply (C.mem s).keys).1 := by rw [hap]
      rw [hkeys]
      cases o with
      | search => exact hw.keys
      | update op k b =>
        cases op with
        | delete => exact fun y hy => hw.keys y hy.1
        | insert =>
          rintro y (rfl | hy)
          · exact hw.inserting u k b hb
          · exact hw.keys y hy
    | ret v hk hx _ => exact hw.move hst (by rw [hk]; exact hw.keys) fun k b he => by cases hx.symm.trans he
  | call | read =>
    obtain ⟨hk, _, hst, _⟩ := h
    exact ⟨by rw [hk]; exact hw.keys, by rw [hst]; exact hw.inserting⟩
  | other =>
    obtain ⟨hk, hst, _⟩ := h
    exact ⟨by rw [hk]; exact hw.keys, by rw [hst]; exact hw.inserting⟩

omit [DecidableEq υ] [DecidableEq ρ] in
theorem interface_call_search {r : ρ} {k : Int} {b : β} :
    C.interface.call a = some (.inr r, .search k b) ↔ C.label a = .call r k b := by
  cases ha : C.label a <;> simp [interface, ha]

omit [DecidableEq υ] [DecidableEq ρ] in
theorem interface_ret_read {r : ρ} {v : Nat} (h : C.interface.ret a t = some (.inr r, v)) :
    C.label a = .read r ∧ C.answer t r = some v := by
  cases ha : C.label a with
  | begin | call | other => simp [interface, ha] at h
  | update u =>
    simp only [interface, ha] at h
    obtain ⟨x, _, he⟩ := Option.map_eq_some_iff.mp h
    cases he
  | read r' =>
    simp only [interface, ha] at h
    obtain ⟨x, hx, he⟩ := Option.map_eq_some_iff.mp h
    cases he
    exact ⟨rfl, hx⟩

/-- What a build is made up of: the states of its updaters and readers, and what these say of their calls;
`pending` is the result that a search returned or is to return. -/
structure Parts (C : Client S L β υ ρ) (Y X : Type) where
  upd : S → υ → Y
  stage : Y → Stage (Request β) Nat
  result : Y → Option Nat
  rd : S → ρ → X
  running : X → Bool
  pending : X → Option Nat
  answer : X → Option Nat
  stage_eq : ∀ s, C.stage s = stage ∘ upd s
  result_eq : ∀ s, C.result s = result ∘ upd s
  reading_eq : ∀ s, C.reading s = running ∘ rd s
  answer_eq : ∀ s, C.answer s = answer ∘ rd s
  stage_ne : ∀ y, stage y ≠ .reading
  pending_eq : ∀ x res, answer x = some res → pending x = some res

namespace Parts
variable {C : Client S L β υ ρ} {Y X : Type} (P : C.Parts Y X) {R : S → L → S → Prop} {s₀ s t : S} {a : L}

/-- What a step with a label does: each thread moves in its own calls and steps only, and a search has
one result, 0 or 1. -/
def Moves (s t : S) : Label β υ ρ → Prop
  | .begin u op k b => (C.mem t).keys = (C.mem s).keys ∧ P.rd t = P.rd s ∧
    ∃ y, P.upd t = Function.update (P.upd s) u y ∧ P.stage (P.upd s u) = .idle ∧ P.stage y = .busy (.update op k b)
  | .update u => P.rd t = P.rd s ∧ ∃ y, P.upd t = Function.update (P.upd s) u y ∧
    Point (C.mem s).keys (C.mem t).keys (P.stage (P.upd s u)) (P.stage y) (P.result y)
  | .call r _ _ => (C.mem t).keys = (C.mem s).keys ∧ P.upd t = P.upd s ∧
    ∃ x, P.rd t = Function.update (P.rd s) r x ∧ P.running (P.rd s r) = false ∧ P.running x = true ∧ P.pending x = none
  | .read r => (C.mem t).keys = (C.mem s).keys ∧ P.upd t = P.upd s ∧
    ∃ x, P.rd t = Function.update (P.rd s) r x ∧ P.running (P.rd s r) = true ∧ P.running x = (P.answer x).isNone ∧
      ∀ res, P.pending x = some res → res ≤ 1 ∨ P.pending (P.rd s r) = some res
  | .other => (C.mem t).keys = (C.mem s).keys ∧ P.rd t = P.rd s ∧
    ∃ u y, P.upd t = Function.update (P.upd s) u y ∧ P.stage y = P.stage (P.upd s u)

variable {P}

omit [DecidableEq ρ] in
theorem stage_update {u : υ} {y : Y} (h : P.upd t = Function.update (P.upd s) u y) :
    C.stage t = Function.update (C.stage s) u (P.stage y) := by
  rw [P.stage_eq, P.stage_eq, h, Function.comp_update]

omit [DecidableEq υ] in
theorem reading_update {r : ρ} {x : X} (h : P.rd t = Function.update (P.rd s) r x) :
    C.reading t = Function.update (C.reading s) r (P.running x) := by
  rw [P.reading_eq, P.reading_eq, h, Function.comp_update]

/-- What the parts do is what the clients see. -/
theorem Moves.does {l : Label β υ ρ} (h : P.Moves s t l) : C.Does s t l := by
  have hrd (he : P.rd t = P.rd s) : C.reading t = C.reading s := by rw [P.reading_eq, P.reading_eq, he]
  have hupd (he : P.upd t = P.upd s) : C.stage t = C.stage s := by rw [P.stage_eq, P.stage_eq, he]
  cases l with
  | begin u op k b =>
    obtain ⟨hk, hr, y, hy, hidle, hbusy⟩ := h
    refine ⟨hk, by rw [P.stage_eq]; exact hidle, ?_, hrd hr⟩
    rw [stage_update hy, hbusy]
  | update u =>
    obtain ⟨hr, y, hy, hp⟩ := h
    have hst : C.stage t u = P.stage y := by rw [stage_update hy, Function.update_self]
    have hres : C.result t u = P.result y := by rw [P.result_eq, hy, Function.comp_update, Function.update_self]
    refine ⟨?_, by rw [hst, stage_update hy], hrd hr⟩
    rw [hst, hres, P.stage_eq]
    exact hp
  | call r k b =>
    obtain ⟨hk, hu, x, hx, hno, hrun, _⟩ := h
    refine ⟨hk, by rw [P.reading_eq]; exact hno, hupd hu, ?_⟩
    rw [reading_update hx, hrun]
  | read r =>
    obtain ⟨hk, hu, x, hx, hrun, hans, _⟩ := h
    refine ⟨hk, by rw [P.reading_eq]; exact hrun, hupd hu, ?_⟩
    rw [reading_update hx, hans, P.answer_eq, hx, Function.comp_update, Function.update_self]
  | other =>
    obtain ⟨hk, hr, u, y, hy, hst⟩ := h
    refine ⟨hk, ?_, hrd hr⟩
    rw [stage_update hy, hst, P.stage_eq]
    exact Function.update_eq_self u (P.stage ∘ P.upd s)

/-- No search ever has another result than 0 or 1. -/
theorem pending_le (h₀ : ∀ r, P.pending (P.rd s₀ r) = none)
    (hmoves : ∀ s a t, Reachable R s₀ s → R s a t → P.Moves s t (C.label a)) (h : Reachable R s₀ s) (r : ρ) (res : Nat)
    (hr : P.pending (P.rd s r) = some res) : res ≤ 1 := by
  have hput {s t : S} {r' : ρ} {x : X} (hs : ∀ r res, P.pending (P.rd s r) = some res → res ≤ 1)
      (hx : P.rd t = Function.update (P.rd s) r' x) (hle : ∀ res, P.pending x = some res → res ≤ 1) :
      ∀ r res, P.pending (P.rd t r) = some res → res ≤ 1 := by
    intro r res hr
    rw [hx] at hr
    by_cases he : r = r'
    · rw [he, Function.update_self] at hr
      exact hle res hr
    · rw [Function.update_of_ne he] at hr
      exact hs r res hr
  have hinv := h.invariant (P := fun s => Reachable R s₀ s ∧ ∀ r res, P.pending (P.rd s r) = some res → res ≤ 1)
    ⟨⟨_, .nil⟩, by simp [h₀]⟩ fun s a t ⟨hs, hle⟩ ha => ?_
  · exact hinv.2 r res hr
  refine ⟨hs.trans ⟨_, .snoc .nil ha⟩, ?_⟩
  have hm := hmoves s a t hs ha
  cases hl : C.label a with
  | begin | other =>
    rw [hl] at hm
    rw [hm.2.1]
    exact hle
  | update u =>
    rw [hl] at hm
    rw [hm.1]
    exact hle
  | call r k b =>
    rw [hl] at hm
    obtain ⟨_, _, x, hx, _, _, hnone⟩ := hm
    exact hput hle hx (by simp [hnone])
  | read r =>
    rw [hl] at hm
    obtain ⟨_, _, x, hx, _, _, hres⟩ := hm
    exact hput hle hx fun res hr => (hres res hr).elim id (hle r res)

/-- The points at which the calls of a build take effect: its steps are what they seem, and every completed
search answers for a state of its time. -/
theorem points (hidle : ∀ u, P.stage (P.upd s₀ u) = .idle)
    (hrd : ∀ r, P.running (P.rd s₀ r) = false ∧ P.pending (P.rd s₀ r) = none)
    (hmoves : ∀ s a t, Reachable R s₀ s → R s a t → P.Moves s t (C.label a))
    (hreads : ∀ r k b res hist, C.Searched R s₀ r k b res hist → ∃ m ∈ hist, (res = 1 ↔ (C.mem m).Member b k)) :
    Points R s₀ C.interface Request.apply (fun s => (C.mem s).keys) C.stages := by
  refine ⟨fun p => ?_, fun s a t hs ha => (hmoves s a t hs ha).does.point, ?_⟩
  · cases p with
    | inl u => simpa [stages, P.stage_eq] using hidle u
    | inr r => simp [stages, P.reading_eq, hrd]
  · intro p o v hist h hread
    obtain ⟨r, k, b, rfl, rfl⟩ : ∃ r k b, p = .inr r ∧ o = .search k b := by
      obtain ⟨a, t, hcall, ht⟩ := h.start
      cases ha : C.label a with
      | begin u op k b =>
        simp only [interface, ha, Option.some.injEq, Prod.mk.injEq] at hcall
        rw [← hcall.1] at hread
        have hst : C.stage t u = .reading := hread t ht
        rw [P.stage_eq] at hst
        exact (P.stage_ne _ hst).elim
      | call r k b =>
        simp only [interface, ha, Option.some.injEq, Prod.mk.injEq] at hcall
        exact ⟨r, k, b, hcall.1.symm, hcall.2.symm⟩
      | update | read | other => simp [interface, ha] at hcall
    have hs : C.Searched R s₀ r k b v hist := by
      refine h.imp (fun a hcall => ?_) (fun a hno k b ha => hno (.search k b) ?_) fun a t hret => interface_ret_read hret
      · exact interface_call_search.mp hcall
      · exact interface_call_search.mpr ha
    have hle : v ≤ 1 := by
      obtain ⟨s, a, t, hs, ha, _, hans⟩ := hs.last
      rw [P.answer_eq] at hans
      exact pending_le (fun r => (hrd r).2) hmoves (hs.trans ⟨_, .snoc .nil ha⟩) r v (P.pending_eq _ _ hans)
    obtain ⟨m, hm, hiff⟩ := hreads r k b v hist hs
    exact ⟨m, hm, Request.search_answer hle hiff⟩

end Parts
end Client
end Gecos
