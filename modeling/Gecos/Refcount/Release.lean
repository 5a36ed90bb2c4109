import Gecos.Library.Cascade
import Gecos.Library.Run
import Gecos.Refcount.Search

/-! `lfrc_refcnt_dec` of rc.c when nobody else runs: what one call frees. -/
namespace Gecos.ListRc
open Library
variable {β : Type}

/-- `lfrc_refcnt_dec(p)` and the nodes it passes to `free_node`, in order. `none` is a failed `assert`, or not
enough fuel for the recursion. -/
def lfrcRefcntDec : Nat → Mem β → Ptr → Option (Mem β × List Addr)
  | _, m, none => some (m, [])
  | 0, _, some _ => none
  | fuel + 1, m, some p =>
    if 0 < m.rc p then
      let m₁ := { m with rc := Function.update m.rc p (m.rc p - 1) }
      if m.rc p = 1 then
        let m₂ := { m₁ with gc := Function.update m.gc p (m.gc p + 1) }
        (lfrcRefcntDec fuel m₂ (m₂.next p)).map fun (m, freed) =>
          ({ m with avail := Function.update m.avail p true }, freed ++ [p])
      else some (m₁, [])
    else none

/-- `lfrc_refcnt_inc(p)` -/
def lfrcRefcntInc (m : Mem β) : Ptr → Mem β
  | none => m
  | some p => { m with rc := Function.update m.rc p (m.rc p + 1) }

/-- A heap whose counts are right, `ext` being the references by heads, readers and the updater. -/
structure Heap (m : Mem β) (unfreed : Finset Addr) (ext : Addr → Nat) : Prop
    extends Counted m.next m.rc unfreed ext where
  unfreed : ∀ n, n ∈ unfreed ↔ m.avail n = false

/-- A step of `lfrc_refcnt_dec` without any of other threads, with the node that it frees. -/
def alone (s : Mem β × Option Dec) (f : Ptr) : Option (Mem β × Option Dec) :=
  s.2.bind fun d => if freeing (some d) = f then d.step s.1 else none

variable {m m' : Mem β} {unfreed : Finset Addr} {ext : Addr → Nat} {p : Addr} {q : Ptr} {fuel : Nat} {freed : List Addr}

/-- The call is the steps that each thread takes in it. -/
theorem lfrcRefcntDec_run (stack : List Addr) (h : lfrcRefcntDec fuel m q = some (m', freed)) :
    ∃ tr, Run (Steps alone) (m, Dec.call stack q) tr (m', Dec.call stack none) ∧ tr.filterMap (·.1) = freed := by
  induction fuel generalizing m m' q stack freed with
  | zero =>
    cases q with
    | none =>
      cases h
      exact ⟨[], .nil, rfl⟩
    | some p => cases h
  | succ fuel ih =>
    cases q with
    | none =>
      cases h
      exact ⟨[], .nil, rfl⟩
    | some p =>
      simp only [lfrcRefcntDec] at h
      split at h
      case isFalse => cases h
      rename_i hpos
      have hcheck : Steps alone (m, Dec.call stack (some p)) none (m, some (.xadd stack p)) := by
        simp [Steps, alone, Dec.call, Dec.step, freeing, hpos]
      split at h
      · rename_i hone
        obtain ⟨⟨m₃, freed⟩, hrec, he⟩ := Option.map_eq_some_iff.mp h
        cases he
        obtain ⟨tr, hrun, hfreed⟩ := ih (p :: stack) hrec
        have hfree : Steps alone (m₃, Dec.call (p :: stack) none) (some p)
            ({ m₃ with avail := Function.update m₃.avail p true }, Dec.call stack none) := by
          simp [Steps, alone, Dec.call, Dec.step, freeing]
        have hxadd : Steps alone (m, some (.xadd stack p)) none
            ({ m with rc := Function.update m.rc p (m.rc p - 1) }, some (.gcLoad stack p)) := by
          simp [Steps, alone, Dec.step, freeing, hone]
        refine ⟨_, .cons hcheck (.cons hxadd (.cons (a := none) rfl (.cons (a := none) rfl (.cons (a := none) rfl
          (.snoc hrun hfree))))), ?_⟩
        simp [hfreed]
      · rename_i hone
        cases h
        have hxadd : Steps alone (m, some (.xadd stack p)) none
            ({ m with rc := Function.update m.rc p (m.rc p - 1) }, Dec.call stack none) := by
          simp [Steps, alone, Dec.step, freeing, hone]
        exact ⟨_, .cons hcheck (.cons hxadd .nil), rfl⟩

/-- What giving up a reference to `p` does. -/
structure Releases (m : Mem β) (live : Finset Addr) (ext : Addr → Nat) (p : Addr) (m' : Mem β) (freed : List Addr) :
    Prop where
  garbage : Garbage m.next live ext p freed
  counted : Counted m.next m'.rc (live.filter (· ∉ freed)) (giveUp ext p)
  key : m'.key = m.key
  next : m'.next = m.next
  heads : m'.heads = m.heads
  avail : ∀ n, m'.avail n = true ↔ m.avail n = true ∨ n ∈ freed

theorem Releases.drop (h : Counted m.next m.rc unfreed ext) (hp : 0 < ext p) (hc : m.rc p ≠ 1) :
    Releases m unfreed ext p { m with rc := Function.update m.rc p (m.rc p - 1) } [] where
  garbage := h.drop_garbage hp hc
  counted := by
    rw [Finset.filter_true_of_mem fun _ _ => List.not_mem_nil]
    exact h.drop hp hc
  key := rfl
  next := rfl
  heads := rfl
  avail n := by simp

/-- The node whose count drops to zero is freed after what its successor's call frees. -/
theorem Releases.free {m₁ : Mem β} (hk : m₁.key = m.key) (hn : m₁.next = m.next) (hh : m₁.heads = m.heads)
    (hav : m₁.avail = m.avail) (hg : Garbage m.next unfreed ext p (freed ++ [p]))
    (hc : Counted m.next m'.rc ((unfreed.erase p).filter (· ∉ freed)) (giveUp ext p)) (hk' : m'.key = m₁.key)
    (hn' : m'.next = m₁.next) (hh' : m'.heads = m₁.heads) (hav' : ∀ n, m'.avail n = true ↔ m₁.avail n = true ∨ n ∈ freed) :
    Releases m unfreed ext p { m' with avail := Function.update m'.avail p true } (freed ++ [p]) where
  garbage := hg
  counted := by
    have hset : unfreed.filter (· ∉ freed ++ [p]) = (unfreed.erase p).filter (· ∉ freed) := by
      ext n
      simp only [Finset.mem_filter, Finset.mem_erase, List.mem_append, List.mem_singleton]
      tauto
    rw [hset]
    exact hc
  key := hk'.trans hk
  next := hn'.trans hn
  heads := hh'.trans hh
  avail n := by
    rw [List.mem_append, List.mem_singleton, ← or_assoc, ← hav, ← hav']
    obtain rfl | hne := eq_or_ne n p
    · simp
    · simp [hne]

/-- The recursion runs down the chain until a node that is still referenced, or the end. -/
theorem releases (h : Counted m.next m.rc unfreed ext) (hp : 0 < ext p) :
    ∃ m' freed, (∀ fuel, unfreed.card ≤ fuel → lfrcRefcntDec fuel m (some p) = some (m', freed)) ∧
      Releases m unfreed ext p m' freed := by
  induction hcard : unfreed.card generalizing m unfreed ext p with
  | zero =>
    rw [Finset.card_eq_zero] at hcard
    subst hcard
    exact absurd (h.external p hp) (Finset.notMem_empty p)
  | succ c ih =>
    have hlive := h.external p hp
    have hpos : 0 < m.rc p := by
      rw [h.count p hlive]
      omega
    by_cases hc : m.rc p = 1
    · let m₁ : Mem β := { m with rc := Function.update m.rc p (m.rc p - 1), gc := Function.update m.gc p (m.gc p + 1) }
      have hcall (fuel : Nat) : lfrcRefcntDec (fuel + 1) m (some p) = (lfrcRefcntDec fuel m₁ (m.next p)).map
          fun (m, freed) => ({ m with avail := Function.update m.avail p true }, freed ++ [p]) := by
        rw [lfrcRefcntDec, if_pos hpos, if_pos hc]
      have hcounted : Counted m₁.next m₁.rc (unfreed.erase p) (passOn m.next ext p) := h.free hp hc (m.rc p - 1)
      cases hn : m.next p with
      | none =>
        have hr : Releases m unfreed ext p { m₁ with avail := Function.update m₁.avail p true } ([] ++ [p]) := by
          refine .free rfl rfl rfl rfl (h.free_garbage_nil hp hc hn) ?_ rfl rfl rfl fun n => by simp [m₁]
          rw [Finset.filter_true_of_mem fun _ _ => List.not_mem_nil, ← passOn_none hn]
          exact hcounted
        refine ⟨_, _, fun fuel hf => ?_, hr⟩
        obtain ⟨fuel, rfl⟩ : ∃ f, fuel = f + 1 := ⟨fuel - 1, by omega⟩
        rw [hcall, hn]
        cases fuel <;> rfl
      | some q =>
        have hq : 0 < passOn m.next ext p q := by
          rw [passOn, if_pos hn]
          omega
        have hcard' : (unfreed.erase p).card = c := by rw [Finset.card_erase_of_mem hlive, hcard, Nat.add_sub_cancel]
        obtain ⟨m', freed, hrec, hr⟩ := ih hcounted hq hcard'
        refine ⟨_, freed ++ [p], fun fuel hf => ?_,
          .free rfl rfl rfl rfl (h.free_garbage hp hc hn hr.garbage) ?_ hr.key hr.next hr.heads hr.avail⟩
        · obtain ⟨fuel, rfl⟩ : ∃ f, fuel = f + 1 := ⟨fuel - 1, by omega⟩
          rw [hcall, hn, hrec fuel (by omega), Option.map_some]
        · rw [← giveUp_passOn hn]
          exact hr.counted
    · refine ⟨_, [], fun fuel hf => ?_, .drop h hp hc⟩
      obtain ⟨fuel, rfl⟩ : ∃ f, fuel = f + 1 := ⟨fuel - 1, by omega⟩
      rw [lfrcRefcntDec, if_pos hpos, if_neg hc]

theorem Heap.inc (h : Heap m unfreed ext) (hp : p ∈ unfreed) :
    Heap (lfrcRefcntInc m (some p)) unfreed (Function.update ext p (ext p + 1)) :=
  ⟨h.toCounted.acquire hp, h.unfreed⟩

/-- Run alone in a heap without cycles or garbage whose counts are right, `lfrc_refcnt_dec(p)` returns, passes to
`free_node` exactly what the references left do not reach, each node once, and leaves the counts right. -/
theorem lfrc_refcnt_dec_exact (h : Heap m unfreed ext) (hp : 0 < ext p) :
    ∃ m' freed, (∀ fuel, unfreed.card ≤ fuel → lfrcRefcntDec fuel m (some p) = some (m', freed)) ∧
      freed.Nodup ∧ (∀ n, n ∈ freed ↔ n ∈ unfreed ∧ ¬ Referenced m.next (giveUp ext p) n) ∧
      m'.key = m.key ∧ m'.next = m.next ∧ Heap m' (unfreed.filter (· ∉ freed)) (giveUp ext p) ∧
      ∃ tr, Run (Steps alone) (m, some (.check [] p)) tr (m', none) ∧ tr.filterMap (·.1) = freed := by
  obtain ⟨m', freed, hcall, hr⟩ := releases h.toCounted hp
  have hcounted : Counted m'.next m'.rc (unfreed.filter (· ∉ freed)) (giveUp ext p) := by
    rw [hr.next]
    exact hr.counted
  refine ⟨m', freed, hcall, hr.garbage.nodup, hr.garbage.mem, hr.key, hr.next, ⟨hcounted, fun n => ?_⟩,
    lfrcRefcntDec_run [] (hcall _ le_rfl)⟩
  have hav := hr.avail n
  rw [Finset.mem_filter, h.unfreed]
  rw [← Bool.not_eq_true, ← Bool.not_eq_true, hav]
  tauto

/-- Nodes 1, 2 and 3 in a chain; somebody else holds node 3. -/
def sharedTail : Mem Unit :=
  { Mem.init Unit with
    next := fun n => if n = 1 ∨ n = 2 then some (n + 1) else none, rc := fun n => if n = 3 then 2 else 1,
    avail := fun n => decide (n ∉ [1, 2, 3]) }

theorem sharedTail_heap : Heap sharedTail {1, 2, 3} fun n => if n = 1 ∨ n = 3 then 1 else 0 := by
  have hlink {a b : Nat} (h : Links sharedTail.next a b) : (a = 1 ∨ a = 2) ∧ b = a + 1 := by
    simp only [Links, sharedTail, Option.ite_none_right_eq_some, Option.some.injEq] at h
    exact ⟨h.1, h.2.symm⟩
  have hlt {a b : Nat} (h : Relation.TransGen (Links sharedTail.next) a b) : a < b := by
    induction h with
    | single hl =>
      have := (hlink hl).2
      omega
    | tail _ hl ih =>
      have := (hlink hl).2
      omega
  refine ⟨⟨fun a _ b hl => ?_, fun a ha => ?_, fun a _ h => absurd (hlt h) (lt_irrefl a), by decide, fun a ha => ?_⟩,
    fun n => ?_⟩
  · obtain ⟨rfl | rfl, rfl⟩ := hlink hl <;> decide
  · have h : a = 1 ∨ a = 3 := by
      by_contra hno
      simp [hno] at ha
    rcases h with rfl | rfl <;> decide
  · have h : a = 1 ∨ a = 2 ∨ a = 3 := by simpa using ha
    have h12 : Relation.ReflTransGen (Links sharedTail.next) 1 2 := .single rfl
    rcases h with rfl | rfl | rfl
    · exact ⟨1, by decide, .refl⟩
    · exact ⟨1, by decide, h12⟩
    · exact ⟨3, by decide, .refl⟩
  · simp only [sharedTail, decide_eq_false_iff_not, not_not]
    simp

theorem lfrc_refcnt_dec_exact_sharedTail : ∃ m', lfrcRefcntDec 3 sharedTail (some 1) = some (m', [2, 1]) ∧
    ∀ n, n ∈ [2, 1] ↔ n ∈ ({1, 2, 3} : Finset Addr) ∧
      ¬ Referenced sharedTail.next (giveUp (fun n => if n = 1 ∨ n = 3 then 1 else 0) 1) n := by
  obtain ⟨m', freed, hcall, _, hmem, _⟩ := lfrc_refcnt_dec_exact sharedTail_heap (p := 1) (by decide)
  have hfreed : (lfrcRefcntDec 3 sharedTail (some 1)).map Prod.snd = some [2, 1] := by decide
  have h3 := hcall 3 (by decide)
  rw [h3] at hfreed
  obtain rfl : freed = [2, 1] := Option.some.inj hfreed
  exact ⟨m', h3, hmem⟩

end Gecos.ListRc
