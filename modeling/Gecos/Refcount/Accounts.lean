import Gecos.Library.Ledger
import Gecos.Refcount.Search

/-! Every step of the reference-counting build keeps a balanced ledger of its counts. -/
namespace Gecos.ListRc
open Library Ledger
variable {β ρ : Type} {m m' : Mem β} {n p : Addr}

/-- The reference that `lfrc_refcnt_dec` is about to drop. -/
def Dec.held : Dec → Multiset Addr
  | .check _ p | .xadd _ p => {p}
  | .gcLoad .. | .gcStore .. | .next .. | .free .. => 0

/-- The node whose count it has brought to zero, before it goes on to the successor. -/
def Dec.dying : Dec → Option Addr
  | .gcLoad _ p | .gcStore _ p _ | .next _ p => some p
  | .check .. | .xadd .. | .free .. => none

/-- The nodes that it is yet to free, their successors being released. -/
def Dec.spent : Dec → List Addr
  | .check stack _ | .xadd stack _ | .gcLoad stack _ | .gcStore stack _ _ | .next stack _ => stack
  | .free stack p => p :: stack

/-- The node that `lfrc_refcnt_dec` was called for in the end is at the bottom. -/
def Dec.path : Dec → List Addr
  | .check stack p | .xadd stack p | .gcLoad stack p | .gcStore stack p _ | .next stack p | .free stack p =>
    p :: stack

/-- A thread in `d`, or in none, with the references `x` besides. -/
structure Holds {T : Type} (l : Ledger T Addr) (t : T) (d : Option Dec) (x : Multiset Addr) : Prop where
  held : l.held t = d.elim 0 Dec.held + x
  dying : ∀ n, l.home n = .dying t ↔ d.bind Dec.dying = some n
  spent : ∀ n, l.home n = .spent t ↔ n ∈ d.elim [] Dec.spent
  nodup : (d.elim [] Dec.spent).Nodup

/-- The ledger is about this memory. -/
structure Fits {T : Type} (l : Ledger T Addr) (m : Mem β) : Prop where
  count : l.count = m.rc
  next : l.next = m.next
  avail : ∀ n, m.avail n = true ↔ l.home n = .free
  linked : ∀ n, (∃ b, n ∈ m.chain b) ↔ l.home n = .linked

/-- Unlinked, and not freed since. -/
def Out {T : Type} : Home T → Prop
  | .leaving | .limbo | .dying _ | .spent _ => True
  | .free | .linked | .fresh => False

section dec
variable {T : Type} [DecidableEq T] [Fintype T] {l l' : Ledger T Addr} {t u w : T} {d d₁ : Dec} {d' : Option Dec}
  {x : Multiset Addr} {stack : List Addr}

@[simp] theorem call_none_spent (stack : List Addr) : (Dec.call stack none).elim [] Dec.spent = stack := by
  cases stack <;> rfl

@[simp] theorem call_none_held (stack : List Addr) : (Dec.call stack none).elim 0 Dec.held = 0 := by
  cases stack <;> rfl

@[simp] theorem call_none_dying (stack : List Addr) : (Dec.call stack none).bind Dec.dying = none := by
  cases stack <;> rfl

omit [DecidableEq T] [Fintype T] in
/-- The other threads do not notice a change of home to and from those of thread `t`. -/
theorem Holds.other {d : Option Dec} (h : Holds l u d x) (hheld : l'.held u = l.held u)
    (hd : ∀ n, l'.home n = .dying u ↔ l.home n = .dying u) (hs : ∀ n, l'.home n = .spent u ↔ l.home n = .spent u) :
    Holds l' u d x :=
  ⟨hheld.trans h.held, fun n => (hd n).trans (h.dying n), fun n => (hs n).trans (h.spent n), h.nodup⟩

/-- What a step of `lfrc_refcnt_dec` by thread `t` does to the ledger. -/
structure DecStep (l l' : Ledger T Addr) (w t : T) (d : Dec) (d' : Option Dec) (x : Multiset Addr) (m' : Mem β) :
    Prop where
  balanced : l'.Balanced w
  fits : Fits l' m'
  holds : Holds l' t d' x
  other : ∀ u, u ≠ t → ∀ d x, Holds l u d x → Holds l' u d x
  fresh : ∀ n, l'.home n = .fresh ↔ l.home n = .fresh
  leaving : ∀ n, l'.home n = .leaving ↔ l.home n = .leaving
  out : ∀ n, Out (l'.home n) ↔ Out (l.home n) ∧ freeing (some d) ≠ some n

omit [DecidableEq T] in
theorem DecStep.same (hb : l.Balanced w) (hf : Fits l m') (hh : Holds l t (some d₁) x)
    (hn : freeing (some d) = none) : DecStep l l w t d (some d₁) x m' :=
  ⟨hb, hf, hh, fun _ _ _ _ h => h, fun _ => Iff.rfl, fun _ => Iff.rfl, fun n => by simp [hn]⟩

/-- The last reference is dropped by the thread that will free the node. -/
theorem step_xadd (hb : l.Balanced w) (hf : Fits l m) (hh : Holds l t (some (.xadd stack p)) x)
    (hw : t = w → ∀ n, l.home n ≠ .fresh ∧ l.home n ≠ .leaving) :
    DecStep l (l.release t p) w t (.xadd stack p) (if m.rc p = 1 then some (.gcLoad stack p) else Dec.call stack none)
      x { m with rc := Function.update m.rc p (m.rc p - 1) } := by
  have hheld : l.held t = {p} + x := hh.held
  have hp : p ∈ l.held t := by simp [hheld]
  have hlast := hb.last hp fun ht => hw ht p
  have hhome : (l.release t p).home = if m.rc p = 1 then Function.update l.home p (.dying t) else l.home := by
    rw [← hf.count]; rfl
  have hstill (n : Addr) (hn : n ≠ p) : (l.release t p).home n = l.home n := by
    rw [hhome]
    split
    · exact Function.update_of_ne hn _ _
    · rfl
  have hself : m.rc p = 1 → l.home p = .limbo ∧ (l.release t p).home p = .dying t := fun hc =>
    ⟨hlast (by rw [hf.count]; exact hc), by simp [hhome, hc]⟩
  have hsame (hc : m.rc p ≠ 1) (n : Addr) : (l.release t p).home n = l.home n := by rw [hhome, if_neg hc]
  -- nothing changes but that `p` may go from limbo to dying
  have hiff (h : Home T) (h₁ : h ≠ .limbo) (h₂ : h ≠ .dying t) (n : Addr) :
      (l.release t p).home n = h ↔ l.home n = h := by
    by_cases hn : n = p
    · subst hn
      by_cases hc : m.rc n = 1
      · rw [(hself hc).1, (hself hc).2]
        exact ⟨fun he => (h₂ he.symm).elim, fun he => (h₁ he.symm).elim⟩
      · rw [hsame hc]
    · rw [hstill n hn]
  refine ⟨hb.release hp fun ht => hw ht p, ⟨?_, hf.next, fun n => ?_, fun n => ?_⟩, ⟨?_, fun n => ?_, fun n => ?_, ?_⟩,
    fun u hu d x h => ?_, hiff _ nofun nofun, hiff _ nofun nofun, fun n => ?_⟩
  · change Function.update l.count p (l.count p - 1) = _
    rw [hf.count]
  · rw [hiff .free nofun nofun]
    exact hf.avail n
  · rw [hiff .linked nofun nofun]
    exact hf.linked n
  · change Function.update l.held t ((l.held t).erase p) t = _
    rw [Function.update_self, hheld, Multiset.singleton_add, Multiset.erase_cons_head]
    split <;> simp [Dec.held]
  · by_cases hc : m.rc p = 1
    · rw [if_pos hc]
      have hd := hh.dying n
      by_cases hn : n = p
      · simp [hn, (hself hc).2, Dec.dying]
      · rw [hstill n hn, hd]
        simp [Dec.dying, Ne.symm hn]
    · rw [if_neg hc, call_none_dying, hsame hc, hh.dying n]
      simp [Dec.dying]
  · rw [hiff (.spent t) nofun nofun, hh.spent n]
    split <;> simp [Dec.spent]
  · have hnd := hh.nodup
    split
    · exact hnd
    · rw [call_none_spent]; exact hnd
  · exact h.other (Function.update_of_ne hu _ _) (hiff _ nofun (by simpa using hu)) (hiff _ nofun nofun)
  · have hout : Out ((l.release t p).home n) ↔ Out (l.home n) := by
      by_cases hn : n = p
      · subst hn
        by_cases hc : m.rc n = 1
        · rw [(hself hc).1, (hself hc).2]
          exact Iff.rfl
        · rw [hsame hc]
      · rw [hstill n hn]
    rw [hout]
    simp [freeing]

theorem step_next (hb : l.Balanced w) (hf : Fits l m) (hh : Holds l t (some (.next stack p)) x) :
    DecStep l (l.descend t p) w t (.next stack p) (Dec.call (p :: stack) (m.next p)) x m := by
  have hp : l.home p = .dying t := (hh.dying p).mpr rfl
  have hself : (l.descend t p).home p = .spent t := Function.update_self ..
  have hstill (n : Addr) (hn : n ≠ p) : (l.descend t p).home n = l.home n := Function.update_of_ne hn _ _
  have hiff (h : Home T) (h₁ : h ≠ .dying t) (h₂ : h ≠ .spent t) (n : Addr) :
      (l.descend t p).home n = h ↔ l.home n = h := by
    by_cases hn : n = p
    · rw [hn, hp, hself]
      exact ⟨fun he => (h₂ he.symm).elim, fun he => (h₁ he.symm).elim⟩
    · rw [hstill n hn]
  have hpst : p ∉ stack := fun hm => by
    have := (hh.spent p).mpr hm
    rw [hp] at this
    cases this
  have hspent : (Dec.call (p :: stack) (m.next p)).elim [] Dec.spent = p :: stack := by cases m.next p <;> rfl
  refine ⟨hb.descend hp, ⟨hf.count, hf.next, fun n => ?_, fun n => ?_⟩, ⟨?_, fun n => ?_, fun n => ?_, ?_⟩,
    fun u hu d x h => ?_, hiff _ nofun nofun, hiff _ nofun nofun, fun n => ?_⟩
  · rw [hiff .free nofun nofun]
    exact hf.avail n
  · rw [hiff .linked nofun nofun]
    exact hf.linked n
  · change Function.update l.held t ((l.next p).toList + l.held t) t = _
    rw [Function.update_self, hh.held, hf.next]
    cases m.next p <;> simp [Dec.call, Dec.held]
  · have hd := hh.dying n
    have hnone : (Dec.call (p :: stack) (m.next p)).bind Dec.dying = none := by cases m.next p <;> rfl
    rw [hnone]
    by_cases hn : n = p
    · simp [hn, hself]
    · rw [hstill n hn, hd]
      simp [Dec.dying, Ne.symm hn]
  · rw [hspent]
    by_cases hn : n = p
    · simp [hn, hself]
    · rw [hstill n hn, hh.spent n]
      simp [Dec.spent, hn]
  · rw [hspent]
    exact List.nodup_cons.mpr ⟨hpst, hh.nodup⟩
  · exact h.other (Function.update_of_ne hu _ _) (hiff _ (by simpa using hu) nofun) (hiff _ nofun (by simpa using hu))
  · have hout : Out ((l.descend t p).home n) ↔ Out (l.home n) := by
      by_cases hn : n = p
      · rw [hn, hp, hself]; exact Iff.rfl
      · rw [hstill n hn]
    rw [hout]
    simp [freeing]

omit [DecidableEq T] in
theorem step_free (hb : l.Balanced w) (hf : Fits l m) (hh : Holds l t (some (.free stack p)) x) :
    DecStep l (l.rehome p .free) w t (.free stack p) (Dec.call stack none) x
      { m with avail := Function.update m.avail p true } := by
  have hp : l.home p = .spent t := (hh.spent p).mpr (by simp [Dec.spent])
  have hself : (l.rehome p .free).home p = .free := Function.update_self ..
  have hstill (n : Addr) (hn : n ≠ p) : (l.rehome p .free).home n = l.home n := Function.update_of_ne hn _ _
  have hiff (h : Home T) (h₁ : h ≠ .spent t) (h₂ : h ≠ .free) (n : Addr) :
      (l.rehome p .free).home n = h ↔ l.home n = h := by
    by_cases hn : n = p
    · rw [hn, hp, hself]
      exact ⟨fun he => (h₂ he.symm).elim, fun he => (h₁ he.symm).elim⟩
    · rw [hstill n hn]
  have hnd := List.nodup_cons.mp hh.nodup
  refine ⟨hb.rehome (.inr ⟨t, hp⟩) (.inl rfl), ⟨hf.count, hf.next, fun n => ?_, fun n => ?_⟩,
    ⟨?_, fun n => ?_, fun n => ?_, ?_⟩, fun u hu d x h => ?_, hiff _ nofun nofun, hiff _ nofun nofun, fun n => ?_⟩
  · by_cases hn : n = p
    · simp [hn, hself]
    · rw [hstill n hn]
      simpa [Function.update_of_ne hn] using hf.avail n
  · rw [hiff .linked nofun nofun]
    exact hf.linked n
  · rw [call_none_held]
    exact hh.held
  · rw [hiff (.dying t) nofun nofun, hh.dying n, call_none_dying]
    exact Iff.rfl
  · rw [call_none_spent]
    by_cases hn : n = p
    · simp [hn, hself, hnd.1]
    · rw [hstill n hn, hh.spent n]
      simp [Dec.spent, hn]
  · rw [call_none_spent]
    exact hnd.2
  · exact h.other rfl (hiff _ nofun nofun) (hiff _ (by simpa using hu) nofun)
  · by_cases hn : n = p
    · simp [hn, hself, freeing, Out]
    · rw [hstill n hn]
      simp [freeing, Ne.symm hn]

theorem dec_step (hb : l.Balanced w) (hf : Fits l m) (hh : Holds l t (some d) x)
    (hw : t = w → ∀ n, l.home n ≠ .fresh ∧ l.home n ≠ .leaving) (hs : d.step m = some (m', d')) :
    ∃ l', DecStep l l' w t d d' x m' := by
  cases d with
  | check stack p =>
    simp only [Dec.step] at hs
    split at hs <;> cases hs
    exact ⟨l, .same hb hf ⟨hh.held, hh.dying, hh.spent, hh.nodup⟩ rfl⟩
  | xadd stack p =>
    cases hs
    exact ⟨_, step_xadd hb hf hh hw⟩
  | gcLoad stack p =>
    cases hs
    exact ⟨l, .same hb hf ⟨hh.held, hh.dying, hh.spent, hh.nodup⟩ rfl⟩
  | gcStore stack p gc =>
    cases hs
    exact ⟨l, .same hb ⟨hf.count, hf.next, hf.avail, hf.linked⟩ ⟨hh.held, hh.dying, hh.spent, hh.nodup⟩ rfl⟩
  | next stack p =>
    cases hs
    exact ⟨_, step_next hb hf hh⟩
  | free stack p =>
    cases hs
    exact ⟨_, step_free hb hf hh⟩

end dec
end Gecos.ListRc
