import Mathlib.Data.Finset.Card
import Mathlib.Logic.Relation

/-! Reference counts of cells with one successor each: what is left, and what is garbage, when one of the
references from outside is given up. -/
namespace Gecos.Library
variable {α : Type*}

def Links (next : α → Option α) (a b : α) : Prop := next a = some b

/-- Cell `a` is reachable from a cell with references from outside. -/
def Referenced (next : α → Option α) (ext : α → Nat) (a : α) : Prop :=
  ∃ r, 0 < ext r ∧ Relation.ReflTransGen (Links next) r a

variable [DecidableEq α]

/-- The cells of `live` that point to `a`. -/
def pointersTo (next : α → Option α) (live : Finset α) (a : α) : Finset α := live.filter fun x => next x = some a

/-- A heap of cells `live`, without cycles or garbage, whose counts are right; `ext` are the numbers of
references from outside. No reference leads out of the heap. -/
structure Counted (next : α → Option α) (count : α → Nat) (live : Finset α) (ext : α → Nat) : Prop where
  closed : ∀ a ∈ live, ∀ b, Links next a b → b ∈ live
  external : ∀ a, 0 < ext a → a ∈ live
  acyclic : ∀ a ∈ live, ¬ Relation.TransGen (Links next) a a
  count : ∀ a ∈ live, count a = (pointersTo next live a).card + ext a
  reached : ∀ a ∈ live, Referenced next ext a

/-- One reference to `p` less. -/
def giveUp (ext : α → Nat) (p : α) : α → Nat := Function.update ext p (ext p - 1)

/-- The reference to `p` is given up, and that of `p` to its successor comes from outside. -/
def passOn (next : α → Option α) (ext : α → Nat) (p n : α) : Nat :=
  giveUp ext p n + if next p = some n then 1 else 0

/-- `freed` lists the garbage that giving up a reference to `p` leaves. -/
structure Garbage (next : α → Option α) (live : Finset α) (ext : α → Nat) (p : α) (freed : List α) : Prop where
  nodup : freed.Nodup
  mem : ∀ a, a ∈ freed ↔ a ∈ live ∧ ¬ Referenced next (giveUp ext p) a

variable {next : α → Option α} {count ext : α → Nat} {live : Finset α} {p q a b : α} {freed : List α}

theorem giveUp_of_ne (h : a ≠ p) : giveUp ext p a = ext a := Function.update_of_ne h _ _

theorem giveUp_self : giveUp ext p p = ext p - 1 := Function.update_self ..

theorem mem_pointersTo : a ∈ pointersTo next live b ↔ a ∈ live ∧ Links next a b := Finset.mem_filter

omit [DecidableEq α] in
theorem Referenced.link (h : Referenced next ext a) (hl : Links next a b) : Referenced next ext b := by
  obtain ⟨r, hr, hra⟩ := h
  exact ⟨r, hr, hra.tail hl⟩

theorem Counted.mem_of_reach (h : Counted next count live ext) (ha : a ∈ live)
    (hab : Relation.ReflTransGen (Links next) a b) : b ∈ live := by
  induction hab with
  | refl => exact ha
  | tail _ hl ih => exact h.closed _ ih _ hl

/-- A reference less, where there is another one: all cells are still referenced. -/
theorem Counted.drop (h : Counted next count live ext) (hp : 0 < ext p) (hc : count p ≠ 1) :
    Counted next (Function.update count p (count p - 1)) live (giveUp ext p) := by
  have hlive := h.external p hp
  have hcount := h.count p hlive
  -- `p` itself is still referenced, as nothing that points to it is reached through it
  have hself : Referenced next (giveUp ext p) p := by
    by_cases hone : 1 < ext p
    · exact ⟨p, by rw [giveUp_self]; omega, .refl⟩
    · obtain ⟨x, hx⟩ := Finset.card_pos.mp (show 0 < (pointersTo next live p).card by omega)
      obtain ⟨hx, hl⟩ := mem_pointersTo.mp hx
      obtain ⟨r, hr, hrx⟩ := h.reached x hx
      have hne : r ≠ p := by
        rintro rfl
        exact h.acyclic r hlive (.tail' hrx hl)
      exact ⟨r, by rwa [giveUp_of_ne hne], hrx.tail hl⟩
  refine ⟨h.closed, fun a ha => ?_, h.acyclic, fun a ha => ?_, fun a ha => ?_⟩
  · obtain rfl | hne := eq_or_ne a p
    · exact hlive
    · exact h.external a (by rwa [giveUp_of_ne hne] at ha)
  · obtain rfl | hne := eq_or_ne a p
    · rw [Function.update_self, giveUp_self]
      omega
    · rw [Function.update_of_ne hne, giveUp_of_ne hne]
      exact h.count a ha
  · obtain ⟨r, hr, hra⟩ := h.reached a ha
    obtain rfl | hne := eq_or_ne r p
    · obtain ⟨r', hr', hp'⟩ := hself
      exact ⟨r', hr', hp'.trans hra⟩
    · exact ⟨r, by rwa [giveUp_of_ne hne], hra⟩

theorem Counted.drop_garbage (h : Counted next count live ext) (hp : 0 < ext p) (hc : count p ≠ 1) :
    Garbage next live ext p [] where
  nodup := .nil
  mem a := by
    simp only [List.not_mem_nil, false_iff, not_and, not_not]
    exact (h.drop hp hc).reached a

/-- One reference more to a cell of the heap. -/
theorem Counted.acquire (h : Counted next count live ext) (hp : p ∈ live) :
    Counted next (Function.update count p (count p + 1)) live (Function.update ext p (ext p + 1)) := by
  have hle (a : α) : ext a ≤ Function.update ext p (ext p + 1) a := by
    obtain rfl | hne := eq_or_ne a p
    · rw [Function.update_self]
      omega
    · rw [Function.update_of_ne hne]
  refine ⟨h.closed, fun a ha => ?_, h.acyclic, fun a ha => ?_, fun a ha => ?_⟩
  · obtain rfl | hne := eq_or_ne a p
    · exact hp
    · exact h.external a (by rwa [Function.update_of_ne hne] at ha)
  · obtain rfl | hne := eq_or_ne a p
    · rw [Function.update_self, Function.update_self, h.count a ha]
      omega
    · rw [Function.update_of_ne hne, Function.update_of_ne hne]
      exact h.count a ha
  · obtain ⟨r, hr, hra⟩ := h.reached a ha
    exact ⟨r, hr.trans_le (hle r), hra⟩

/-- To the last reference nothing points. -/
theorem Counted.last (h : Counted next count live ext) (hp : 0 < ext p) (hc : count p = 1) :
    ext p = 1 ∧ ∀ x ∈ live, ¬ Links next x p := by
  have hcount := h.count p (h.external p hp)
  refine ⟨by omega, fun x hx hl => ?_⟩
  have hpos := Finset.card_pos.mpr ⟨x, mem_pointersTo.mpr ⟨hx, hl⟩⟩
  omega

/-- What leads to the cell with the last reference starts there. -/
theorem Counted.last_reach (h : Counted next count live ext) (hp : 0 < ext p) (hc : count p = 1) (ha : a ∈ live)
    (hap : Relation.ReflTransGen (Links next) a p) : a = p := by
  rcases hap.cases_tail with rfl | ⟨x, hax, hl⟩
  · rfl
  · exact absurd hl ((h.last hp hc).2 x (h.mem_of_reach ha hax))

theorem passOn_pos (hp : ext p = 1) (hr : 0 < passOn next ext p a) : a ≠ p ∧ 0 < ext a ∨ next p = some a := by
  by_cases hn : next p = some a
  · exact .inr hn
  · rw [passOn, if_neg hn, Nat.add_zero] at hr
    refine .inl ?_
    obtain rfl | hne := eq_or_ne a p
    · rw [giveUp_self, hp] at hr
      exact absurd hr (Nat.lt_irrefl 0)
    · exact ⟨hne, by rwa [giveUp_of_ne hne] at hr⟩

/-- The cell with the last reference goes, and its reference to the successor is there to be given up. -/
theorem Counted.free (h : Counted next count live ext) (hp : 0 < ext p) (hc : count p = 1) (x : Nat) :
    Counted next (Function.update count p x) (live.erase p) (passOn next ext p) := by
  have hlive := h.external p hp
  obtain ⟨hone, hno⟩ := h.last hp hc
  refine ⟨fun a ha b hl => ?_, fun a ha => ?_, fun a ha => h.acyclic a (Finset.mem_of_mem_erase ha), fun a ha => ?_,
    fun a ha => ?_⟩
  · have hmem := Finset.mem_of_mem_erase ha
    refine Finset.mem_erase.mpr ⟨?_, h.closed a hmem b hl⟩
    rintro rfl
    exact hno a hmem hl
  · rcases passOn_pos hone ha with ⟨hne, hpos⟩ | hn
    · exact Finset.mem_erase.mpr ⟨hne, h.external a hpos⟩
    · refine Finset.mem_erase.mpr ⟨?_, h.closed p hlive a hn⟩
      rintro rfl
      exact hno a hlive hn
  · obtain ⟨hne, ha⟩ := Finset.mem_erase.mp ha
    rw [Function.update_of_ne hne, h.count a ha, passOn, giveUp_of_ne hne]
    have herase : pointersTo next (live.erase p) a = (pointersTo next live a).erase p := Finset.filter_erase ..
    rw [herase]
    by_cases hn : next p = some a
    · have hmem : p ∈ pointersTo next live a := mem_pointersTo.mpr ⟨hlive, hn⟩
      have hpos := Finset.card_pos.mpr ⟨p, hmem⟩
      rw [Finset.card_erase_of_mem hmem, if_pos hn]
      omega
    · have hmem : p ∉ pointersTo next live a := fun hm => hn (mem_pointersTo.mp hm).2
      rw [Finset.erase_eq_of_notMem hmem, if_neg hn, Nat.add_zero]
  · obtain ⟨hne, ha⟩ := Finset.mem_erase.mp ha
    obtain ⟨r, hr, hra⟩ := h.reached a ha
    obtain rfl | hrp := eq_or_ne r p
    · rcases hra.cases_head with rfl | ⟨q, hq, hqa⟩
      · exact absurd rfl hne
      · exact ⟨q, by rw [passOn, if_pos (show next r = some q from hq)]; omega, hqa⟩
    · exact ⟨r, by rw [passOn, giveUp_of_ne hrp]; omega, hra⟩

theorem giveUp_passOn (hq : next p = some q) : giveUp (passOn next ext p) q = giveUp ext p := by
  funext n
  obtain rfl | hne := eq_or_ne n q
  · rw [giveUp_self, passOn, if_pos hq]
    omega
  · have hn : next p ≠ some n := fun hn => hne (Option.some.inj (hn.symm.trans hq))
    rw [giveUp_of_ne hne, passOn, if_neg hn, Nat.add_zero]

theorem passOn_none (hn : next p = none) : passOn next ext p = giveUp ext p := by
  funext n
  rw [passOn, hn, if_neg nofun, Nat.add_zero]

/-- The cell with the last reference is garbage. -/
theorem Counted.not_referenced (h : Counted next count live ext) (hp : 0 < ext p) (hc : count p = 1) :
    ¬ Referenced next (giveUp ext p) p := by
  rintro ⟨r, hr, hrp⟩
  have hone := (h.last hp hc).1
  have hne : r ≠ p := by
    rintro rfl
    rw [giveUp_self, hone] at hr
    exact absurd hr (Nat.lt_irrefl 0)
  rw [giveUp_of_ne hne] at hr
  exact hne (h.last_reach hp hc (h.external r hr) hrp)

/-- Without a successor, it is all the garbage. -/
theorem Counted.free_garbage_nil (h : Counted next count live ext) (hp : 0 < ext p) (hc : count p = 1)
    (hn : next p = none) : Garbage next live ext p [p] where
  nodup := List.nodup_singleton p
  mem a := by
    rw [List.mem_singleton]
    constructor
    · rintro rfl
      exact ⟨h.external a hp, h.not_referenced hp hc⟩
    · rintro ⟨ha, hno⟩
      by_contra hne
      refine hno ?_
      obtain ⟨r, hr, hra⟩ := (h.free hp hc 0).reached a (Finset.mem_erase.mpr ⟨hne, ha⟩)
      exact ⟨r, by rwa [passOn_none hn] at hr, hra⟩

/-- With one, the rest is what giving up the reference to that leaves. -/
theorem Counted.free_garbage (h : Counted next count live ext) (hp : 0 < ext p) (hc : count p = 1)
    (hq : next p = some q) (hg : Garbage next (live.erase p) (passOn next ext p) q freed) :
    Garbage next live ext p (freed ++ [p]) where
  nodup := by
    refine List.nodup_append.mpr ⟨hg.nodup, List.nodup_singleton p, ?_⟩
    rintro a ha b hb rfl
    rw [List.mem_singleton] at hb
    exact Finset.ne_of_mem_erase ((hg.mem a).mp ha).1 hb
  mem a := by
    rw [List.mem_append, List.mem_singleton, hg.mem, giveUp_passOn hq, Finset.mem_erase]
    constructor
    · rintro (⟨⟨_, ha⟩, hno⟩ | rfl)
      · exact ⟨ha, hno⟩
      · exact ⟨h.external a hp, h.not_referenced hp hc⟩
    · rintro ⟨ha, hno⟩
      obtain rfl | hne := eq_or_ne a p
      · exact .inr rfl
      · exact .inl ⟨⟨hne, ha⟩, hno⟩

end Gecos.Library
