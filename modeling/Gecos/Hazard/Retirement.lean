import Gecos.Hazard.Scan
import Gecos.Library.Run
import Mathlib.Data.Finset.Prod
import Mathlib.Data.Finset.Card
import Mathlib.Logic.Equiv.Basic

/-! Retirement by hp.c: `free_node_later` with the scans it starts, among hazard slots that
change at any time. `Smr` is the memory of the code; `Hoard` says what it holds. -/
namespace Gecos.Hazard
open Library

/-- The index `thread * K + off` that the readers use. -/
def slot (t : Nat) (off : Bool) : Nat := t * K + if off then 1 else 0

/-- The hazard slots, the `mr_next` fields and the zombie lists, with the thread whose
`free_node_later` is scanning. Ghosts: the nodes retired and the nodes freed so far, in order. -/
structure Smr where
  HP : Nat → Ptr
  mrNext : Addr → Ptr
  zlist : Nat → ZombieList
  call : Option (Nat × Scan Ptr)
  retired : List Addr
  freed : List Addr

namespace Smr

def init : Smr := ⟨fun _ => none, fun _ => none, fun _ => ⟨none, 0⟩, none, [], []⟩

def publish (s : Smr) (i : Nat) (v : Ptr) : Smr := { s with HP := Function.update s.HP i v }

/-- `free_node_later(thread, n)` up to the scan it may call. -/
def retire (nbthreads : Nat) (s : Smr) (t : Nat) (n : Addr) : Smr :=
  let zl : ZombieList := ⟨some n, (s.zlist t).number + 1⟩
  { s with
    mrNext := Function.update s.mrNext n (s.zlist t).p, zlist := Function.update s.zlist t zl,
    call := if R nbthreads < zl.number then some (t, .test 0 []) else none }

def scan (s : Smr) : Option Smr :=
  s.call.bind fun (t, sc) => (sc.step s.HP s.mrNext (s.zlist t)).map fun (mr, zl, sc) =>
    { s with mrNext := mr, zlist := Function.update s.zlist t zl, call := sc.map fun sc => (t, sc) }

/-- `free_node(cur)` hands `cur` out: whoever gets it may write its `mr_next`. -/
def free (s : Smr) (junk : Ptr) : Option (Smr × Addr) :=
  match s.call with
  | some (t, .freeNode plist tmplist cur) => some ({ s with
      mrNext := Function.update s.mrNext cur junk, call := some (t, .sweep plist tmplist) }, cur)
  | _ => none

def logRetired (s : Smr) (n : Addr) : Smr := { s with retired := s.retired ++ [n] }

def logFreed (s : Smr) (n : Addr) : Smr := { s with freed := s.freed ++ [n] }

theorem scan_eq {s s' : Smr} (hs : s.scan = some s') : ∃ t sc mr zl sc', s.call = some (t, sc) ∧
    sc.step s.HP s.mrNext (s.zlist t) = some (mr, zl, sc') ∧
    s' = { s with
      mrNext := mr, zlist := Function.update s.zlist t zl, call := sc'.map fun sc => (t, sc) } := by
  cases hc : s.call with
  | none => simp [Smr.scan, hc] at hs
  | some x =>
    obtain ⟨t, sc⟩ := x
    simp only [Smr.scan, hc, Option.bind_some] at hs
    obtain ⟨⟨mr, zl, sc'⟩, hl, hh⟩ := Option.map_eq_some_iff.mp hs
    exact ⟨t, sc, mr, zl, sc', rfl, hl, hh.symm⟩

theorem free_eq {s s' : Smr} {junk : Ptr} {cur : Addr} (hs : s.free junk = some (s', cur)) :
    ∃ t plist tmplist, s.call = some (t, .freeNode plist tmplist cur) ∧ s' = { s with
      mrNext := Function.update s.mrNext cur junk, call := some (t, .sweep plist tmplist) } := by
  unfold Smr.free at hs
  split at hs <;> cases hs
  rename_i t plist tmplist hc
  exact ⟨t, plist, tmplist, hc, rfl⟩

end Smr

inductive Act where
  | publish (t : Nat) (off : Bool) (v : Ptr)
  | retire (t : Nat) (n : Addr)
  | scan
  | free (junk : Ptr)
  deriving DecidableEq

/-- The calls of `free_node_later` one after the other, each for a node that every earlier
retirement of has been followed by its reclamation. What is retired and what is freed is logged here. -/
def step (nbthreads : Nat) (s : Smr) : Act → Option Smr
  | .publish t off v => if t < nbthreads then some (s.publish (slot t off) v) else none
  | .retire t n =>
    if s.call.isNone ∧ t < maxThread ∧ s.retired.count n = s.freed.count n then
      some ((s.retire nbthreads t n).logRetired n)
    else none
  | .scan => s.scan
  | .free junk => (s.free junk).map fun (s, cur) => s.logFreed cur

/-- What hp.c holds: each thread's zombies as a list. -/
structure Hoard where
  HP : Nat → Ptr
  zombies : Nat → List Addr
  call : Option (Nat × Scan (List Addr))
  retired : List Addr
  freed : List Addr

namespace Hoard

def init : Hoard := ⟨fun _ => none, fun _ => [], none, [], []⟩

def publish (h : Hoard) (i : Nat) (v : Ptr) : Hoard := { h with HP := Function.update h.HP i v }

def retire (nbthreads : Nat) (h : Hoard) (t : Nat) (n : Addr) : Hoard :=
  { h with
    zombies := Function.update h.zombies t (n :: h.zombies t),
    call := if R nbthreads < (h.zombies t).length + 1 then some (t, .test 0 []) else none }

def scan (h : Hoard) : Option Hoard :=
  h.call.bind fun (t, sc) => (sc.listStep h.HP (h.zombies t)).map fun (zs, sc) =>
    { h with zombies := Function.update h.zombies t zs, call := sc.map fun sc => (t, sc) }

def free (h : Hoard) : Option (Hoard × Addr) :=
  match h.call with
  | some (t, .freeNode plist tmplist cur) => some ({ h with call := some (t, .sweep plist tmplist) }, cur)
  | _ => none

def logRetired (h : Hoard) (n : Addr) : Hoard := { h with retired := h.retired ++ [n] }

def logFreed (h : Hoard) (n : Addr) : Hoard := { h with freed := h.freed ++ [n] }

def step (nbthreads : Nat) (h : Hoard) : Act → Option Hoard
  | .publish t off v => if t < nbthreads then some (h.publish (slot t off) v) else none
  | .retire t n =>
    if h.call.isNone ∧ t < maxThread ∧ h.retired.count n = h.freed.count n then
      some ((h.retire nbthreads t n).logRetired n)
    else none
  | .scan => h.scan
  | .free _ => h.free.map fun (h, cur) => h.logFreed cur

/-- The nodes that only the running scan knows of. -/
def custody (h : Hoard) : List Addr :=
  match h.call with
  | some (_, sc) => sc.custody
  | none => []

/-- Where retired nodes wait: with the scan, or on a thread's zombie list. -/
def places (h : Hoard) : Option Nat → List Addr
  | none => h.custody
  | some t => h.zombies t

def Waits (h : Hoard) (n : Addr) : Prop := ∃ i, n ∈ h.places i

end Hoard

/-- The slots that a thread below `nbthreads` may write. -/
def Writable (nbthreads i : Nat) : Prop := i / K < nbthreads ∧ i % K < 2

instance (nbthreads : Nat) : DecidablePred (Writable nbthreads) := fun _ => instDecidableAnd

/-- How many of the first `i` slots may ever be non-null. -/
def writable (nbthreads i : Nat) : Nat := ((Finset.range i).filter (Writable nbthreads)).card

theorem slot_writable {nbthreads t : Nat} (ht : t < nbthreads) (off : Bool) :
    Writable nbthreads (slot t off) := by
  unfold Writable slot K
  cases off <;> simp <;> omega

theorem writable_succ {nbthreads i : Nat} (h : Writable nbthreads i) :
    writable nbthreads (i + 1) = writable nbthreads i + 1 := by
  rw [writable, Finset.range_add_one, Finset.filter_insert, if_pos h, Finset.card_insert_of_notMem (by simp)]
  rfl

theorem writable_mono (nbthreads i : Nat) : writable nbthreads i ≤ writable nbthreads (i + 1) := by
  apply Finset.card_le_card
  apply Finset.filter_subset_filter
  simp

theorem writable_le (nbthreads i : Nat) : writable nbthreads i ≤ 2 * nbthreads := by
  have hsub : (Finset.range i).filter (Writable nbthreads) ⊆
      (Finset.range nbthreads ×ˢ Finset.range 2).image fun x => x.1 * K + x.2 := by
    intro i hi
    obtain ⟨h₁, h₂⟩ := (Finset.mem_filter.mp hi).2
    refine Finset.mem_image.mpr ⟨(i / K, i % K), by simp [h₁, h₂], ?_⟩
    rw [Nat.mul_comm]
    exact Nat.div_add_mod i K
  have hcard := (Finset.card_le_card hsub).trans Finset.card_image_le
  rw [Finset.card_product, Finset.card_range, Finset.card_range] at hcard
  rw [Nat.mul_comm]
  exact hcard

/-- What a scan has collected, and what it keeps. -/
def Scan.Bounded (nbthreads : Nat) (zs : List Addr) : Scan (List Addr) → Prop
  | .test i plist => plist.length ≤ writable nbthreads i
  | .take i plist => i < H ∧ Writable nbthreads i ∧ plist.length ≤ writable nbthreads i
  | .sweep plist _ | .freeNode plist _ _ => plist.length ≤ 2 * nbthreads ∧ ∀ n ∈ zs, some n ∈ plist

/-- Retired nodes wait in one place each, until they are freed. -/
structure Hoard.Accounts (h : Hoard) : Prop where
  nodup : ∀ i, (h.places i).Nodup
  apart : ∀ i j n, n ∈ h.places i → n ∈ h.places j → i = j
  waits : ∀ n, h.Waits n → h.retired.count n = h.freed.count n + 1
  reclaimed : ∀ n, ¬ h.Waits n → h.retired.count n = h.freed.count n

/-- The accounts are in order, and where the readers keep to their slots no list outgrows its bound. -/
structure Hoard.Inv (nbthreads : Nat) (h : Hoard) : Prop extends h.Accounts where
  slots : ∀ i, h.HP i ≠ none → Writable nbthreads i
  short : ∀ t, (∀ sc, h.call ≠ some (t, sc)) → (h.zombies t).length ≤ R nbthreads
  scan : ∀ t sc, h.call = some (t, sc) → sc.Bounded nbthreads (h.zombies t)

namespace Hoard
variable {nbthreads : Nat} {h h' : Hoard} {t i : Nat} {n : Addr} {v : Ptr}

theorem Accounts.init : Accounts .init where
  nodup i := by cases i <;> simp [Hoard.init, places, custody]
  apart i j n hi := by cases i <;> simp [Hoard.init, places, custody] at hi
  waits n hn := by
    obtain ⟨i, hi⟩ := hn
    cases i <;> simp [Hoard.init, places, custody] at hi
  reclaimed n _ := rfl

theorem Inv.init (nbthreads : Nat) : Inv nbthreads .init where
  toAccounts := .init
  slots i hi := (hi rfl).elim
  short t _ := by simp [Hoard.init]
  scan t sc hsc := by simp [Hoard.init] at hsc

theorem Accounts.not_waits (hi : h.Accounts) (hc : h.retired.count n = h.freed.count n) : ¬ h.Waits n := by
  intro hw
  have := hi.waits n hw
  omega

theorem Accounts.publish (hi : h.Accounts) : (h.publish i v).Accounts :=
  ⟨hi.nodup, hi.apart, hi.waits, hi.reclaimed⟩

theorem Inv.publish (hi : Inv nbthreads h) (hw : Writable nbthreads i) : Inv nbthreads (h.publish i v) where
  toAccounts := hi.toAccounts.publish
  slots j hj := by
    by_cases he : j = i
    · exact he ▸ hw
    · exact hi.slots j (by simpa [Hoard.publish, Function.update_of_ne he] using hj)
  short := hi.short
  scan := hi.scan

theorem retire_places (hcall : h.call = none) (i : Option Nat) :
    (h.retire nbthreads t n).places i = if i = some t then n :: h.places i else h.places i := by
  cases i with
  | none =>
    by_cases hR : R nbthreads < (h.zombies t).length + 1 <;>
      simp [places, custody, Hoard.retire, hcall, hR, Scan.custody]
  | some i =>
    by_cases he : i = t
    · subst he; simp [places, Hoard.retire]
    · simp [places, Hoard.retire, he]

theorem retire_waits (hcall : h.call = none) (x : Addr) :
    (h.retire nbthreads t n).Waits x ↔ x = n ∨ h.Waits x := by
  constructor
  · rintro ⟨i, hx⟩
    rw [retire_places hcall] at hx
    split at hx
    · exact (List.mem_cons.mp hx).imp_right fun hx => ⟨i, hx⟩
    · exact .inr ⟨i, hx⟩
  · rintro (rfl | ⟨i, hx⟩)
    · exact ⟨some t, by simp [retire_places hcall]⟩
    · exact ⟨i, by rw [retire_places hcall]; split <;> simp [hx]⟩

theorem logRetired_places (i : Option Nat) : (h.logRetired n).places i = h.places i := rfl

theorem logRetired_waits (x : Addr) : (h.logRetired n).Waits x ↔ h.Waits x := Iff.rfl

/-- Retirement puts the node in one more place. -/
theorem Accounts.retire (hi : h.Accounts) (hcall : h.call = none) (hn : ¬ h.Waits n) :
    ((h.retire nbthreads t n).logRetired n).Accounts := by
  have hplace := @retire_places nbthreads h t n hcall
  have hnot (i : Option Nat) : n ∉ h.places i := fun hi => hn ⟨i, hi⟩
  have hw := @retire_waits nbthreads h t n hcall
  have hc (x : Addr) (hx : x ≠ n) :
      ((h.retire nbthreads t n).logRetired n).retired.count x = h.retired.count x := by
    simp [Hoard.retire, logRetired, List.count_append, Ne.symm hx]
  constructor
  · intro i
    rw [logRetired_places, hplace]
    split
    · exact List.nodup_cons.mpr ⟨hnot i, hi.nodup i⟩
    · exact hi.nodup i
  · intro i j x hx hy
    have hap := hi.apart i j x
    have hxi := hnot i
    have hxj := hnot j
    rw [logRetired_places, hplace] at hx hy
    grind
  · intro x hx
    by_cases hxn : x = n
    · subst hxn
      have := hi.reclaimed x hn
      simp [Hoard.retire, logRetired, List.count_append, this]
    · rw [hc x hxn]
      exact hi.waits x (((hw x).mp hx).resolve_left hxn)
  · intro x hx
    rw [logRetired_waits, hw, not_or] at hx
    rw [hc x hx.1]
    exact hi.reclaimed x hx.2

theorem Inv.retire (hi : Inv nbthreads h) (hcall : h.call = none) (hn : ¬ h.Waits n) :
    Inv nbthreads ((h.retire nbthreads t n).logRetired n) := by
  refine ⟨hi.toAccounts.retire hcall hn, hi.slots, fun i hci => ?_, fun i sc hsc => ?_⟩
  · by_cases he : i = t
    · subst he
      by_cases hR : R nbthreads < (h.zombies i).length + 1
      · exact (hci (.test 0 []) (by simp [Hoard.retire, logRetired, hR])).elim
      · simp only [Hoard.retire, logRetired, Function.update_self, List.length_cons]
        omega
    · simpa [Hoard.retire, logRetired, Function.update_of_ne he] using hi.short i (by simp [hcall])
  · simp only [Hoard.retire, logRetired] at hsc
    split at hsc
    · cases hsc; simp [Scan.Bounded]
    · contradiction

/-- What a step of the scan does to the places: nothing, or it turns the zombie list over to the
scan, or it puts the first node of `tmplist` back on the zombie list. -/
theorem listStep_moves {sc : Scan (List Addr)} {HP : Nat → Ptr} {zs zs' : List Addr} {sc' : Option (Scan (List Addr))}
    (hs : sc.listStep HP zs = some (zs', sc')) :
    (sc'.elim [] Scan.custody = sc.custody ∧ zs' = zs) ∨
      (sc.custody = [] ∧ sc'.elim [] Scan.custody = zs ∧ zs' = []) ∨
      ∃ n, sc.custody = n :: sc'.elim [] Scan.custody ∧ zs' = n :: zs := by
  cases sc with
  | test i plist =>
    simp only [Scan.listStep] at hs
    split at hs <;> cases hs
    · left
      split <;> exact ⟨rfl, rfl⟩
    · exact .inr (.inl ⟨rfl, rfl, rfl⟩)
  | take i plist =>
    cases hs
    exact .inl ⟨rfl, rfl⟩
  | sweep plist tmp =>
    cases tmp with
    | nil =>
      cases hs
      exact .inl ⟨rfl, rfl⟩
    | cons cur tmp =>
      simp only [Scan.listStep] at hs
      split at hs <;> cases hs
      · exact .inr (.inr ⟨cur, rfl, rfl⟩)
      · exact .inl ⟨rfl, rfl⟩
  | freeNode => simp [Scan.listStep] at hs

/-- The bounds hold after a step of the scan: only slots that may be written are collected, and
the nodes kept are all different and collected. -/
theorem listStep_bounded {sc : Scan (List Addr)} {HP : Nat → Ptr} {zs zs' : List Addr} {sc' : Option (Scan (List Addr))}
    (hslots : ∀ i, HP i ≠ none → Writable nbthreads i) (hnd : zs.Nodup) (hb : sc.Bounded nbthreads zs)
    (hs : sc.listStep HP zs = some (zs', sc')) :
    (∀ l ∈ sc', l.Bounded nbthreads zs') ∧ (sc' = none → zs'.length ≤ R nbthreads) := by
  cases sc with
  | test i plist =>
    simp only [Scan.listStep] at hs
    split at hs <;> cases hs
    · rename_i hi
      refine ⟨?_, by simp⟩
      rintro l ⟨⟩
      split
      · exact le_trans hb (writable_mono nbthreads i)
      · exact ⟨hi, hslots i (by assumption), hb⟩
    · refine ⟨?_, by simp⟩
      rintro l ⟨⟩
      exact ⟨le_trans hb (writable_le nbthreads i), by simp⟩
  | take i plist =>
    cases hs
    refine ⟨?_, by simp⟩
    rintro l ⟨⟩
    simp only [Scan.Bounded, List.length_append, List.length_singleton, writable_succ hb.2.1]
    have := hb.2.2
    omega
  | sweep plist tmp =>
    cases tmp with
    | nil =>
      cases hs
      refine ⟨by simp, fun _ => ?_⟩
      have hsub : zs.map some ⊆ plist := by
        intro x hx
        obtain ⟨n, hn, rfl⟩ := List.mem_map.mp hx
        exact hb.2 n hn
      have hle := ((hnd.map (Option.some_injective _)).subperm hsub).length_le
      have hp := hb.1
      rw [List.length_map] at hle
      unfold R K
      omega
    | cons cur tmp =>
      simp only [Scan.listStep] at hs
      split at hs <;> cases hs
      · rename_i hm
        refine ⟨?_, by simp⟩
        rintro l ⟨⟩
        exact ⟨hb.1, fun n hn => (List.mem_cons.mp hn).elim (fun he => he ▸ hm) (hb.2 n)⟩
      · refine ⟨?_, by simp⟩
        rintro l ⟨⟩
        exact hb
  | freeNode => simp [Scan.listStep] at hs

/-- Such a move keeps every node in exactly one place. -/
private theorem places_moved {P P' : Option Nat → List Addr} (hnd : ∀ i, (P i).Nodup)
    (hap : ∀ i j n, n ∈ P i → n ∈ P j → i = j) (hne : ∀ i ≠ t, P' (some i) = P (some i))
    (hm : (P' none = P none ∧ P' (some t) = P (some t)) ∨
      (P none = [] ∧ P' none = P (some t) ∧ P' (some t) = []) ∨
      ∃ n, P none = n :: P' none ∧ P' (some t) = n :: P (some t)) :
    (∀ i, (P' i).Nodup) ∧ (∀ i j n, n ∈ P' i → n ∈ P' j → i = j) ∧
      ∀ n, (∃ i, n ∈ P' i) ↔ ∃ i, n ∈ P i := by
  have hother (i : Option Nat) (h₁ : i ≠ none) (h₂ : i ≠ some t) : P' i = P i := by
    obtain ⟨i, rfl⟩ := Option.ne_none_iff_exists'.mp h₁
    exact hne i fun he => h₂ (he ▸ rfl)
  rcases hm with ⟨h₁, h₂⟩ | ⟨h₁, h₂, h₃⟩ | ⟨n, h₁, h₂⟩
  · obtain rfl : P' = P := by
      funext i
      by_cases hn : i = none
      · rw [hn, h₁]
      by_cases ht : i = some t
      · rw [ht, h₂]
      · exact hother i hn ht
    exact ⟨hnd, hap, fun n => Iff.rfl⟩
  · have hswap (i : Option Nat) : P' i = P (Equiv.swap none (some t) i) := by
      by_cases hn : i = none
      · rw [hn, h₂, Equiv.swap_apply_left]
      by_cases ht : i = some t
      · rw [ht, h₃, Equiv.swap_apply_right, h₁]
      · rw [hother i hn ht, Equiv.swap_apply_of_ne_of_ne hn ht]
    simp only [hswap]
    exact ⟨fun i => hnd _, fun i j n hi hj => (Equiv.swap _ _).injective (hap _ _ n hi hj),
      fun n => (@Function.Surjective.exists _ _ _ (Equiv.swap none (some t)).surjective (n ∈ P ·)).symm⟩
  · have hn := hnd none
    rw [h₁, List.nodup_cons] at hn
    have hnP (i : Option Nat) : n ∈ P i → i = none := fun hi => (hap none i n (by simp [h₁]) hi).symm
    -- only `n` moves, from the scan to the list
    have hmem (x : Addr) (i : Option Nat) : x ∈ P' i ↔ x = n ∧ i = some t ∨ x ≠ n ∧ x ∈ P i := by
      have hx := hnP i
      by_cases hi : i = none
      · subst hi; rw [h₁]; grind
      by_cases ht : i = some t
      · subst ht; rw [h₂]; grind
      · rw [hother i hi ht]; grind
    refine ⟨fun i => ?_, fun i j x hi hj => ?_, fun x => ?_⟩
    · by_cases hi : i = none
      · exact hi ▸ hn.2
      by_cases ht : i = some t
      · rw [ht, h₂]
        exact List.nodup_cons.mpr ⟨fun hm => Option.some_ne_none _ (hnP _ hm), hnd _⟩
      · rw [hother i hi ht]; exact hnd i
    · have := hap i j x
      rw [hmem] at hi hj
      grind
    · simp only [hmem]
      by_cases hx : x = n
      · subst hx
        simp only [true_and, ne_eq, not_true, false_and, or_false, exists_eq, true_iff]
        exact ⟨none, by simp [h₁]⟩
      · simp [hx]

/-- A step of the scan is one of its list form, on the zombies of the thread that scans. -/
theorem scan_eq (hs : h.scan = some h') : ∃ t sc zs sc', h.call = some (t, sc) ∧
    sc.listStep h.HP (h.zombies t) = some (zs, sc') ∧
    h' = { h with zombies := Function.update h.zombies t zs, call := sc'.map fun sc => (t, sc) } := by
  cases hc : h.call with
  | none => simp [Hoard.scan, hc] at hs
  | some x =>
    obtain ⟨t, sc⟩ := x
    simp only [Hoard.scan, hc, Option.bind_some] at hs
    obtain ⟨⟨zs, sc'⟩, hl, hh⟩ := Option.map_eq_some_iff.mp hs
    exact ⟨t, sc, zs, sc', rfl, hl, hh.symm⟩

theorem scan_some {sc : Scan (List Addr)} {zs : List Addr} {sc' : Option (Scan (List Addr))}
    (hc : h.call = some (t, sc)) (hl : sc.listStep h.HP (h.zombies t) = some (zs, sc')) :
    h.scan =
      some { h with zombies := Function.update h.zombies t zs, call := sc'.map fun sc => (t, sc) } := by
  simp [Hoard.scan, hc, hl]

theorem free_some {plist : List Ptr} {tmp : List Addr} (hc : h.call = some (t, .freeNode plist tmp n)) :
    h.free = some ({ h with call := some (t, .sweep plist tmp) }, n) := by
  simp [Hoard.free, hc]

/-- A step of the scan moves retired nodes about, and no other. -/
theorem Accounts.scan_places (hi : h.Accounts) (hs : h.scan = some h') :
    (∀ i, (h'.places i).Nodup) ∧ (∀ i j n, n ∈ h'.places i → n ∈ h'.places j → i = j) ∧
      ∀ n, h'.Waits n ↔ h.Waits n := by
  obtain ⟨t, sc, zs, sc', hc, hl, rfl⟩ := scan_eq hs
  have hmoves := listStep_moves hl
  refine places_moved hi.nodup hi.apart (t := t) (fun i hi => Function.update_of_ne hi _ _) ?_
  have hcust : h.places none = sc.custody := by simp [places, custody, hc]
  have hcust' : places { h with zombies := Function.update h.zombies t zs, call := sc'.map fun sc => (t, sc) }
      none = sc'.elim [] Scan.custody := by cases sc' <;> simp [places, custody]
  rw [hcust, hcust']
  simpa [places] using hmoves

theorem scan_logs (hs : h.scan = some h') : h'.retired = h.retired ∧ h'.freed = h.freed := by
  obtain ⟨t, sc, zs, sc', _, _, rfl⟩ := scan_eq hs
  exact ⟨rfl, rfl⟩

theorem Accounts.scan (hi : h.Accounts) (hs : h.scan = some h') : h'.Accounts := by
  obtain ⟨hnd, hap, hw⟩ := hi.scan_places hs
  obtain ⟨hr, hf⟩ := scan_logs hs
  refine ⟨hnd, hap, fun n hn => ?_, fun n hn => ?_⟩
  · rw [hr, hf]
    exact hi.waits n ((hw n).mp hn)
  · rw [hr, hf]
    exact hi.reclaimed n fun h => hn ((hw n).mpr h)

theorem Inv.step_scan (hi : Inv nbthreads h) (hs : h.scan = some h') : Inv nbthreads h' := by
  have hacc := hi.toAccounts.scan hs
  obtain ⟨t, sc, zs, sc', hc, hl, rfl⟩ := scan_eq hs
  obtain ⟨hb, hret⟩ := listStep_bounded hi.slots (hi.nodup (some t)) (hi.scan t sc hc) hl
  refine ⟨hacc, hi.slots, fun i hci => ?_, fun i sc₁ hsc => ?_⟩
  · by_cases hit : i = t
    · subst hit
      cases sc' with
      | none => simpa using hret rfl
      | some l => exact (hci l rfl).elim
    · simpa [Function.update_of_ne hit] using hi.short i fun sc₁ h₁ => hit (by cases hc.symm.trans h₁; rfl)
  · obtain ⟨l, rfl, he⟩ := Option.map_eq_some_iff.mp hsc
    cases he
    simpa using hb _ rfl

theorem free_eq (hs : h.free = some (h', n)) : ∃ t plist tmp, h.call = some (t, .freeNode plist tmp n) ∧
    h' = { h with call := some (t, .sweep plist tmp) } := by
  unfold Hoard.free at hs
  split at hs <;> cases hs
  rename_i t plist tmp hc
  exact ⟨t, plist, tmp, hc, rfl⟩

/-- `free_node` takes exactly its node out of the scan's custody. -/
theorem Accounts.free_places {plist : List Ptr} {tmp : List Addr} (hi : h.Accounts)
    (hc : h.call = some (t, .freeNode plist tmp n)) (x : Addr) (i : Option Nat) :
    x ∈ places { h with call := some (t, .sweep plist tmp) } i ↔ x ≠ n ∧ x ∈ h.places i := by
  have hcust : h.places none = n :: tmp := by simp [places, custody, hc, Scan.custody]
  have hnd := hi.nodup none
  rw [hcust, List.nodup_cons] at hnd
  cases i with
  | none =>
    change x ∈ tmp ↔ _
    rw [hcust]
    grind
  | some i =>
    refine ⟨fun hx => ⟨fun he => ?_, hx⟩, And.right⟩
    cases hi.apart (some i) none n (he ▸ hx) (by simp [hcust])

theorem Accounts.free_waits {plist : List Ptr} {tmp : List Addr} (hi : h.Accounts)
    (hc : h.call = some (t, .freeNode plist tmp n)) (x : Addr) :
    Waits { h with call := some (t, .sweep plist tmp) } x ↔ x ≠ n ∧ h.Waits x := by
  simp only [Waits, hi.free_places hc]
  exact exists_and_left

theorem logFreed_places (i : Option Nat) : (h.logFreed n).places i = h.places i := rfl

theorem logFreed_waits (x : Addr) : (h.logFreed n).Waits x ↔ h.Waits x := Iff.rfl

theorem waits_of_freeNode {plist : List Ptr} {tmp : List Addr}
    (hc : h.call = some (t, .freeNode plist tmp n)) : h.Waits n :=
  ⟨none, by simp [places, custody, hc, Scan.custody]⟩

theorem Accounts.free (hi : h.Accounts) (hs : h.free = some (h', n)) : (h'.logFreed n).Accounts := by
  obtain ⟨t, plist, tmp, hc, rfl⟩ := free_eq hs
  have hmem := hi.free_places hc
  have hw := hi.free_waits hc
  have hcust : h.places none = n :: tmp := by simp [places, custody, hc, Scan.custody]
  have hf (x : Addr) : (h.freed ++ [n]).count x = h.freed.count x + if n = x then 1 else 0 := by
    rw [List.count_append, List.count_singleton]
    simp
  constructor
  · intro i
    cases i with
    | none =>
      have hnd := hi.nodup none
      rw [hcust, List.nodup_cons] at hnd
      exact hnd.2
    | some i => exact hi.nodup (some i)
  · intro i j x hx hy
    rw [logFreed_places, hmem] at hx hy
    exact hi.apart i j x hx.2 hy.2
  · intro x hx
    rw [logFreed_waits, hw] at hx
    simp only [logFreed]
    rw [hf, if_neg (Ne.symm hx.1)]
    exact hi.waits x hx.2
  · intro x hx
    rw [logFreed_waits, hw, not_and_or, not_not] at hx
    simp only [logFreed]
    by_cases hxn : x = n
    · rw [hf, if_pos hxn.symm, hxn]
      exact hi.waits n (waits_of_freeNode hc)
    · rw [hf, if_neg (Ne.symm hxn)]
      exact hi.reclaimed x (hx.resolve_left hxn)

theorem Inv.free (hi : Inv nbthreads h) (hs : h.free = some (h', n)) : Inv nbthreads (h'.logFreed n) := by
  have hacc := hi.toAccounts.free hs
  obtain ⟨t, plist, tmp, hc, rfl⟩ := free_eq hs
  have hb := hi.scan t _ hc
  refine ⟨hacc, hi.slots, fun i hci => ?_, ?_⟩
  · exact hi.short i fun sc hsc => hci (.sweep plist tmp) (by cases hc.symm.trans hsc; rfl)
  · rintro i sc ⟨⟩
    exact hb

theorem Inv.step {a : Act} (hi : Inv nbthreads h) (hs : h.step nbthreads a = some h') : Inv nbthreads h' := by
  cases a with
  | publish t off v =>
    simp only [Hoard.step] at hs
    split at hs <;> cases hs
    exact hi.publish (slot_writable (by assumption) off)
  | retire t n =>
    simp only [Hoard.step] at hs
    split at hs <;> cases hs
    rename_i hg
    exact hi.retire (Option.isNone_iff_eq_none.mp hg.1) (hi.not_waits hg.2.2)
  | scan => exact hi.step_scan hs
  | free junk =>
    obtain ⟨⟨h₁, cur⟩, hf, rfl⟩ := Option.map_eq_some_iff.mp hs
    exact hi.free hf

end Hoard
end Gecos.Hazard
