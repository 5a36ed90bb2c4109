import Gecos.Library.Chain
import Gecos.Table.Memory

/-! `scan` of hp.c: first over the links of memory, one shared access a step, then over lists. -/
namespace Gecos.Hazard
open Library

/-- `MAX_THREAD` -/
def maxThread : Nat := 256

/-- `K`, the hazard slots of a thread -/
def K : Nat := 3

/-- `H`, all hazard slots -/
def H : Nat := K * maxThread

/-- `R`, as defined without `DIRECT_SCAN` -/
def R (nbthreads : Nat) : Nat := 100 + 2 * (nbthreads * K)

/-- `zombie_list` -/
structure ZombieList where
  p : Ptr
  number : Nat

/-- Where `scan` stands. `plist` holds what was collected so far: sorting and searching it only
decides membership. `tmplist` is a pointer in the code, and a list in the abstract. -/
inductive Scan (τ : Type) where
  | test (i : Nat) (plist : List Ptr)
  | take (i : Nat) (plist : List Ptr)
  | sweep (plist : List Ptr) (tmplist : τ)
  | freeNode (plist : List Ptr) (tmplist : τ) (cur : Addr)
  deriving DecidableEq

namespace Scan
variable {τ : Type}

def plist : Scan τ → List Ptr
  | .test _ plist | .take _ plist | .sweep plist _ | .freeNode plist _ _ => plist

/-- One step of `scan` by the thread that owns `zl`, `none` where it calls `free_node`. It tests
a slot, takes its content by a second load, or handles the next node of `tmplist`. -/
def step (HP : Nat → Ptr) (mr : Addr → Ptr) (zl : ZombieList) :
    Scan Ptr → Option ((Addr → Ptr) × ZombieList × Option (Scan Ptr))
  | .test i plist =>
    if i < H then some (mr, zl, some (if HP i = none then .test (i + 1) plist else .take i plist))
    else some (mr, ⟨none, 0⟩, some (.sweep plist zl.p))
  | .take i plist => some (mr, zl, some (.test (i + 1) (plist ++ [HP i])))
  | .sweep _ none => some (mr, zl, none)
  | .sweep plist (some cur) =>
    if some cur ∈ plist then
      some (Function.update mr cur zl.p, ⟨some cur, zl.number + 1⟩, some (.sweep plist (mr cur)))
    else some (mr, zl, some (.freeNode plist (mr cur) cur))
  | .freeNode .. => none

/-- The same where the lists are lists. -/
def listStep (HP : Nat → Ptr) (zs : List Addr) :
    Scan (List Addr) → Option (List Addr × Option (Scan (List Addr)))
  | .test i plist =>
    if i < H then some (zs, some (if HP i = none then .test (i + 1) plist else .take i plist))
    else some ([], some (.sweep plist zs))
  | .take i plist => some (zs, some (.test (i + 1) (plist ++ [HP i])))
  | .sweep _ [] => some (zs, none)
  | .sweep plist (cur :: tmplist) =>
    if some cur ∈ plist then some (cur :: zs, some (.sweep plist tmplist))
    else some (zs, some (.freeNode plist tmplist cur))
  | .freeNode .. => none

/-- The nodes that only the scan knows of. -/
def custody : Scan (List Addr) → List Addr
  | .test .. | .take .. => []
  | .sweep _ tmplist => tmplist
  | .freeNode _ tmplist cur => cur :: tmplist

/-- A scan of memory stands where a scan of lists does. -/
def Rep (mr : Addr → Ptr) : Scan Ptr → Scan (List Addr) → Prop
  | .test i plist, .test i' plist' | .take i plist, .take i' plist' => i = i' ∧ plist = plist'
  | .sweep plist p, .sweep plist' l => plist = plist' ∧ Chain mr p l
  | .freeNode plist p cur, .freeNode plist' l cur' => plist = plist' ∧ Chain mr p l ∧ cur = cur'
  | _, _ => False

end Scan

/-- The zombie list in memory is the list `zs`, and its length is recorded. -/
structure ZombieList.Rep (mr : Addr → Ptr) (zl : ZombieList) (zs : List Addr) : Prop where
  chain : Chain mr zl.p zs
  number : zl.number = zs.length

variable {HP : Nat → Ptr} {mr mr' : Addr → Ptr} {zl zl' : ZombieList} {zs zs' : List Addr}
  {sc : Scan Ptr} {sc' : Option (Scan Ptr)} {l : Scan (List Addr)} {l' : Option (Scan (List Addr))}
  {n : Addr}

theorem ZombieList.Rep.congr (h : zl.Rep mr zs) (hm : ∀ n ∈ zs, mr' n = mr n) : zl.Rep mr' zs :=
  ⟨h.chain.congr hm, h.number⟩

/-- Putting a node in front, as `free_node_later` and `scan` both do. -/
theorem ZombieList.Rep.cons (h : zl.Rep mr zs) (hn : n ∉ zs) :
    (⟨some n, zl.number + 1⟩ : ZombieList).Rep (Function.update mr n zl.p) (n :: zs) where
  chain := by
    refine ⟨rfl, ?_⟩
    rw [Function.update_self]
    exact h.chain.update hn
  number := by simp [h.number]

theorem Scan.Rep.congr (h : sc.Rep mr l) (hm : ∀ n ∈ l.custody, mr' n = mr n) : sc.Rep mr' l := by
  cases sc <;> cases l <;> try contradiction
  case test.test | take.take => exact h
  case sweep.sweep => exact ⟨h.1, h.2.congr hm⟩
  case freeNode.freeNode => exact ⟨h.1, h.2.1.congr fun n hn => hm n (by simp [custody, hn]), h.2.2⟩

/-- A step over memory is the step over the lists it represents, and writes only nodes that are
in the scan's custody. -/
theorem Scan.step_rep {r : (Addr → Ptr) × ZombieList × Option (Scan Ptr)} (hz : zl.Rep mr zs)
    (hs : sc.Rep mr l) (hap : ∀ n ∈ l.custody, n ∉ zs) (h : sc.step HP mr zl = some r) :
    ∃ zs' l', l.listStep HP zs = some (zs', l') ∧ r.2.1.Rep r.1 zs' ∧ Option.Rel (Scan.Rep r.1) r.2.2 l' ∧
      ∀ n, n ∉ l.custody → r.1 n = mr n := by
  cases sc <;> cases l <;> try contradiction
  case test.test i plist i' plist' =>
    obtain ⟨rfl, rfl⟩ := hs
    simp only [Scan.step] at h
    split at h <;> cases h
    · rename_i hi
      refine ⟨zs, some (if HP i = none then .test (i + 1) plist else .take i plist), by simp [listStep, hi], hz,
        .some ?_, by simp⟩
      split <;> exact ⟨rfl, rfl⟩
    · rename_i hi
      exact ⟨[], some (.sweep plist zs), by simp [listStep, hi], ⟨rfl, rfl⟩, .some ⟨rfl, hz.chain⟩, by simp⟩
  case take.take i plist i' plist' =>
    obtain ⟨rfl, rfl⟩ := hs
    cases h
    exact ⟨zs, some (.test (i + 1) (plist ++ [HP i])), rfl, hz, .some ⟨rfl, rfl⟩, by simp⟩
  case sweep.sweep plist p plist' tmp =>
    obtain ⟨rfl, hc⟩ := hs
    cases tmp with
    | nil =>
      obtain rfl : p = none := hc
      cases h
      exact ⟨zs, none, rfl, hz, .none, by simp⟩
    | cons cur tmp =>
      obtain ⟨rfl, hc⟩ := hc
      have hnd : cur ∉ tmp := (List.nodup_cons.mp (Chain.nodup (show Chain mr (some cur) (cur :: tmp) from ⟨rfl, hc⟩))).1
      simp only [Scan.step] at h
      split at h <;> cases h
      · rename_i hm
        refine ⟨cur :: zs, some (.sweep plist tmp), by simp [listStep, hm], hz.cons (hap cur (by simp [custody])),
          .some ⟨rfl, hc.update hnd⟩, fun n hn => Function.update_of_ne ?_ _ _⟩
        rintro rfl
        simp [custody] at hn
      · rename_i hm
        exact ⟨zs, some (.freeNode plist tmp cur), by simp [listStep, hm], hz, .some ⟨rfl, hc, rfl⟩, by simp⟩

end Gecos.Hazard
