import Gecos.Hazard.Retirement

/-! hp.c refines its account by lists, and what follows for whole runs. -/
namespace Gecos.Hazard
open Library
variable {nbthreads : Nat} {s s' : Smr} {h h' : Hoard} {t : Nat} {n : Addr} {v junk : Ptr} {a : Act}

/-- The memory of hp.c holds what `h` says. -/
structure Rep (s : Smr) (h : Hoard) : Prop where
  HP : s.HP = h.HP
  zombies : ∀ t, (s.zlist t).Rep s.mrNext (h.zombies t)
  call : Option.Rel (fun x y => x.1 = y.1 ∧ x.2.Rep s.mrNext y.2) s.call h.call
  retired : s.retired = h.retired
  freed : s.freed = h.freed

theorem Rep.init : Rep .init .init :=
  ⟨rfl, fun _ => ⟨rfl, rfl⟩, .none, rfl, rfl⟩

theorem Rep.publish (h : Rep s h') (i : Nat) : Rep (s.publish i v) (h'.publish i v) :=
  ⟨by simp [Smr.publish, Hoard.publish, h.HP], h.zombies, h.call, h.retired, h.freed⟩

/-- Links of nodes that do not wait are nobody's concern here. -/
theorem Rep.frame (hr : Rep s h) (mr : Addr → Ptr) (hm : ∀ n, h.Waits n → mr n = s.mrNext n) :
    Rep { s with mrNext := mr } h := by
  refine ⟨hr.HP, fun t => (hr.zombies t).congr fun n hn => hm n ⟨some t, hn⟩, ?_, hr.retired, hr.freed⟩
  have hcall := hr.call
  cases hc : h.call with
  | none =>
    rw [hc] at hcall
    cases hsc : s.call with
    | none => exact .none
    | some x => rw [hsc] at hcall; cases hcall
  | some y =>
    rw [hc] at hcall
    cases hsc : s.call with
    | none => rw [hsc] at hcall; cases hcall
    | some x =>
      rw [hsc] at hcall
      cases hcall with
      | some hxy => exact .some ⟨hxy.1, hxy.2.congr fun n hn => hm n ⟨none, by simpa [Hoard.places, Hoard.custody, hc] using hn⟩⟩

theorem Rep.logRetired (hr : Rep s h) (n : Addr) : Rep (s.logRetired n) (h.logRetired n) :=
  ⟨hr.HP, hr.zombies, hr.call, by simp [Smr.logRetired, Hoard.logRetired, hr.retired], hr.freed⟩

theorem Rep.logFreed (hr : Rep s h) (n : Addr) : Rep (s.logFreed n) (h.logFreed n) :=
  ⟨hr.HP, hr.zombies, hr.call, hr.retired, by simp [Smr.logFreed, Hoard.logFreed, hr.freed]⟩

theorem Rep.retire (hr : Rep s h) (hn : ¬ h.Waits n) :
    Rep (s.retire nbthreads t n) (h.retire nbthreads t n) := by
  have hnot (i : Nat) : n ∉ h.zombies i := fun hi => hn ⟨some i, hi⟩
  refine ⟨hr.HP, fun i => ?_, ?_, hr.retired, hr.freed⟩
  · by_cases hi : i = t
    · subst hi
      simpa [Smr.retire, Hoard.retire] using (hr.zombies i).cons (hnot i)
    · simp only [Smr.retire, Hoard.retire, Function.update_of_ne hi]
      exact (hr.zombies i).congr fun x hx => Function.update_of_ne (ne_of_mem_of_not_mem hx (hnot i)) _ _
  · simp only [Smr.retire, Hoard.retire, (hr.zombies t).number]
    split
    · exact .some ⟨rfl, rfl, rfl⟩
    · exact .none

theorem Rep.call_some (hr : Rep s h) {sc : Scan Ptr} (hc : s.call = some (t, sc)) :
    ∃ l, h.call = some (t, l) ∧ sc.Rep s.mrNext l := by
  have hcall := hr.call
  rw [hc] at hcall
  cases hl : h.call with
  | none => rw [hl] at hcall; cases hcall
  | some y =>
    rw [hl] at hcall
    cases hcall with
    | some hy =>
      obtain ⟨t', l⟩ := y
      obtain ⟨rfl, hsc⟩ := hy
      exact ⟨l, rfl, hsc⟩

theorem Rep.call_none (hr : Rep s h) : s.call = none ↔ h.call = none := by
  have hcall := hr.call
  constructor <;> intro hc <;> rw [hc] at hcall
  · generalize h.call = c at hcall
    cases hcall
    rfl
  · generalize s.call = c at hcall
    cases hcall
    rfl

/-- `scan` writes only to nodes that wait. -/
theorem Rep.scan (hr : Rep s h) (hi : h.Accounts) (hs : s.scan = some s') :
    ∃ h', h.scan = some h' ∧ Rep s' h' ∧ ∀ n, ¬ h.Waits n → s'.mrNext n = s.mrNext n := by
  obtain ⟨t, sc, mr, zl, sc', hc, hstep, rfl⟩ := Smr.scan_eq hs
  obtain ⟨l, hl, hsc⟩ := hr.call_some hc
  have hplace : h.places none = l.custody := by simp [Hoard.places, Hoard.custody, hl]
  have hap (i : Nat) : ∀ n ∈ l.custody, n ∉ h.zombies i := by
    intro n hn hz
    cases hi.apart none (some i) n (hplace ▸ hn) hz
  obtain ⟨zs, l', hlist, hz, hl', hframe⟩ := Scan.step_rep (hr.zombies t) hsc (hap t) hstep
  rw [hr.HP] at hlist
  refine ⟨_, Hoard.scan_some hl hlist, ⟨hr.HP, fun i => ?_, ?_, hr.retired, hr.freed⟩, fun n hn => ?_⟩
  · by_cases hit : i = t
    · subst hit; simpa using hz
    · simp only [Function.update_of_ne hit]
      exact (hr.zombies i).congr fun x hx => hframe x fun hm => hap i x hm hx
  · cases hl' with
    | none => exact .none
    | some h₁ => exact .some ⟨rfl, h₁⟩
  · exact hframe n fun hm => hn ⟨none, hplace ▸ hm⟩

theorem Rep.free (hr : Rep s h) (hi : h.Accounts) (hs : s.free junk = some (s', n)) :
    ∃ h', h.free = some (h', n) ∧ Rep s' h' := by
  obtain ⟨t, plist, tmp, hc, rfl⟩ := Smr.free_eq hs
  obtain ⟨l, hl, hsc⟩ := hr.call_some hc
  cases l with
  | test | take | sweep => exact hsc.elim
  | freeNode plist' tmp' cur' =>
    obtain ⟨rfl, hchain, rfl⟩ := hsc
    have hplace : h.places none = n :: tmp' := by simp [Hoard.places, Hoard.custody, hl, Scan.custody]
    have hnd := hi.nodup none
    rw [hplace, List.nodup_cons] at hnd
    refine ⟨_, Hoard.free_some hl, hr.HP, fun i => ?_, .some ⟨rfl, rfl, hchain.update hnd.1⟩, hr.retired, hr.freed⟩
    refine (hr.zombies i).congr fun x hx => Function.update_of_ne ?_ _ _
    rintro rfl
    cases hi.apart none (some i) x (by simp [hplace]) hx

/-- What the code does to memory, the account by lists does too. -/
theorem Rep.step (hr : Rep s h) (hi : h.Accounts) (hs : step nbthreads s a = some s') :
    ∃ h', h.step nbthreads a = some h' ∧ Rep s' h' := by
  cases a with
  | publish t off v =>
    simp only [Hazard.step] at hs
    split at hs <;> cases hs
    rename_i ht
    exact ⟨_, if_pos ht, hr.publish _⟩
  | retire t n =>
    simp only [Hazard.step] at hs
    split at hs <;> cases hs
    rename_i hg
    rw [hr.retired, hr.freed, Option.isNone_iff_eq_none, hr.call_none, ← Option.isNone_iff_eq_none] at hg
    exact ⟨_, if_pos hg, (hr.retire (hi.not_waits hg.2.2)).logRetired n⟩
  | scan =>
    obtain ⟨h', hh, hr', _⟩ := hr.scan hi hs
    exact ⟨h', hh, hr'⟩
  | free junk =>
    obtain ⟨⟨s₁, cur⟩, hf, rfl⟩ := Option.map_eq_some_iff.mp hs
    obtain ⟨h₁, hh, hr₁⟩ := hr.free hi hf
    exact ⟨h₁.logFreed cur, by simp [Hoard.step, hh], hr₁.logFreed cur⟩

theorem rep_reachable (h : Reachable (Steps (step nbthreads)) .init s) :
    ∃ h, Rep s h ∧ h.Inv nbthreads := by
  apply h.invariant (P := fun s => ∃ h, Rep s h ∧ h.Inv nbthreads)
  · exact ⟨.init, .init, .init nbthreads⟩
  · rintro s a t ⟨h, hr, hi⟩ hs
    obtain ⟨h', hh, hr'⟩ := hr.step hi.toAccounts hs
    exact ⟨h', hr', hi.step hh⟩

namespace Smr

/-- The nodes on the `mr_next` chain of a thread's zombie list. -/
noncomputable def zombies (s : Smr) (t : Nat) : List Addr := chainOf s.mrNext (s.zlist t).p

/-- The nodes on the chain of `tmplist`, and the one in hand. -/
noncomputable def custody (s : Smr) : List Addr :=
  match s.call with
  | some (_, .sweep _ tmplist) => chainOf s.mrNext tmplist
  | some (_, .freeNode _ tmplist cur) => cur :: chainOf s.mrNext tmplist
  | _ => []

noncomputable def places (s : Smr) : Option Nat → List Addr
  | none => s.custody
  | some t => s.zombies t

end Smr

theorem Rep.zombies_eq (hr : Rep s h) (t : Nat) : s.zombies t = h.zombies t :=
  chainOf_eq (hr.zombies t).chain

theorem Rep.custody_eq (hr : Rep s h) : s.custody = h.custody := by
  unfold Smr.custody Hoard.custody
  cases hc : s.call with
  | none => rw [hr.call_none.mp hc]
  | some x =>
    obtain ⟨t, sc⟩ := x
    obtain ⟨l, hl, hsc⟩ := hr.call_some hc
    rw [hl]
    cases sc <;> cases l <;> try contradiction
    case test.test | take.take => rfl
    case sweep.sweep => exact chainOf_eq hsc.2
    case freeNode.freeNode =>
      obtain ⟨_, hchain, rfl⟩ := hsc
      simp only [Scan.custody, chainOf_eq hchain]

theorem Rep.places_eq (hr : Rep s h) (i : Option Nat) : s.places i = h.places i := by
  cases i with
  | none => exact hr.custody_eq
  | some t => exact hr.zombies_eq t

/-- A label of the thread that retires, as opposed to those of the readers and to a new call. -/
def Act.own : Act → Bool
  | .scan | .free _ => true
  | .publish .. | .retire .. => false

def Act.isRetire : Act → Bool
  | .retire .. => true
  | _ => false

/-- How far the scan of thread `t` that collected `plist` in `h` has come in `h'`. -/
structure Swept (h : Hoard) (t : Nat) (plist : List Ptr) (done rest : List Addr) (h' : Hoard) : Prop where
  split : h.zombies t = done ++ rest
  freed : h'.freed = h.freed ++ done.filter (some · ∉ plist)
  kept : h'.zombies t = (done.filter (some · ∈ plist)).reverse

/-- The stages of a scan after its snapshot is complete. -/
inductive Sweeps (h : Hoard) (t : Nat) (plist : List Ptr) (h' : Hoard) : Prop where
  | start (hc : h'.call = some (t, .test H plist)) (hz : h'.zombies t = h.zombies t) (hf : h'.freed = h.freed)
  | sweep (done rest) (hs : Swept h t plist done rest h') (hc : h'.call = some (t, .sweep plist rest))
  | free {done cur rest} (hs : Swept h t plist done (cur :: rest) h') (hn : some cur ∉ plist)
      (hc : h'.call = some (t, .freeNode plist rest cur))
  | finish (hs : Swept h t plist (h.zombies t) [] h') (hc : h'.call = none)

variable {h₀ : Hoard} {plist : List Ptr}

theorem Sweeps.step (hw : Sweeps h₀ t plist h) (ha : a.isRetire = false)
    (hs : h.step nbthreads a = some h') : Sweeps h₀ t plist h' := by
  cases a with
  | retire t n => cases ha
  | publish t' off v =>
    simp only [Hoard.step] at hs
    split at hs <;> cases hs
    cases hw with
    | start hc hz hf => exact .start hc hz hf
    | sweep done rest hw hc => exact .sweep done rest ⟨hw.split, hw.freed, hw.kept⟩ hc
    | free hw hn hc => exact .free ⟨hw.split, hw.freed, hw.kept⟩ hn hc
    | finish hw hc => exact .finish ⟨hw.split, hw.freed, hw.kept⟩ hc
  | scan =>
    obtain ⟨t', sc, zs, sc', hcall, hl, rfl⟩ := Hoard.scan_eq hs
    cases hw with
    | start hc hz hf =>
      cases hcall.symm.trans hc
      simp only [Scan.listStep, lt_irrefl, if_false, hz] at hl
      cases hl
      exact .sweep [] _ ⟨rfl, by simp [hf], by simp⟩ rfl
    | sweep done rest hw hc =>
      cases hcall.symm.trans hc
      cases rest with
      | nil =>
        cases hl
        have hd : h₀.zombies t = done := by simpa using hw.split
        exact .finish ⟨by simp, by simp [hd, hw.freed], by simp [hd, hw.kept]⟩ rfl
      | cons cur rest =>
        simp only [Scan.listStep] at hl
        split at hl <;> cases hl
        · rename_i hm
          exact .sweep (done ++ [cur]) _ ⟨by simp [hw.split], by simp [hw.freed, hm],
            by simp [hw.kept, hm]⟩ rfl
        · rename_i hm
          exact .free ⟨hw.split, hw.freed, by simp [hw.kept]⟩ hm rfl
    | free _ _ hc =>
      cases hcall.symm.trans hc
      simp [Scan.listStep] at hl
    | finish _ hc => cases hcall.symm.trans hc
  | free junk =>
    obtain ⟨⟨h₁, cur⟩, hf, rfl⟩ := Option.map_eq_some_iff.mp hs
    obtain ⟨t', plist', tmp, hcall, rfl⟩ := Hoard.free_eq hf
    cases hw with
    | start hc | sweep _ _ _ hc | finish _ hc => cases hcall.symm.trans hc
    | @free done cur' rest hw hn hc =>
      cases hcall.symm.trans hc
      exact .sweep (done ++ [cur]) _ ⟨by simp [hw.split], by simp [Hoard.logFreed, hw.freed, hn],
        by simp [Hoard.logFreed, hw.kept, hn]⟩ rfl

/-- A bound on the steps that the scan still takes. -/
def Hoard.work (h : Hoard) : Nat :=
  match h.call with
  | none => 0
  | some (t, .test i _) => 2 * (H - i) + 2 * (h.zombies t).length + 2
  | some (t, .take i _) => 2 * (H - i) + 2 * (h.zombies t).length + 1
  | some (_, .sweep _ tmplist) => 2 * tmplist.length + 1
  | some (_, .freeNode _ tmplist _) => 2 * tmplist.length + 2

/-- Whatever the readers publish, every step of the scan brings its end nearer. -/
theorem Hoard.Inv.work (hi : h.Inv nbthreads) (ha : a.isRetire = false)
    (hs : h.step nbthreads a = some h') : (if a.own then 1 else 0) + h'.work ≤ h.work := by
  cases a with
  | retire t n => cases ha
  | publish t off v =>
    simp only [Hoard.step] at hs
    split at hs <;> cases hs
    simp [Act.own, Hoard.work, Hoard.publish]
  | scan =>
    obtain ⟨t, sc, zs, sc', hcall, hl, rfl⟩ := Hoard.scan_eq hs
    have hb := hi.scan t sc hcall
    cases sc with
    | test i plist =>
      simp only [Scan.listStep] at hl
      split at hl <;> cases hl
      · by_cases hHP : h.HP i = none <;> simp [Act.own, Hoard.work, hcall, hHP] <;> omega
      · simp [Act.own, Hoard.work, hcall]
        omega
    | take i plist =>
      cases hl
      have := hb.1
      simp [Act.own, Hoard.work, hcall]
      omega
    | sweep plist tmp =>
      cases tmp with
      | nil => cases hl; simp [Act.own, Hoard.work, hcall]
      | cons cur tmp =>
        simp only [Scan.listStep] at hl
        split at hl <;> cases hl <;> simp [Act.own, Hoard.work, hcall] <;> omega
    | freeNode => simp [Scan.listStep] at hl
  | free junk =>
    obtain ⟨⟨h₁, cur⟩, hf, rfl⟩ := Option.map_eq_some_iff.mp hs
    obtain ⟨t, plist, tmp, hcall, rfl⟩ := Hoard.free_eq hf
    simp [Act.own, Hoard.work, Hoard.logFreed, hcall]
    omega

/-- What hp.c owes its callers in a state. -/
structure Accounted (nbthreads : Nat) (s : Smr) : Prop where
  collected : ∀ t sc, s.call = some (t, sc) → sc.plist.length ≤ K * nbthreads
  chain : ∀ t, Chain s.mrNext (s.zlist t).p (s.zombies t)
  number : ∀ t, (s.zlist t).number = (s.zombies t).length
  /-- Every retirement has been followed by one reclamation, but for the nodes that wait: these
  wait in one place, once. -/
  once : ∀ n, s.retired.count n = s.freed.count n ∧ (∀ i, n ∉ s.places i) ∨
    s.retired.count n = s.freed.count n + 1 ∧ ∃! i, n ∈ s.places i ∧ (s.places i).count n = 1
  bounded : s.call = none → ∀ t, (s.zlist t).number ≤ R nbthreads
  /-- A scan with a complete snapshot frees the zombies that are not in it, and keeps the others. -/
  sweeps : ∀ t plist, s.call = some (t, .test H plist) → ∀ tr s', Run (Steps (step nbthreads)) s tr s' →
    (∀ e ∈ tr, e.1.isRetire = false) → s'.call = none →
      s'.freed = s.freed ++ (s.zombies t).filter (some · ∉ plist) ∧
      s'.zombies t = ((s.zombies t).filter (some · ∈ plist)).reverse
  proceeds : s.call ≠ none → s.scan.isSome ∨ ∀ junk, (s.free junk).isSome
  returns : ∃ k, ∀ tr s', Run (Steps (step nbthreads)) s tr s' → (∀ e ∈ tr, e.1.isRetire = false) →
    (tr.filter (·.1.own)).length ≤ k

/-- A run without new calls, as the account by lists sees it. -/
private theorem run_rep {P : List (Act × Smr) → Hoard → Prop} {tr : List (Act × Smr)}
    (hr : Rep s h) (hi : h.Inv nbthreads) (hrun : Run (Steps (step nbthreads)) s tr s')
    (hno : ∀ e ∈ tr, e.1.isRetire = false) (h0 : P [] h)
    (hstep : ∀ tr h a h' s', h.Inv nbthreads → P tr h → a.isRetire = false →
      h.step nbthreads a = some h' → P (tr ++ [(a, s')]) h') :
    ∃ h', Rep s' h' ∧ h'.Inv nbthreads ∧ P tr h' := by
  induction hrun with
  | nil => exact ⟨h, hr, hi, h0⟩
  | @snoc tr t a u _ hs ih =>
    obtain ⟨h₁, hr₁, hi₁, hp₁⟩ := ih fun e he => hno e (by simp [he])
    obtain ⟨h₂, hh, hr₂⟩ := hr₁.step hi₁.toAccounts hs
    exact ⟨h₂, hr₂, hi₁.step hh, hstep _ _ _ _ _ hi₁ hp₁ (hno (a, u) (by simp)) hh⟩

private theorem once_of_inv (hi : h.Inv nbthreads) (n : Addr) :
    h.retired.count n = h.freed.count n ∧ (∀ i, n ∉ h.places i) ∨
    h.retired.count n = h.freed.count n + 1 ∧ ∃! i, n ∈ h.places i ∧ (h.places i).count n = 1 := by
  by_cases hw : h.Waits n
  · obtain ⟨i, hn⟩ := hw
    refine .inr ⟨hi.waits n ⟨i, hn⟩, i, ⟨hn, List.count_eq_one_of_mem (hi.nodup i) hn⟩, ?_⟩
    exact fun j hj => hi.apart j i n hj.1 hn
  · exact .inl ⟨hi.reclaimed n hw, fun i hn => hw ⟨i, hn⟩⟩

private theorem collected_of_inv (hr : Rep s h) (hi : h.Inv nbthreads) {sc : Scan Ptr}
    (hc : s.call = some (t, sc)) : sc.plist.length ≤ K * nbthreads := by
  obtain ⟨l, hl, hsc⟩ := hr.call_some hc
  have hb := hi.scan t l hl
  have hw := writable_le nbthreads
  have hle : l.plist.length ≤ 2 * nbthreads := by
    cases l with
    | test i plist => exact le_trans hb (hw i)
    | take i plist => exact le_trans hb.2.2 (hw i)
    | sweep | freeNode => exact hb.1
  have heq : sc.plist = l.plist := by
    cases sc <;> cases l <;> try contradiction
    case test.test | take.take => exact hsc.2
    case sweep.sweep | freeNode.freeNode => exact hsc.1
  rw [heq]
  unfold K
  omega

private theorem proceeds_of_call (hc : s.call ≠ none) : s.scan.isSome ∨ ∀ junk, (s.free junk).isSome := by
  obtain ⟨⟨t, sc⟩, hc⟩ := Option.ne_none_iff_exists'.mp hc
  cases sc with
  | freeNode plist tmp cur => exact .inr fun junk => by simp [Smr.free, hc]
  | test i plist =>
    left
    simp only [Smr.scan, hc, Option.bind_some, Scan.step, Option.isSome_map]
    split <;> rfl
  | take i plist => exact .inl (by simp [Smr.scan, hc, Scan.step])
  | sweep plist tmp =>
    left
    cases tmp with
    | none => simp [Smr.scan, hc, Scan.step]
    | some cur =>
      simp only [Smr.scan, hc, Option.bind_some, Scan.step, Option.isSome_map]
      split <;> rfl

/-- Retirement keeps its accounts in every run, whatever the hazard slots hold at any time. -/
theorem retirement_accounted (nbthreads : Nat) {s : Smr}
    (hs : Reachable (Steps (step nbthreads)) .init s) : Accounted nbthreads s := by
  obtain ⟨h, hr, hi⟩ := rep_reachable hs
  constructor
  · exact fun t sc hc => collected_of_inv hr hi hc
  · intro t
    rw [hr.zombies_eq]
    exact (hr.zombies t).chain
  · intro t
    rw [hr.zombies_eq]
    exact (hr.zombies t).number
  · intro n
    simp only [hr.places_eq, hr.retired, hr.freed]
    exact once_of_inv hi n
  · intro hc t
    rw [(hr.zombies t).number]
    exact hi.short t (by simp [hr.call_none.mp hc])
  · intro t plist hc tr s' hrun hno hret
    obtain ⟨l, hl, hsc⟩ := hr.call_some hc
    obtain rfl : l = .test H plist := by
      cases l <;> try contradiction
      rw [← hsc.1, ← hsc.2]
    obtain ⟨h', hr', _, hw⟩ := run_rep (P := fun _ h' => Sweeps h t plist h') hr hi hrun hno
      (.start hl rfl rfl) fun _ _ _ _ _ _ hw ha hh => hw.step ha hh
    have hnone := hr'.call_none.mp hret
    cases hw with
    | start hc' | sweep _ _ _ hc' | free _ _ hc' => simp [hnone] at hc'
    | finish hw _ =>
      rw [hr'.freed, hr.freed, hr'.zombies_eq, hr.zombies_eq]
      exact ⟨hw.freed, hw.kept⟩
  · exact proceeds_of_call
  · refine ⟨h.work, fun tr s' hrun hno => ?_⟩
    have hstep (tr : List (Act × Smr)) (h₁ : Hoard) (a : Act) (h₂ : Hoard) (s₂ : Smr) (hi₁ : h₁.Inv nbthreads)
        (hle : (tr.filter (·.1.own)).length + h₁.work ≤ h.work) (ha : a.isRetire = false)
        (hh : h₁.step nbthreads a = some h₂) :
        ((tr ++ [(a, s₂)]).filter (·.1.own)).length + h₂.work ≤ h.work := by
      have hw := hi₁.work ha hh
      rw [List.filter_append, List.length_append]
      cases hown : a.own <;> simp [hown] at hw ⊢ <;> omega
    obtain ⟨h', _, _, hw⟩ := run_rep
      (P := fun tr h' => (tr.filter (·.1.own)).length + h'.work ≤ h.work) hr hi hrun hno (by simp) hstep
    exact le_trans (Nat.le_add_right _ _) hw

/-- The 107th retirement starts a scan while node 5 is in a hazard slot: the scan keeps it and frees the other
106. Then node 0 is retired again. -/
def spareOne : List Act :=
  .publish 0 false (some 5) :: (List.range 107).map (Act.retire 0) ++ List.replicate (H + 2) .scan ++
    (List.replicate 101 [.scan, .free none]).flatten ++ .scan :: (List.replicate 5 [.scan, .free none]).flatten ++
    [.scan, .retire 0 0]

theorem retirement_accounted_first : ∃ s, exec (step 1) .init spareOne = some s ∧ s.call = none ∧
    s.freed.length = 106 ∧ 5 ∉ s.freed ∧ (s.zlist 0).number = 2 ∧ s.retired.count 0 = 2 ∧
    ∀ v ∈ states .init (execTrace (step 1) .init spareOne), Accounted 1 v := by
  have h : (exec (step 1) .init spareOne).any fun s => s.call.isNone && decide (s.freed.length = 106) &&
      decide (5 ∉ s.freed) && decide ((s.zlist 0).number = 2) && decide (s.retired.count 0 = 2) := by
    decide +kernel
  obtain ⟨s, hs, hp⟩ := (Option.any_eq_true _ _).mp h
  simp only [Bool.and_eq_true, decide_eq_true_eq, Option.isNone_iff_eq_none] at hp
  refine ⟨s, hs, hp.1.1.1.1, hp.1.1.1.2, hp.1.1.2, hp.1.2, hp.2, fun v hv => ?_⟩
  exact retirement_accounted 1 ((exec_run hs).reaches hv)

end Gecos.Hazard
