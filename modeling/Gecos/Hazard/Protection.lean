import Gecos.Hazard.Search

/-! What a validated hazard pointer protects, and when. -/
namespace Gecos
open Library

namespace Hazard

/-- The scan in progress, if any, will not free `n` as long as slot `i` holds it: the slot is
still to be read, or `n` is not among the nodes at stake, or it is in the snapshot already. -/
def Hoard.Spares (h : Hoard) (n : Addr) (i : Nat) : Prop :=
  match h.call with
  | none => True
  | some (t, .test j plist) | some (t, .take j plist) => j ≤ i ∨ n ∉ h.zombies t ∨ some n ∈ plist
  | some (_, .sweep plist tmplist) => n ∈ tmplist → some n ∈ plist
  | some (_, .freeNode plist tmplist cur) => n ≠ cur ∧ (n ∈ tmplist → some n ∈ plist)

/-- The same for the memory of hp.c. -/
def Smr.Spares (s : Smr) (n : Addr) (i : Nat) : Prop :=
  match s.call with
  | none => True
  | some (t, .test j plist) | some (t, .take j plist) => j ≤ i ∨ n ∉ s.zombies t ∨ some n ∈ plist
  | some (_, .sweep plist tmplist) => n ∈ chainOf s.mrNext tmplist → some n ∈ plist
  | some (_, .freeNode plist tmplist cur) => n ≠ cur ∧ (n ∈ chainOf s.mrNext tmplist → some n ∈ plist)

variable {nbthreads : Nat} {s : Smr} {h h' : Hoard} {n : Addr} {i t : Nat}

theorem Rep.spares_iff (hr : Rep s h) : s.Spares n i ↔ h.Spares n i := by
  unfold Smr.Spares Hoard.Spares
  cases hc : s.call with
  | none => rw [hr.call_none.mp hc]
  | some x =>
    obtain ⟨t, sc⟩ := x
    obtain ⟨l, hl, hsc⟩ := hr.call_some hc
    rw [hl]
    cases sc <;> cases l <;> try contradiction
    case test.test | take.take =>
      obtain ⟨rfl, rfl⟩ := hsc
      simp only [hr.zombies_eq]
    case sweep.sweep =>
      obtain ⟨rfl, hchain⟩ := hsc
      simp only [chainOf_eq hchain]
    case freeNode.freeNode =>
      obtain ⟨rfl, hchain, rfl⟩ := hsc
      simp only [chainOf_eq hchain]

theorem Hoard.Spares.retire (t : Nat) (x : Addr) :
    (h.retire nbthreads t x).Spares n i := by
  unfold Hoard.Spares Hoard.retire
  by_cases hR : R nbthreads < (h.zombies t).length + 1
  · simp [hR]
  · simp [hR]

/-- A scan that reaches slot `i` finds `n` there. -/
theorem Hoard.Spares.scan (hsp : h.Spares n i) (hi : i < H) (hHP : h.HP i = some n)
    (hs : h.scan = some h') : h'.Spares n i := by
  obtain ⟨t, sc, zs, sc', hc, hl, rfl⟩ := Hoard.scan_eq hs
  unfold Hoard.Spares at hsp
  rw [hc] at hsp
  cases sc with
  | test j plist =>
    simp only [Scan.listStep] at hl
    split at hl <;> cases hl
    · by_cases hj : h.HP j = none
      · have hne : j ≠ i := by
          rintro rfl
          rw [hHP] at hj
          cases hj
        simp only [Hoard.Spares, hj, if_true, Option.map_some, Function.update_self]
        exact hsp.imp_left fun hle => by omega
      · simpa [Hoard.Spares, hj] using hsp
    · simp only [Hoard.Spares, Option.map_some]
      exact fun hm => (hsp.resolve_left (by omega)).resolve_left (fun hn => hn hm)
  | take j plist =>
    cases hl
    simp only [Hoard.Spares, Option.map_some, Function.update_self]
    by_cases hj : j = i
    · subst hj
      exact .inr (.inr (by simp [hHP]))
    · rcases hsp with hle | hz | hp
      · exact .inl (by omega)
      · exact .inr (.inl hz)
      · exact .inr (.inr (by simp [hp]))
  | sweep plist tmp =>
    cases tmp with
    | nil =>
      cases hl
      trivial
    | cons cur tmp =>
      simp only [Scan.listStep] at hl
      split at hl <;> cases hl
      · exact fun hm => hsp (by simp [hm])
      · rename_i hcur
        refine ⟨?_, fun hm => hsp (by simp [hm])⟩
        rintro rfl
        exact hcur (hsp (by simp))
  | freeNode => simp [Scan.listStep] at hl

theorem Hoard.Spares.free {cur : Addr} (hsp : h.Spares n i) (hs : h.free = some (h', cur)) : h'.Spares n i := by
  obtain ⟨t, plist, tmp, hc, rfl⟩ := Hoard.free_eq hs
  unfold Hoard.Spares at hsp
  rw [hc] at hsp
  exact hsp.2

end Hazard

namespace ListHp
open Hazard
variable {β : Type} {cfg : Config} {s s' : State β} {h : Hoard} {a : Act β} {n : Addr} {i : Nat}

/-- Nodes that wait to be freed are in no bucket, in nobody's hand, and not available. -/
structure Inv (cfg : Config) (s : State β) (h : Hoard) : Prop where
  rep : Rep s.smr h
  hoard : h.Inv cfg.nbthreads
  writers : Writers s.mem s.upd
  waiting : ∀ n, h.Waits n →
    s.mem.avail n = false ∧ (∀ b, n ∉ s.mem.chain b) ∧ (s.upd ()).inHand ≠ some n
  threads : ∀ t pc k b l, s.rd t = .run pc k b l → t < cfg.nbthreads

/-- Slot `i` holds `n`, which is in use, and the scan in progress will spare it. -/
structure Guarded (s : State β) (h : Hoard) (n : Addr) (i : Nat) : Prop where
  inUse : s.mem.avail n = false
  slot : s.smr.HP i = some n
  spared : h.Spares n i

/-- A step of the system that keeps the invariant, and every node guarded whose slot it leaves. -/
def Keeps (cfg : Config) (s : State β) (h : Hoard) (s' : State β) : Prop :=
  ∃ h', Inv cfg s' h' ∧ ∀ n i, i < H → Guarded s h n i → s'.smr.HP i = some n → Guarded s' h' n i

theorem Inv.init (cfg : Config) : Inv cfg (.init β) .init where
  rep := .init
  hoard := .init cfg.nbthreads
  writers := .init
  waiting n hn := by
    obtain ⟨i, hi⟩ := hn
    cases i <;> simp [Hoard.init, Hoard.places, Hoard.custody] at hi
  threads t pc k b l ht := by simp [State.init] at ht

/-- Steps of the updater in list_writer.c: `scan` is not running, and stays as it is. -/
private theorem keeps_put (hi : Inv cfg s h) {m' : Mem β} {w' : Writer β Unit}
    (hw : Writers m' (Function.update s.upd () w')) (hav : ∀ n, m'.avail n = true → s.mem.avail n = true)
    (ho : ∀ n, (∃ b, n ∈ m'.chain b) ∨ w'.inHand = some n →
      (∃ b, n ∈ s.mem.chain b) ∨ (s.upd ()).inHand = some n ∨ s.mem.avail n = true) :
    Keeps cfg s h (s.put (m', w')) := by
  have hfalse (n : Addr) (hn : s.mem.avail n = false) : m'.avail n = false := by
    by_contra hne
    simp [hav n (by simpa using hne)] at hn
  refine ⟨h, ⟨hi.rep, hi.hoard, hw, fun n hn => ?_, hi.threads⟩, fun n i _ hg hs => ⟨hfalse n hg.inUse, hs, hg.spared⟩⟩
  obtain ⟨h₁, h₂, h₃⟩ := hi.waiting n hn
  have hnot : ¬ ((∃ b, n ∈ m'.chain b) ∨ w'.inHand = some n) := by
    intro hm
    rcases ho n hm with ⟨b, hb⟩ | hh | ha
    · exact h₂ b hb
    · exact h₃ hh
    · simp [h₁] at ha
  rw [not_or, not_exists] at hnot
  exact ⟨hfalse n h₁, hnot.1, by simpa [State.put] using hnot.2⟩

private theorem keeps_begin (hi : Inv cfg s h) {op : Op} {k : Int} {b : β} {w : Writer β Unit}
    (hs : (s.upd ()).begin op k b = some w) : Keeps cfg s h (s.put (s.mem, w)) := by
  have hready : w.inside = none ∧ w.inHand = none ∧ w.Facts s.mem := by
    unfold Writer.begin at hs
    split at hs
    all_goals try contradiction
    all_goals cases op <;> cases hs <;> exact ⟨rfl, rfl, trivial⟩
  obtain ⟨hin, hhand, hf⟩ := hready
  exact keeps_put hi (hi.writers.stay (by simp [hin]) (by simp [hhand]) hf) (fun _ hn => hn)
    fun n hn => .inl (by simpa [hhand] using hn)

private theorem keeps_alloc (hi : Inv cfg s h) {n : Addr} {mw : Mem β × Writer β Unit}
    (hs : (s.upd ()).alloc s.mem n = some mw) : Keeps cfg s h (s.put mw) := by
  unfold Writer.alloc at hs
  split at hs
  case h_2 => contradiction
  rename_i k b prev cur he
  split at hs <;> cases hs
  rename_i hav
  refine keeps_put hi (hi.writers.handOut he hav rfl rfl id) (fun x hx => ?_) fun x hx => ?_
  · by_cases hxn : x = n
    · exact hxn ▸ hav
    · simpa [Function.update_of_ne hxn] using hx
  · rcases hx with hx | hx
    · exact .inl hx
    · exact .inr (.inr (by cases hx; exact hav))

private theorem keeps_scan (hi : Inv cfg s h) {smr : Smr} (hs : s.smr.scan = some smr) :
    Keeps cfg s h { s with smr } := by
  obtain ⟨h', hh, hr, _⟩ := hi.rep.scan hi.hoard.toAccounts hs
  refine ⟨h', ⟨hr, hi.hoard.step_scan hh, hi.writers, fun n hn => ?_, hi.threads⟩, fun n i hiH hg hslot => ?_⟩
  · exact hi.waiting n (((hi.hoard.toAccounts.scan_places hh).2.2 n).mp hn)
  · refine ⟨hg.inUse, hslot, hg.spared.scan hiH ?_ hh⟩
    rw [← hi.rep.HP]
    exact hg.slot

private theorem keeps_free (hi : Inv cfg s h) {junk : Ptr} (hs : s.free junk = some s') :
    Keeps cfg s h s' := by
  obtain ⟨⟨smr, cur⟩, hfree, rfl⟩ := Option.map_eq_some_iff.mp hs
  obtain ⟨h', hh, hr⟩ := hi.rep.free hi.hoard.toAccounts hfree
  have hinv := hi.hoard.free hh
  have hspares (n : Addr) (i : Nat) (hsp : h.Spares n i) := hsp.free hh
  obtain ⟨t, plist, tmp, hl, rfl⟩ := Hoard.free_eq hh
  have hw := hi.hoard.toAccounts.free_waits hl
  obtain ⟨_, hch, hhand⟩ := hi.waiting cur (Hoard.waits_of_freeNode hl)
  have hne (x : Addr) (hx : x ≠ cur) : Function.update s.mem.avail cur true x = s.mem.avail x :=
    Function.update_of_ne hx _ _
  refine ⟨_, ⟨hr.logFreed cur, hinv, hi.writers.reclaim hch fun _ => hhand, fun n hn => ?_, hi.threads⟩,
    fun n i _ hg hslot => ?_⟩
  · rw [Hoard.logFreed_waits, hw] at hn
    obtain ⟨h₁, h₂, h₃⟩ := hi.waiting n hn.2
    exact ⟨(hne n hn.1).trans h₁, h₂, h₃⟩
  · have hsp := hg.spared
    unfold Hoard.Spares at hsp
    rw [hl] at hsp
    refine ⟨(hne n hsp.1).trans hg.inUse, ?_, hspares n i hg.spared⟩
    exact hslot

private theorem keeps_read (hi : Inv cfg s h) {t : Nat} (hs : s.read t = some s') : Keeps cfg s h s' := by
  obtain ⟨x, hx, rfl⟩ := Option.map_eq_some_iff.mp hs
  have hthreads (t' : Nat) (pc : Pc) (k : Int) (b : β) (l : Locals β)
      (h' : Function.update s.rd t x t' = .run pc k b l) : t' < cfg.nbthreads := by
    by_cases ht : t' = t
    · subst ht
      cases hrd : s.rd t' with
      | idle | returned => simp [hrd, Searcher.step] at hx
      | run pc k b l => exact hi.threads t' pc k b l hrd
    · exact hi.threads t' pc k b l (by simpa [Function.update_of_ne ht] using h')
  split
  · rename_i k b l hrd
    have hslot := slot_writable (hi.threads t _ _ _ _ hrd) l.off
    exact ⟨h.publish (slot t l.off) (some l.cur), ⟨hi.rep.publish _, hi.hoard.publish hslot, hi.writers, hi.waiting, hthreads⟩,
      fun n i _ hg hs => ⟨hg.inUse, hs, hg.spared⟩⟩
  · exact ⟨h, ⟨hi.rep, hi.hoard, hi.writers, hi.waiting, hthreads⟩,
      fun n i _ hg hs => ⟨hg.inUse, hs, hg.spared⟩⟩

variable [DecidableEq β]

private theorem keeps_update (hi : Inv cfg s h) (hcall : s.smr.call = none)
    (hs : s.update cfg = some s') : Keeps cfg s h s' := by
  unfold State.update at hs
  split at hs
  case h_1 op k b he =>
    cases hs
    have hno (v : Unit) : (s.upd v).inside ≠ some b := by
      rw [show v = () from rfl, he]
      simp [Writer.inside]
    refine keeps_put hi (hi.writers.frame rfl rfl rfl (fun _ hx => .inl hx) (fun b' hb => .inr ?_)
      (by simp [Writer.inHand]) trivial) (fun _ hn => hn) fun n hn => .inl (by simpa [Writer.inHand] using hn)
    cases hb
    exact hno
  case h_2 b res he =>
    cases hs
    exact keeps_put hi (hi.writers.stay (by simp [Writer.inside]) (by simp [Writer.inHand]) trivial)
      (fun _ hn => hn) fun n hn => .inl (by simpa [Writer.inHand] using hn)
  case h_3 b n he =>
    cases hs
    have hhand : (s.upd ()).inHand = some n := by rw [he]; rfl
    obtain ⟨hav, hch⟩ := hi.writers.fresh () n hhand
    have hcall' := hi.rep.call_none.mp hcall
    have hnw : ¬ h.Waits n := fun hw => (hi.waiting n hw).2.2 hhand
    have hw : Writers s.mem (Function.update s.upd () (.wunlock b 1)) :=
      hi.writers.stay (fun b' hb => by rw [he]; exact hb) (by simp [Writer.inHand]) trivial
    refine ⟨(h.retire cfg.nbthreads cfg.updater n).logRetired n,
      ⟨(hi.rep.retire hnw).logRetired n, hi.hoard.retire hcall' hnw, ?_, fun x hx => ?_, hi.threads⟩,
      fun x i _ hg hs => ⟨hg.inUse, hs, .retire _ _⟩⟩
    · exact hw
    · rw [Hoard.logRetired_waits, Hoard.retire_waits hcall'] at hx
      have hnone : ((s.put (s.mem, .wunlock b 1)).upd ()).inHand ≠ some x := by simp [State.put, Writer.inHand]
      rcases hx with rfl | hx
      · exact ⟨hav, hch, hnone⟩
      · exact ⟨(hi.waiting x hx).1, (hi.waiting x hx).2.1, hnone⟩
  case h_4 =>
    obtain ⟨⟨m', w'⟩, hw, rfl⟩ := Option.map_eq_some_iff.mp hs
    obtain ⟨_, _, _, _, _, hav, ho⟩ := hi.writers.step_keeps hw
    exact keeps_put hi (hi.writers.step hw) (fun n hn => by rwa [hav] at hn) fun n hn =>
      (ho n hn).imp_right .inl

theorem Inv.step (hi : Inv cfg s h) (hs : step cfg s a = some s') : Keeps cfg s h s' := by
  cases a with
  | begin op k b =>
    obtain ⟨w, hw, rfl⟩ := Option.map_eq_some_iff.mp hs
    exact keeps_begin hi hw
  | update =>
    simp only [ListHp.step] at hs
    split at hs
    · exact keeps_update hi (Option.isNone_iff_eq_none.mp (by assumption)) hs
    · contradiction
  | alloc n =>
    obtain ⟨mw, hw, rfl⟩ := Option.map_eq_some_iff.mp hs
    exact keeps_alloc hi hw
  | scan =>
    obtain ⟨smr, hsc, rfl⟩ := Option.map_eq_some_iff.mp hs
    exact keeps_scan hi hsc
  | free junk => exact keeps_free hi hs
  | call t k b l =>
    simp only [ListHp.step] at hs
    split at hs
    case isFalse => contradiction
    rename_i ht
    refine ⟨h, ?_⟩
    have hthreads (t' : Nat) (pc : Pc) (k' : Int) (b' : β) (l' : Locals β)
        (h' : Function.update s.rd t (.run .head k b { l with off := false }) t' = .run pc k' b' l') :
        t' < cfg.nbthreads := by
      by_cases he : t' = t
      · exact he ▸ ht.1
      · exact hi.threads t' pc k' b' l' (by simpa [Function.update_of_ne he] using h')
    split at hs <;> cases hs <;> exact ⟨⟨hi.rep, hi.hoard, hi.writers, hi.waiting, hthreads⟩,
      fun n i _ hg hs => ⟨hg.inUse, hs, hg.spared⟩⟩
  | read t => exact keeps_read hi hs

theorem inv_reachable (hs : Reachable (Steps (ListHp.step cfg)) (.init β) s) : ∃ h, Inv cfg s h := by
  apply hs.invariant (P := fun s => ∃ h, Inv cfg s h)
  · exact ⟨.init, .init cfg⟩
  · rintro s a t ⟨h, hi⟩ hr
    obtain ⟨h', hi', _⟩ := hi.step hr
    exact ⟨h', hi'⟩

/-- A guarded node stays guarded as long as its slot is left alone. -/
theorem Guarded.run {tr : List (Act β × State β)} (hi : Inv cfg s h) (hg : Guarded s h n i) (hiH : i < H)
    (hrun : Run (Steps (ListHp.step cfg)) s tr s') (hkeep : ∀ v ∈ states s tr, v.smr.HP i = some n) :
    ∀ v ∈ states s tr, ∃ h, Inv cfg v h ∧ Guarded v h n i := by
  induction hrun with
  | nil =>
    intro v hv
    obtain rfl : v = s := by simpa [states] using hv
    exact ⟨h, hi, hg⟩
  | @snoc tr t a u hrun hr ih =>
    rw [states_snoc] at hkeep ⊢
    have hprev := ih fun v hv => hkeep v (by simp [hv])
    intro v hv
    rcases List.mem_append.mp hv with hv | hv
    · exact hprev v hv
    · obtain ⟨h₁, hi₁, hg₁⟩ := hprev t hrun.end_mem
      obtain ⟨h₂, hi₂, hkeeps⟩ := hi₁.step hr
      rw [List.mem_singleton.mp hv]
      exact ⟨h₂, hi₂, hkeeps n i hiH hg₁ (hkeep u (by simp))⟩

/-- What the reader needs then: `n` is not free already, nor about to be freed by a scan that has
passed the slot. -/
def Safe (s : State β) (n : Addr) (i : Nat) : Prop := s.mem.avail n = false ∧ s.smr.Spares n i

/-- A node that is still linked when the reader validates it meets the condition. -/
theorem safe_of_linked (hs : Reachable (Steps (ListHp.step cfg)) (.init β) s) {b : β}
    (hn : n ∈ s.mem.chain b) : Safe s n i := by
  obtain ⟨h, hi⟩ := inv_reachable hs
  refine ⟨hi.writers.table.inUse b n hn, hi.rep.spares_iff.mpr ?_⟩
  have hplace (j : Option Nat) : n ∉ h.places j := fun hm => (hi.waiting n ⟨j, hm⟩).2.1 b hn
  have hcust := hplace none
  unfold Hoard.places Hoard.custody at hcust
  unfold Hoard.Spares
  cases hc : h.call with
  | none => trivial
  | some x =>
    obtain ⟨t, sc⟩ := x
    rw [hc] at hcust
    cases sc with
    | test | take => exact .inr (.inl (hplace (some t)))
    | sweep plist tmp => exact fun hm => (hcust hm).elim
    | freeNode plist tmp cur =>
      refine ⟨fun he => hcust (by simp [Scan.custody, he]), fun hm => (hcust ?_).elim⟩
      simp [Scan.custody, hm]

/-- Two threads: the updater on thread 0 and a reader on thread 1. -/
abbrev twoThreads : Config := ⟨2, 0, by decide, by decide⟩

/-- `insert(k)` into an empty bucket, and `delete(k)` of the first node of a bucket. -/
abbrev insertFirst (k : Int) (n : Addr) : List (Act Unit) :=
  [.begin .insert k (), .update, .update, .alloc n, .update, .update, .update, .update]

abbrev deleteFirst (k : Int) : List (Act Unit) := .begin .delete k () :: List.replicate 9 .update

/-- Node 0 is deleted, and 112 further nodes come and go, until a scan starts, which frees these. -/
abbrev deletedRun : List (Act Unit) :=
  deleteFirst 5 ++ ((List.range 111).map fun i => insertFirst 3 (i + 1) ++ deleteFirst 3).flatten ++
    insertFirst 3 112 ++ (deleteFirst 3).dropLast ++ List.replicate 770 Act.scan ++
    (List.replicate 112 [Act.scan, .free none]).flatten ++ [Act.scan, .scan, .update]

end ListHp
end Gecos
