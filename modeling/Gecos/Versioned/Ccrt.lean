import Gecos.Mrow.Config
import Gecos.Versioned.Linearizable

/-! The search of list_gecos.c with `CHECK_CCRT`: the keys that pass validation in one attempt
ascend within one bucket, although they are read at different times from nodes that come and go. -/
namespace Gecos
open Library

/-- The key and the bucket of the `insert` an updater is in, up to the store that links the node. -/
def Writer.inserting {β ρ : Type} : Writer β ρ → Option (Int × β)
  | .wlock .insert k b | .loadHead .insert k b | .loadKey .insert k b _ _ | .loadKeyAgain .insert k b _ _
  | .advance .insert k b _ | .initNewNode k b _ _ | .handOver k b _ _ _ | .storeKey k b _ _ _
  | .storeNext k b _ _ _ | .link k b _ _ _ => some (k, b)
  | _ => none

section inserting
variable {β ρ : Type} {w w' : Writer β ρ} {m m' : Mem β} {e : Int × β} {start : ρ}

theorem Writer.inserting_loop {op : Op} {k : Int} {b : β} {prev : Link β} {p : Ptr}
    (h : (Writer.loop (ρ := ρ) op k b prev p).inserting = some e) : op = .insert ∧ e = (k, b) := by
  cases p <;> cases op <;> cases h <;> exact ⟨rfl, rfl⟩

theorem Writer.inserting_begin {op : Op} {k : Int} {b : β} (hs : w.begin op k b = some w')
    (h : w'.inserting = some e) : op = .insert ∧ e = (k, b) := by
  cases w <;> cases op <;> cases hs <;> cases h <;> exact ⟨rfl, rfl⟩

theorem Writer.inserting_alloc {n : Addr} (hs : w.alloc m n = some (m', w')) : w'.inserting = w.inserting := by
  unfold Writer.alloc at hs
  split at hs
  · split at hs <;> cases hs
    rfl
  · contradiction

theorem Writer.inserting_step [DecidableEq β] (hs : w.step start m = some (m', w'))
    (h : w'.inserting = some e) : w.inserting = some e := by
  cases w with
  | ready | wlock | freeNodeLater | initNewNode | handOver | wunlock | returned => simp [Writer.step] at hs
  | emptyTest | loadNext | unlink | link =>
    cases hs
    first | cases h | split at h <;> cases h
  | loadKey op k b prev cur =>
    cases hs
    cases op
    all_goals split at h <;> cases h
    all_goals rfl
  | loadHead op k b | advance op k b cur =>
    cases hs
    obtain ⟨rfl, rfl⟩ := inserting_loop h
    rfl
  | loadKeyAgain op k b prev cur =>
    cases op <;> cases hs
    all_goals split at h <;> cases h
    all_goals rfl
  | storeKey | storeNext =>
    cases hs
    exact h

end inserting

namespace Shared
variable {β υ : Type} {Q : β → Int → Prop} {s : Shared β υ} {u : υ} {m' : Mem β} {w' : Writer β Bump}

/-- `Q` relates every bucket to the keys of its nodes, and to the keys on their way into it. -/
structure Keyed (Q : β → Int → Prop) (s : Shared β υ) : Prop where
  live : ∀ b n, s.Live b n → Q b (s.mem.key n)
  inserting : ∀ u k b, (s.upd u).inserting = some (k, b) → Q b k

theorem Keyed.init : Keyed Q (.init β υ) where
  live b n h := by
    rcases h with h | ⟨u, r, h, _⟩
    · rw [show (Shared.init β υ).mem.chain b = [] from Mem.chain_eq rfl] at h
      cases h
    · cases h
  inserting _ _ _ h := nomatch h

variable [DecidableEq υ]

/-- Steps of an updater by which no node becomes live. -/
theorem Keyed.put (h : Keyed Q s) (hlive : ∀ b n, (s.put u (m', w')).Live b n → s.Live b n ∧ m'.key n = s.mem.key n)
    (hin : ∀ e, w'.inserting = some e → (s.upd u).inserting = some e) : Keyed Q (s.put u (m', w')) where
  live b n hl := by
    obtain ⟨hl, hk⟩ := hlive b n hl
    exact hk ▸ h.live b n hl
  inserting v k b hv := by
    by_cases e : v = u
    · subst e
      exact h.inserting v k b (hin _ (by simpa [Shared.put] using hv))
    · exact h.inserting v k b (by simpa [Shared.put, Function.update_of_ne e] using hv)

/-- An access of list_writer.c makes a node live only by linking it, with the key of the call. -/
theorem Keyed.access [DecidableEq β] (h : Keyed Q s) (hw : Writers s.mem s.upd)
    (hs : (s.upd u).step .load s.mem = some (m', w')) : Keyed Q (s.put u (m', w')) where
  live b n hl := by
    have hf := hw.facts u
    rcases hl with hl | ⟨v, r, hv, hr⟩
    · by_cases hb : (s.upd u).relinks = some b
      · cases hu : s.upd u with
        | link k b' prev p new =>
          rw [hu] at hs hf hb
          cases hb
          obtain ⟨⟨l₁, l₂, hp, rfl, _⟩, hk, hx⟩ := hf
          cases hs
          obtain ⟨_, _, hch, _⟩ := hw.table.link_chain hp (hw.fresh u new (by rw [hu]; rfl)).2 hx
          have hl : n ∈ l₁ ++ new :: l₂ := hch ▸ hl
          change Q b ((s.mem.store prev (some new)).key n)
          rw [Mem.store_key]
          by_cases hn : n = new
          · rw [hn, hk]
            exact h.inserting u k b (by rw [hu]; rfl)
          · exact h.live b n (.inl (by rw [hp.split]; simpa [hn] using hl))
        | unlink k b' prev cur nx =>
          rw [hu] at hs hf hb
          cases hb
          obtain ⟨⟨l₁, l₂, hp⟩, _, rfl⟩ := hf
          cases hs
          obtain ⟨_, _, _, hch, _⟩ := hw.table.unlink_chain hp
          have hl : n ∈ l₁ ++ l₂ := hch ▸ hl
          change Q b ((s.mem.store prev (s.mem.next cur)).key n)
          rw [Mem.store_key]
          refine h.live b n (.inl ?_)
          rw [hp.split]
          rcases List.mem_append.mp hl with hl | hl <;> simp [hl]
        | _ => simp [hu, Writer.relinks] at hb
      · have ha := hw.step_agree_of_relinks hs hb
        have hl : n ∈ s.mem.chain b := ha.chain ▸ hl
        change Q b (m'.key n)
        rw [ha.key n hl]
        exact h.live b n (.inl hl)
    · by_cases e : v = u
      · subst e
        have hw' : w' = .freeNodeLater b n r := by simpa [Shared.put] using hv
        obtain ⟨k, prev, nx, hu⟩ := Writer.step_unlinks (hw' ▸ hs)
        rw [hu] at hs hf
        obtain ⟨⟨l₁, l₂, hp⟩, _, _⟩ := hf
        cases hs
        change Q b ((s.mem.store prev nx).key n)
        rw [Mem.store_key]
        exact h.live b n (.inl (by simp [hp.split]))
      · have hv : s.upd v = .freeNodeLater b n r := by simpa [Shared.put, Function.update_of_ne e] using hv
        have hne : (s.upd u).inHand ≠ some n := fun hn => e (hw.alone v u n (by rw [hv]; rfl) hn)
        change Q b (m'.key n)
        rw [(hw.step_keeps hs).1 n hne]
        exact h.live b n (.inr ⟨v, r, hv, hr⟩)
  inserting v k b hv := by
    by_cases e : v = u
    · subst e
      exact h.inserting v k b (Writer.inserting_step hs (by simpa [Shared.put] using hv))
    · exact h.inserting v k b (by simpa [Shared.put, Function.update_of_ne e] using hv)

/-- A step that changes neither links nor keys. -/
theorem Keyed.frame (h : Keyed Q s) (hk : m'.key = s.mem.key) (hn : m'.next = s.mem.next) (hh : m'.heads = s.mem.heads)
    (hu : ∀ b n r, w' = .freeNodeLater b n r → r ≠ .free → ∃ r', s.upd u = .freeNodeLater b n r' ∧ r' ≠ .free)
    (hin : ∀ e, w'.inserting = some e → (s.upd u).inserting = some e) : Keyed Q (s.put u (m', w')) := by
  refine h.put (fun b n hl => ⟨?_, congrFun hk n⟩) hin
  rcases hl with hl | ⟨v, r, hv, hr⟩
  · exact .inl (by simpa [Mem.chain, Shared.put, hn, hh] using hl)
  · by_cases e : v = u
    · subst e
      obtain ⟨r', hr'⟩ := hu b n r (by simpa [Shared.put] using hv) hr
      exact .inr ⟨v, r', hr'⟩
    · exact .inr ⟨v, r, by simpa [Shared.put, Function.update_of_ne e] using hv, hr⟩

end Shared

namespace ListGecos
open Mrow
variable {β υ ρ : Type}

section keyed
variable {Q : β → Int → Prop} {cfg : Locking υ} {s : Shared β υ} {u : υ} [DecidableEq β] [DecidableEq υ]

theorem keyed_update (h : Shared.Keyed Q s) (hw : Writers s.mem s.upd) {mw : Mem β × Writer β Bump}
    (hs : update cfg s.mem (s.upd u) = some mw) : Shared.Keyed Q (s.put u mw) := by
  unfold update at hs
  split at hs
  case h_1 op k b he =>
    split at hs
    · cases hs
      exact h.frame rfl rfl rfl (by simp) fun e hin => by rw [he]; cases op <;> exact hin
    · split at hs <;> cases hs
      exact h.frame rfl rfl rfl (by simp) fun e hin => by rw [he]; cases op <;> exact hin
  case h_2 b res he =>
    split at hs <;> cases hs <;> exact h.frame rfl rfl rfl (by simp) fun e hin => (nomatch hin)
  case h_3 b n he =>
    cases hs
    refine h.frame rfl rfl rfl (fun b' n' r hr _ => ?_) fun e hin => (nomatch hin)
    cases hr
    exact ⟨_, he, by simp⟩
  case h_4 b n g he =>
    cases hs
    refine h.frame rfl rfl rfl (fun b' n' r hr hne => ?_) fun e hin => (nomatch hin)
    cases hr
    exact (hne rfl).elim
  case h_5 b n he =>
    cases hs
    exact h.frame rfl rfl rfl (by simp) fun e hin => (nomatch hin)
  case h_6 => exact h.access hw hs

end keyed
/-- A node that passed validation, with the counter and the key that were read from it. -/
structure Visit where
  node : Addr
  gc : Nat
  key : Int
  deriving DecidableEq

/-- What `CHECK_CCRT` adds to a search. `seen` is not in the program: the nodes that passed
validation since the last passage through `retry`, newest first. -/
structure Check where
  prevKey : Int
  seen : List Visit
  failed : Bool
  deriving DecidableEq

/-- `l = 0; prev_key = 0;` -/
def Check.retry (c : Check) : Check := { c with prevKey := 0, seen := [] }

/-- What `CHECK_CCRT` does along with the next access of a search: `prev_key` is cleared at `retry`,
and `assert(prev_key <= cur_key)` is evaluated where the loop goes on past a validated node. -/
def Check.read (m : Mem Int) : Searcher Int → Check → Check
  | .run .head _ _ _, c => c.retry
  | .run .curGcAgain k _ l, c =>
    if l.curGc ≠ m.gc l.cur then c
    else
      let seen := ⟨l.cur, l.curGc, l.curKey⟩ :: c.seen
      if k ≤ l.curKey then { c with seen }
      else { prevKey := l.curKey, seen, failed := c.failed || decide (l.curKey < c.prevKey) }
  | _, c => c

/-- Keys an `int` holds and that are not negative, in the bucket that `get_buckets` gives them. -/
def InBucket (nbbuckets : Nat) (b k : Int) : Prop := 0 ≤ k ∧ k < 2 ^ 31 ∧ b = getBuckets nbbuckets k

instance (nbbuckets : Nat) (b k : Int) : Decidable (InBucket nbbuckets b k) := instDecidableAnd

/-- `insert` is called with keys that are not negative, each for its bucket. -/
def Act.proper (nbbuckets : Nat) : Act Int υ ρ → Bool
  | .begin _ .insert k b => decide (InBucket nbbuckets b k)
  | _ => true

/-- The program with `CHECK_CCRT`. -/
structure Checked (υ ρ : Type) where
  state : State Int υ ρ
  check : ρ → Check

def Checked.init (υ ρ : Type) : Checked υ ρ := ⟨.init Int υ ρ, fun _ => ⟨0, [], false⟩⟩

section checked
variable [DecidableEq υ] [DecidableEq ρ]

/-- One step; the locals of a search are new with every call. -/
def stepChecked (nbbuckets : Nat) (cfg : Locking υ) (s : Checked υ ρ) (a : Act Int υ ρ) : Option (Checked υ ρ) :=
  if a.proper nbbuckets then
    (step cfg .plain s.state a).map fun t => ⟨t, match a with
      | .call r _ _ _ => Function.update s.check r (s.check r).retry
      | .read r => Function.update s.check r ((s.check r).read s.state.shared.mem (s.state.rd r))
      | _ => s.check⟩
  else none

end checked

variable {nbbuckets : Nat} {s s' : Shared Int υ} {b : Int} {c : Check} {x x' : Searcher Int}

/-- What holds of the visits of an attempt: their keys ascend within the bucket, and a node that has
not been freed since still has its key. -/
structure Law (nbbuckets : Nat) (s : Shared Int υ) (b : Int) (c : Check) : Prop where
  ascending : c.seen.Pairwise fun v w => w.key < v.key
  apart : c.seen.Pairwise fun v w => (v.node, v.gc) ≠ (w.node, w.gc)
  pinned : ∀ v ∈ c.seen, InBucket nbbuckets b v.key ∧ (view Int υ).Pinned (· = v.key) s b v.node v.gc
  prev : c.prevKey = 0 ∨ ∃ v ∈ c.seen, c.prevKey = v.key
  passed : c.failed = false

/-- Beyond all visits of the attempt. -/
def Beyond (nbbuckets : Nat) (b : Int) (c : Check) (κ : Int) : Prop :=
  InBucket nbbuckets b κ ∧ ∀ v ∈ c.seen, v.key < κ

/-- What a search knows at each of its loads: the node it stands on, as long as it has not been
freed, is beyond all that it has visited. -/
def Fits (nbbuckets : Nat) (s : Shared Int υ) (b : Int) (c : Check) : Searcher Int → Prop
  | .idle | .returned _ => True
  | .run pc _ b' l => b' = b ∧ match pc with
    | .head => True
    | .curGc => c.seen = []
    | .headAgain => c.seen = [] ∧ l.curGc ≤ s.mem.gc l.cur
    | .curKey => (view Int υ).Pinned (Beyond nbbuckets b c) s b l.cur l.curGc
    | .next | .nextGc => (view Int υ).Pinned (Beyond nbbuckets b c) s b l.cur l.curGc ∧
      (s.mem.gc l.cur = l.curGc → l.curKey = s.mem.key l.cur)
    | .nextAgain => ((view Int υ).Pinned (Beyond nbbuckets b c) s b l.cur l.curGc ∧
      (s.mem.gc l.cur = l.curGc → l.curKey = s.mem.key l.cur)) ∧ ∀ q ∈ l.next, l.nextGc ≤ s.mem.gc q
    | .curGcAgain => ((view Int υ).Pinned (Beyond nbbuckets b c) s b l.cur l.curGc ∧
      (s.mem.gc l.cur = l.curGc → l.curKey = s.mem.key l.cur)) ∧
      (s.mem.gc l.cur = l.curGc → ∀ q ∈ l.next,
        (view Int υ).Pinned (fun κ => InBucket nbbuckets b κ ∧ l.curKey < κ) s b q l.nextGc)
    | .prevGcAgain => False

theorem Law.evolve (h : Law nbbuckets s b c) (he : (view Int υ).Evolves s s') : Law nbbuckets s' b c :=
  { h with pinned := fun v hv => ⟨(h.pinned v hv).1, (h.pinned v hv).2.evolve he⟩ }

theorem Law.retry (h : Law nbbuckets s b c) (b' : Int) : Law nbbuckets s b' c.retry where
  ascending := .nil
  apart := .nil
  pinned _ hv := nomatch hv
  prev := .inl rfl
  passed := h.passed

theorem Fits.evolve (h : Fits nbbuckets s b c x) (he : (view Int υ).Evolves s s') : Fits nbbuckets s' b c x := by
  have hle {n : Addr} {g : Nat} (hg : g ≤ s.mem.gc n) : g ≤ s'.mem.gc n := le_trans hg (he b n).1
  cases x with
  | idle | returned => trivial
  | run pc k b' l =>
    obtain ⟨rfl, h⟩ := h
    refine ⟨rfl, ?_⟩
    cases pc with
    | head => trivial
    | curGc => exact h
    | headAgain => exact ⟨h.1, hle h.2⟩
    | curKey => exact h.evolve he
    | next | nextGc => exact ⟨h.1.evolve he, h.1.key_evolve he h.2⟩
    | nextAgain => exact ⟨⟨h.1.1.evolve he, h.1.1.key_evolve he h.1.2⟩, fun q hq => hle (h.2 q hq)⟩
    | curGcAgain =>
      refine ⟨⟨h.1.1.evolve he, h.1.1.key_evolve he h.1.2⟩, fun hg q hq => ?_⟩
      have hs : s.mem.gc l.cur = l.curGc := le_antisymm (le_trans (he b' l.cur).1 (le_of_eq hg)) h.1.1.1
      exact (h.2 hs q hq).evolve he
    | prevGcAgain => exact h

/-- A validated node joins the visits. -/
theorem Law.visit (h : Law nbbuckets s b c) {n : Addr} {g : Nat} (hp : (view Int υ).Pinned (Beyond nbbuckets b c) s b n g)
    (hg : s.mem.gc n = g) {p : Int} (hprev : p = c.prevKey ∨ p = s.mem.key n) :
    Law nbbuckets s b ⟨p, ⟨n, g, s.mem.key n⟩ :: c.seen, c.failed⟩ where
  ascending := List.pairwise_cons.mpr ⟨(hp.2 hg).2.2, h.ascending⟩
  apart := by
    refine List.pairwise_cons.mpr ⟨fun v hv he => ?_, h.apart⟩
    obtain ⟨rfl, rfl⟩ := Prod.mk.inj he
    have hk : s.mem.key v.node = v.key := ((h.pinned v hv).2.2 hg).2
    exact ne_of_gt ((hp.2 hg).2.2 v hv) hk
  pinned v hv := by
    rcases List.mem_cons.mp hv with rfl | hv
    · exact ⟨(hp.2 hg).2.1, hp.1, fun hg => ⟨(hp.2 hg).1, rfl⟩⟩
    · exact h.pinned v hv
  prev := by
    rcases hprev with rfl | rfl
    · exact h.prev.imp_right fun ⟨v, hv, he⟩ => ⟨v, by simp [hv], he⟩
    · exact .inr ⟨⟨n, g, s.mem.key n⟩, by simp, rfl⟩
  passed := h.passed

/-- A node beyond the visits is beyond `prev_key`. -/
theorem Law.prevKey_le (h : Law nbbuckets s b c) {κ : Int} (hκ : Beyond nbbuckets b c κ) : c.prevKey ≤ κ := by
  rcases h.prev with he | ⟨v, hv, he⟩
  · rw [he]; exact hκ.1.1
  · rw [he]; exact le_of_lt (hκ.2 v hv)

private theorem fits_loop {k : Int} {l : Locals} {p : Ptr}
    (h : ∀ q ∈ p, (view Int υ).Pinned (Beyond nbbuckets b c) s b q l.curGc) :
    Fits nbbuckets s b c (Searcher.loop k b l p) := by
  cases p with
  | none => trivial
  | some q => exact ⟨rfl, h q rfl⟩

/-- The node after a live one is live, and its key is the greater one. -/
private theorem next_pinned (hw : Writers s.mem s.upd) (hk : Shared.Keyed (InBucket nbbuckets) s) {n q : Addr} {g : Nat}
    (hl : s.Live b n) (hn : s.mem.next n = some q) (hg : g ≤ s.mem.gc q) :
    (view Int υ).Pinned (fun κ => InBucket nbbuckets b κ ∧ s.mem.key n < κ) s b q g := by
  obtain ⟨l₁, l₂, hc, hx, _, habove⟩ := hl.around hw
  obtain ⟨l₃, rfl⟩ : ∃ l₃, l₂ = q :: l₃ := List.head?_eq_some_iff.mp (hx.symm.trans hn)
  have hq : s.Live b q := .inl (by rcases hc with hc | hc <;> simp [hc])
  exact ⟨hg, fun _ => ⟨hq, hk.live b q hq, habove q (by simp)⟩⟩

/-- An access of a search, together with what `CHECK_CCRT` does there, keeps the law. -/
theorem Fits.read (h : Fits nbbuckets s b c x) (hlaw : Law nbbuckets s b c) (hw : Writers s.mem s.upd)
    (hk : Shared.Keyed (InBucket nbbuckets) s) (hs : x.step .plain s.mem = some x') :
    Law nbbuckets s b (c.read s.mem x) ∧ Fits nbbuckets s b (c.read s.mem x) x' := by
  cases x with
  | idle | returned => simp [Searcher.step] at hs
  | run pc k b' l =>
    obtain ⟨rfl, h⟩ := h
    cases pc with
    | head =>
      refine ⟨hlaw.retry b', ?_⟩
      simp only [Searcher.step] at hs
      split at hs <;> cases hs
      · trivial
      · exact ⟨rfl, rfl⟩
    | curGc =>
      cases hs
      exact ⟨hlaw, rfl, h, le_refl (s.mem.gc l.cur)⟩
    | headAgain =>
      refine ⟨hlaw, ?_⟩
      simp only [Searcher.step] at hs
      split at hs <;> cases hs
      · exact ⟨rfl, trivial⟩
      · rename_i hhead
        have hl : s.Live b' l.cur := .inl (hw.table.head_some (k := 0) (not_not.mp hhead).symm).1
        refine ⟨rfl, h.2, fun _ => ⟨hl, hk.live b' l.cur hl, fun v hv => ?_⟩⟩
        simp [h.1, Check.read] at hv
    | curKey =>
      cases hs
      exact ⟨hlaw, rfl, h, fun _ => rfl⟩
    | next =>
      refine ⟨hlaw, ?_⟩
      simp only [Searcher.step] at hs
      split at hs <;> cases hs
      · exact ⟨rfl, h, by simp⟩
      · exact ⟨rfl, h⟩
    | nextGc =>
      refine ⟨hlaw, ?_⟩
      simp only [Searcher.step] at hs
      split at hs <;> cases hs
      rename_i n hn
      exact ⟨rfl, h, by simp [hn]⟩
    | nextAgain =>
      refine ⟨hlaw, ?_⟩
      simp only [Searcher.step] at hs
      split at hs <;> cases hs
      · exact ⟨rfl, trivial⟩
      · rename_i hnx
        refine ⟨rfl, h.1, fun hg q hq => ?_⟩
        rw [h.1.2 hg]
        exact next_pinned hw hk (h.1.1.2 hg).1 ((not_not.mp hnx).symm.trans hq) (h.2 q hq)
    | curGcAgain =>
      obtain ⟨⟨hcur, hkey⟩, hnext⟩ := h
      simp only [Searcher.step] at hs
      by_cases hg : l.curGc = s.mem.gc l.cur
      · rw [if_neg (not_not.mpr hg)] at hs
        have hkey := hkey hg.symm
        have hbeyond : Beyond nbbuckets b' c l.curKey := hkey ▸ (hcur.2 hg.symm).2
        have hprev : ¬ l.curKey < c.prevKey := not_lt.mpr (hlaw.prevKey_le hbeyond)
        split at hs <;> cases hs
        · rename_i hle
          have hread : c.read s.mem (.run .curGcAgain k b' l) =
              ⟨c.prevKey, ⟨l.cur, l.curGc, l.curKey⟩ :: c.seen, c.failed⟩ := by simp [Check.read, hg, hle]
          rw [hread, hkey]
          exact ⟨hlaw.visit hcur hg.symm (.inl rfl), trivial⟩
        · rename_i hle
          have hread : c.read s.mem (.run .curGcAgain k b' l) =
              ⟨l.curKey, ⟨l.cur, l.curGc, l.curKey⟩ :: c.seen, c.failed⟩ := by
            simp [Check.read, hg, hle, hprev]
          rw [hread]
          refine ⟨hkey ▸ hlaw.visit hcur hg.symm (.inr rfl), fits_loop fun q hq => ?_⟩
          refine (hnext hg.symm q hq).mono fun κ hκ => ⟨hκ.1, fun v hv => ?_⟩
          rcases List.mem_cons.mp hv with rfl | hv
          · exact hκ.2
          · exact lt_trans (hbeyond.2 v hv) hκ.2
      · rw [if_pos hg] at hs
        cases hs
        have hread : c.read s.mem (.run .curGcAgain k b' l) = c := by simp [Check.read, hg]
        rw [hread]
        exact ⟨hlaw, rfl, trivial⟩
    | prevGcAgain => exact h.elim

section law
variable [DecidableEq υ] [DecidableEq ρ] {cfg : Locking υ} {s s' : Checked υ ρ} {a : Act Int υ ρ}

structure CheckedInv (nbbuckets : Nat) (cfg : Locking υ) (s : Checked υ ρ) : Prop where
  inv : Inv cfg s.state.shared
  keyed : Shared.Keyed (InBucket nbbuckets) s.state.shared
  law : ∀ r, ∃ b, Law nbbuckets s.state.shared b (s.check r) ∧ Fits nbbuckets s.state.shared b (s.check r) (s.state.rd r)

omit [DecidableEq υ] [DecidableEq ρ] in
theorem CheckedInv.init : CheckedInv nbbuckets cfg (.init υ ρ) where
  inv := .init
  keyed := .init
  law _ := ⟨0, ⟨.nil, .nil, fun _ hv => (nomatch hv), .inl rfl, rfl⟩, trivial⟩

theorem CheckedInv.step (h : CheckedInv nbbuckets cfg s) (hs : stepChecked nbbuckets cfg s a = some s') :
    CheckedInv nbbuckets cfg s' := by
  unfold stepChecked at hs
  split at hs
  case isFalse => contradiction
  rename_i hproper
  obtain ⟨t, ht, rfl⟩ := Option.map_eq_some_iff.mp hs
  obtain ⟨hinv, hev⟩ := h.inv.step ht
  -- what the other readers know does not depend on who moves
  have hlaw (r : ρ) (hr : t.rd r = s.state.rd r) : ∃ b, Law nbbuckets t.shared b (s.check r) ∧
      Fits nbbuckets t.shared b (s.check r) (t.rd r) := by
    obtain ⟨b, hl, hf⟩ := h.law r
    exact ⟨b, hl.evolve hev, hr ▸ hf.evolve hev⟩
  cases a with
  | begin u op k b =>
    obtain ⟨w, hw, rfl⟩ := Option.map_eq_some_iff.mp ht
    refine ⟨hinv, ⟨fun b' n hl => ?_, fun v k' b' hv => ?_⟩, fun r => hlaw r rfl⟩
    · refine h.keyed.live b' n (hl.imp_right fun ⟨v, r, hv, hr⟩ => ?_)
      by_cases e : v = u
      · subst e
        have hw' : w = .freeNodeLater b' n r := by simpa [Shared.put] using hv
        rw [hw'] at hw
        unfold Writer.begin at hw
        split at hw
        all_goals first | contradiction | (cases op <;> cases hw)
      · exact ⟨v, r, by simpa [Shared.put, Function.update_of_ne e] using hv, hr⟩
    · by_cases e : v = u
      · subst e
        obtain ⟨rfl, he⟩ := Writer.inserting_begin hw (by simpa [Shared.put] using hv)
        cases he
        exact of_decide_eq_true hproper
      · exact h.keyed.inserting v k' b' (by simpa [Shared.put, Function.update_of_ne e] using hv)
  | update u =>
    obtain ⟨mw, hm, rfl⟩ := Option.map_eq_some_iff.mp ht
    exact ⟨hinv, keyed_update h.keyed h.inv.writers hm, fun r => hlaw r rfl⟩
  | alloc u n =>
    obtain ⟨⟨m', w'⟩, hm, rfl⟩ := Option.map_eq_some_iff.mp ht
    refine ⟨hinv, ?_, fun r => hlaw r rfl⟩
    have hin := Writer.inserting_alloc hm
    unfold Writer.alloc at hm
    split at hm
    case h_2 => contradiction
    split at hm <;> cases hm
    exact h.keyed.frame rfl rfl rfl (by simp) fun e he => by rw [← hin]; exact he
  | call r k b l =>
    have hst : t.shared = s.state.shared ∧ t.rd = Function.update s.state.rd r (.run .head k b { l with prevSet := false }) := by
      simp only [ListGecos.step] at ht
      split at ht <;> cases ht <;> exact ⟨rfl, rfl⟩
    refine ⟨hinv, hst.1 ▸ h.keyed, fun r' => ?_⟩
    by_cases e : r' = r
    · subst e
      obtain ⟨b₀, hl, _⟩ := h.law r'
      refine ⟨b, ?_⟩
      simp only [Function.update_self, hst.2]
      exact ⟨hst.1 ▸ hl.retry b, rfl, trivial⟩
    · simp only [Function.update_of_ne e]
      exact hlaw r' (by rw [hst.2, Function.update_of_ne e])
  | read r =>
    obtain ⟨x, hx, rfl⟩ := Option.map_eq_some_iff.mp ht
    refine ⟨hinv, h.keyed, fun r' => ?_⟩
    by_cases e : r' = r
    · subst e
      obtain ⟨b, hl, hf⟩ := h.law r'
      refine ⟨b, ?_⟩
      simp only [Function.update_self]
      exact hf.read hl h.inv.writers h.keyed hx
    · simp only [Function.update_of_ne e]
      exact h.law r'

/-- The law that `CHECK_CCRT` checks: in every run, the keys that pass validation in one attempt of
a search ascend strictly and are congruent to the bucket searched, so the assertion holds, and no node is
visited twice in one incarnation. -/
theorem ccrt_law (nbbuckets : Nat) (cfg : Locking υ) {s : Checked υ ρ}
    (h : Reachable (Steps (stepChecked nbbuckets cfg)) (.init υ ρ) s) (r : ρ) :
    (s.check r).failed = false ∧
    ((s.check r).seen.Pairwise fun later earlier => earlier.key < later.key) ∧
    (∃ b, (∀ v ∈ (s.check r).seen, v.key % nbbuckets = b) ∧ ∀ pc k b' l, s.state.rd r = .run pc k b' l → b' = b) ∧
    (s.check r).seen.Pairwise fun v w => (v.node, v.gc) ≠ (w.node, w.gc) := by
  have hinv : CheckedInv nbbuckets cfg s := h.invariant .init fun _ _ _ hi hs => hi.step hs
  obtain ⟨b, hlaw, hfits⟩ := hinv.law r
  refine ⟨hlaw.passed, hlaw.ascending, ⟨b, fun v hv => ?_, fun pc k b' l hr => ?_⟩, hlaw.apart⟩
  · obtain ⟨⟨h₀, hlt, hb⟩, _⟩ := hlaw.pinned v hv
    rw [hb, getBuckets_eq h₀ hlt]
  · rw [hr] at hfits
    exact hfits.1

/-- A search that passes two nodes while the first of them is deleted. -/
theorem ccrt_law_two : ∃ s : Checked Unit Unit, (s.check ()).seen = [⟨0, 0, 5⟩, ⟨1, 0, 3⟩] ∧
    (s.check ()).failed = false ∧ (s.check ()).seen.Pairwise fun later earlier => earlier.key < later.key := by
  have h : (exec (stepChecked 2 .solo) (.init Unit Unit)
      ([Act.begin () .insert 5 1, .update (), .update (), .alloc () 0, .update (), .update (), .update (), .update (),
        .begin () .insert 3 1, .update (), .update (), .update (), .update (), .alloc () 1, .update (), .update (),
        .update (), .update (), .call () 5 1 ⟨7, none, none, 0, 0, 0, 0, false⟩, .read (), .read (), .read (),
        .read (), .read (), .read (), .read (), .read (), .begin () .delete 3 1, .update (), .update (), .update (),
        .update (), .update (), .update (), .update (), .update (), .update (), .update (), .read (), .read (), .read (),
        .read ()])).any fun s => decide ((s.check ()).seen = [⟨0, 0, 5⟩, ⟨1, 0, 3⟩]) := by decide
  obtain ⟨s, hs, hp⟩ := Option.any_eq_true _ _ |>.mp h
  obtain ⟨hok, hasc, _⟩ := ccrt_law 2 .solo ⟨_, exec_run hs⟩ ()
  exact ⟨s, of_decide_eq_true hp, hok, hasc⟩

end law
end ListGecos
end Gecos
