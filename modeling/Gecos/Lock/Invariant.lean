import Gecos.Lock.Search
import Gecos.Library.Run
import Gecos.Table.WriterStep

/-! The lock word of a bucket is odd exactly while an updater is inside, and what each step of an
updater does to it. -/
namespace Gecos.ListLock
open Library
variable {β υ ρ : Type} {B : Build υ} {s : State β υ ρ} {m m' : Mem β} {u v : υ} {x x' : Updater β}
  [DecidableEq β]

/-- Whether `lock_wlock` marks the word. -/
def Build.marks (B : Build υ) : Prop := B.macros = .seqlock ∨ B.oneWriter = false

/-- What an updater with the word loaded knows of it. -/
def Updater.Loaded (B : Build υ) (m : Mem β) : Updater β → Prop
  | .take _ _ b old => B.marks ∧ if B.oneWriter then m.locks b = old else old % 2 = 0
  | .check _ _ _ => B.marks
  | .release b _ old => B.oneWriter = true ∧ m.locks b = old
  | .aborted => False
  | _ => True

/-- The nodes that only the updater has, to free them. -/
def Updater.frees : Updater β → Option Addr
  | .free n => some n
  | _ => none

structure Inv (B : Build υ) (s : State β υ ρ) : Prop where
  writers : Writers s.mem fun u => (s.upd u).writer
  word : B.marks → ∀ b, s.mem.locks b % 2 = 1 ↔ ∃ u, (s.upd u).inside = some b
  loaded : ∀ u, (s.upd u).Loaded B s.mem
  retired : ∀ u n, (s.upd u).frees = some n →
    s.mem.avail n = false ∧ (∀ b, n ∉ s.mem.chain b) ∧ ∀ v, (s.upd v).writer.inHand ≠ some n
  apart : ∀ u v n, (s.upd u).frees = some n → (s.upd v).frees = some n → u = v
  balance : ∀ u b, s.took u b = s.gave u b + if (s.upd u).inside = some b then 1 else 0

theorem Inv.init : Inv B (.init β υ ρ) where
  writers := .init
  word _ b := by simp [State.init, Mem.init, Updater.inside, Updater.writer, Writer.inside]
  loaded _ := trivial
  retired _ _ h := by simp [State.init, Updater.frees] at h
  apart _ _ _ h := by simp [State.init, Updater.frees] at h
  balance _ _ := by simp [State.init, Updater.inside, Updater.writer, Writer.inside]

/-- What an updater does in one step, with the bucket whose lock it takes or releases. -/
inductive Moves (B : Build υ) (m : Mem β) (x : Updater β) :
    Mem β → Updater β → Option β → Option β → Prop where
  | access (w : Writer β Unit) (m' : Mem β) (w' : Writer β Unit) : x = .list w → w.step () m = some (m', w') →
      Moves B m x m' (.list w') none none
  | rest (x' : Updater β) : x'.writer = x.writer → x'.Loaded B m → x.frees = none → x'.frees = none →
      Moves B m x m x' none none
  | enter (op : Op) (k : Int) (b : β) (g : Nat) (x' : Updater β) : x.writer = .wlock op k b →
      x'.writer = .loadHead op k b → (∀ m : Mem β, x'.Loaded B m) → x'.frees = none →
      (B.marks → m.locks b % 2 = 0 ∧ g = m.locks b + 1) → (¬ B.marks → g = m.locks b) →
      Moves B m x { m with locks := Function.update m.locks b g } x' (some b) none
  | leave (b : β) (e : Exit) : x.writer = (Updater.release b e 0).writer → x.frees = none →
      Moves B m x { m with locks := Function.update m.locks b (m.locks b + 1) } (Updater.leave e) none (some b)
  | freeInside (b : β) (n : Addr) : x.writer = .freeNodeLater b n () → x.frees = none → B.macros = .seqlock →
      Moves B m x { m with avail := Function.update m.avail n true } (.list (.wunlock b 1)) none none
  | free (n : Addr) : x = .free n →
      Moves B m x { m with avail := Function.update m.avail n true } (.list (.returned 1)) none none

omit [DecidableEq β] in
theorem marked_even {g : Nat} (h : g % 2 = 0) : B.marked g = g + 1 := by
  unfold Build.marked
  split
  · rfl
  · have h₁ : (g ||| 1) / 2 = g / 2 := by simp [Nat.or_div_two]
    have h₂ : (g ||| 1) % 2 = 1 := Nat.or_mod_two_eq_one.mpr (.inr rfl)
    omega

theorem unlock_moves {b : β} {e : Exit} (hw : x.writer = (Updater.release b e 0).writer) (hf : x.frees = none)
    (hs : Updater.unlock B m b e = (m', x')) :
    Moves B m x m' x' none (if B.oneWriter then none else some b) := by
  unfold Updater.unlock at hs
  split at hs <;> cases hs
  · rename_i ho
    simp only [ho, if_true]
    refine .rest _ ?_ ⟨ho, rfl⟩ hf rfl
    rw [hw]
    cases e <;> rfl
  · rename_i ho
    simp only [ho]
    exact .leave b e hw hf

/-- The step function does nothing else. -/
theorem Inv.moves (h : Inv B s) (hs : (s.upd u).step B s.mem = some (m', x')) :
    Moves B s.mem (s.upd u) m' x' ((s.upd u).takes B s.mem) ((s.upd u).gives B) := by
  have hl := h.loaded u
  cases hx : s.upd u with
  | aborted =>
    rw [hx] at hl
    exact hl.elim
  | free n =>
    rw [hx] at hs
    cases hs
    exact .free n rfl
  | release b e old =>
    rw [hx] at hs hl
    cases hs
    obtain ⟨_, rfl⟩ := hl
    refine .leave b e ?_ rfl
    cases e <;> rfl
  | check op k b =>
    rw [hx] at hs hl
    have hodd : s.mem.locks b % 2 = 1 := (h.word hl b).mpr ⟨u, by rw [hx]; rfl⟩
    simp only [Updater.step, hodd, if_true, Option.some.injEq, Prod.mk.injEq] at hs
    obtain ⟨rfl, rfl⟩ := hs
    exact .rest _ rfl trivial rfl rfl
  | take op k b old =>
    rw [hx] at hs hl
    obtain ⟨hm, hl⟩ := hl
    by_cases ho : B.oneWriter = true
    · simp only [ho, if_true] at hl
      subst hl
      simp only [Updater.step, ho, if_true, Option.some.injEq, Prod.mk.injEq] at hs
      obtain ⟨rfl, rfl⟩ := hs
      simp only [Updater.takes, ho, true_or, if_true, Updater.gives]
      refine .enter op k b _ _ rfl rfl (fun _ => trivial) rfl (fun _ => ⟨?_, rfl⟩) fun hn => (hn hm).elim
      have hno : ¬ s.mem.locks b % 2 = 1 := fun hodd => by
        obtain ⟨v, hv⟩ := (h.word hm b).mp hodd
        rw [B.single ho v u, hx] at hv
        simp [Updater.inside, Updater.writer, Writer.inside] at hv
      omega
    · simp only [ho] at hl
      by_cases he : s.mem.locks b = old
      · subst he
        simp only [Updater.step, ho, if_true, Option.some.injEq] at hs
        obtain ⟨rfl, rfl⟩ := Prod.mk.inj hs
        simp only [Updater.takes, ho, or_true, if_true, Updater.gives]
        exact .enter op k b _ _ rfl rfl (fun _ => hm) rfl (fun _ => ⟨hl, marked_even hl⟩) fun hn => (hn hm).elim
      · simp only [Updater.step, ho, he, if_false, Option.some.injEq] at hs
        obtain ⟨rfl, rfl⟩ := Prod.mk.inj hs
        simp only [Updater.takes, ho, he, Updater.gives]
        exact .rest _ rfl trivial rfl rfl
  | list w =>
    rw [hx] at hs
    cases w with
    | wlock op k b =>
      simp only [Updater.step, Option.some.injEq, Prod.mk.injEq] at hs
      obtain ⟨rfl, rfl⟩ := hs
      by_cases ho : B.oneWriter = true
      · simp only [ho, if_true, Updater.takes, Updater.gives]
        cases hk : B.macros with
        | seqlock => exact .rest _ rfl ⟨.inl hk, by simp [ho]⟩ rfl rfl
        | gclock =>
          have hm : ¬ B.marks := by simp [Build.marks, ho, hk]
          have he := Moves.enter (B := B) (m := s.mem) (x := .list (.wlock op k b)) op k b (s.mem.locks b)
            (.list (.loadHead op k b)) rfl rfl (fun _ => trivial) rfl (fun h => (hm h).elim) fun _ => rfl
          simpa using he
      · by_cases hodd : s.mem.locks b % 2 = 1
        · simp only [ho, hodd, if_true, Updater.takes, Updater.gives]
          exact .rest _ rfl trivial rfl rfl
        · simp only [ho, hodd, if_false, Updater.takes, Updater.gives]
          exact .rest _ rfl ⟨.inr (by simpa using ho), by simp only [ho]; simp; omega⟩ rfl rfl
    | wunlock b res =>
      simp only [Updater.step, Option.some.injEq] at hs
      exact unlock_moves (e := .ret res) rfl rfl hs
    | freeNodeLater b n r =>
      simp only [Updater.step, Option.some.injEq] at hs
      cases hk : B.macros with
      | seqlock =>
        simp only [hk, Prod.mk.injEq] at hs
        obtain ⟨rfl, rfl⟩ := hs
        simp only [Updater.takes, Updater.gives, hk, true_or, if_true]
        exact .freeInside b n rfl rfl hk
      | gclock =>
        simp only [hk] at hs
        simp only [Updater.takes, Updater.gives, hk, reduceCtorEq, false_or]
        exact unlock_moves (e := .free n) rfl rfl hs
    | ready | initNewNode | handOver | returned => simp [Updater.step, Writer.step] at hs
    | emptyTest | loadHead | loadKey | loadKeyAgain | advance | loadNext | unlink | storeKey | storeNext | link =>
      simp only [Updater.step] at hs
      obtain ⟨⟨m₁, w'⟩, hw, he⟩ := Option.map_eq_some_iff.mp hs
      cases he
      exact .access _ m₁ w' rfl hw

omit [DecidableEq β] in
theorem begin_outside {op : Op} {k : Int} {b : β} (hs : x.begin op k b = some x') (b' : β) (n : Addr) :
    x.writer ≠ .freeNodeLater b' n () := by
  intro he
  cases x with
  | list w =>
    obtain rfl : w = .freeNodeLater b' n () := he
    simp [Updater.begin, Writer.begin] at hs
  | take | check | release | free | aborted => simp [Updater.begin] at hs

omit [DecidableEq β] in
theorem alloc_outside {n : Addr} (hs : x.alloc m n = some (m', x')) :
    (∀ b n, x.writer ≠ .freeNodeLater b n ()) ∧ m'.key = m.key ∧ m'.next = m.next ∧ m'.heads = m.heads ∧
      m'.locks = m.locks := by
  cases x with
  | take | check | release | free | aborted => simp [Updater.alloc] at hs
  | list w =>
    obtain ⟨⟨m₁, w'⟩, hw, he⟩ := Option.map_eq_some_iff.mp hs
    cases he
    unfold Writer.alloc at hw
    split at hw
    case h_2 => contradiction
    split at hw <;> cases hw
    exact ⟨nofun, rfl, rfl, rfl, rfl⟩

section keep
variable [DecidableEq υ] {took gave : υ → β → Nat} {rd : ρ → Searcher β} {t g : Option β}

omit [DecidableEq β] in
theorem writers_put (s : State β υ ρ) (u : υ) (x' : Updater β) :
    (fun v => (Function.update s.upd u x' v).writer) = Function.update (fun v => (s.upd v).writer) u x'.writer := by
  funext v
  exact Function.apply_update (fun _ => Updater.writer) s.upd u x' v

/-- The general rule for a move of one updater. -/
theorem Inv.put (h : Inv B s) (hw : Writers m' (Function.update (fun v => (s.upd v).writer) u x'.writer))
    (hword : B.marks → ∀ b, m'.locks b % 2 = 1 ↔ x'.inside = some b ∨ ∃ v, v ≠ u ∧ (s.upd v).inside = some b)
    (hl : x'.Loaded B m')
    (hother : ∀ v n, v ≠ u → (s.upd v).frees = some n →
      m'.avail n = false ∧ (∀ b, n ∉ m'.chain b) ∧ x'.writer.inHand ≠ some n ∧ x'.frees ≠ some n)
    (hown : ∀ n, x'.frees = some n →
      m'.avail n = false ∧ (∀ b, n ∉ m'.chain b) ∧ x'.writer.inHand ≠ some n ∧ ∀ v ≠ u, (s.upd v).writer.inHand ≠ some n)
    (hbal : ∀ v b, took v b = gave v b + if (Function.update s.upd u x' v).inside = some b then 1 else 0) :
    Inv B ⟨m', Function.update s.upd u x', rd, took, gave⟩ := by
  refine ⟨by rwa [writers_put], fun hm b => ?_, fun v => ?_, fun v n hv => ?_, fun v₁ v₂ n h₁ h₂ => ?_, hbal⟩
  · rw [hword hm b]
    constructor
    · rintro (hx | ⟨v, hne, hv⟩)
      · exact ⟨u, by simpa using hx⟩
      · exact ⟨v, by simpa [Function.update_of_ne hne] using hv⟩
    · rintro ⟨v, hv⟩
      by_cases hne : v = u
      · subst hne
        exact .inl (by simpa using hv)
      · exact .inr ⟨v, hne, by simpa [Function.update_of_ne hne] using hv⟩
  · by_cases hne : v = u
    · subst hne
      simpa using hl
    · -- another updater has a word loaded only where updaters compete for the lock
      have hv := h.loaded v
      have ho : B.oneWriter = false := by
        cases ho : B.oneWriter with
        | false => rfl
        | true => exact (hne (B.single ho v u)).elim
      simp only [Function.update_of_ne hne]
      cases hx : s.upd v with
      | take op k b old =>
        rw [hx] at hv
        simpa [Updater.Loaded, ho] using hv
      | release b e old =>
        rw [hx] at hv
        simp [Updater.Loaded, ho] at hv
      | list | check | free | aborted =>
        rw [hx] at hv
        exact hv
  · by_cases hne : v = u
    · subst hne
      obtain ⟨hav, hch, hhand, hothers⟩ := hown n (by simpa using hv)
      refine ⟨hav, hch, fun v' => ?_⟩
      by_cases hne' : v' = v
      · subst hne'
        simpa using hhand
      · simpa [Function.update_of_ne hne'] using hothers v' hne'
    · have hv' : (s.upd v).frees = some n := by simpa [Function.update_of_ne hne] using hv
      obtain ⟨hav, hch, hhand, _⟩ := hother v n hne hv'
      refine ⟨hav, hch, fun v' => ?_⟩
      by_cases hne' : v' = u
      · subst hne'
        simpa using hhand
      · simpa [Function.update_of_ne hne'] using (h.retired v n hv').2.2 v'
  · by_cases e₁ : v₁ = u <;> by_cases e₂ : v₂ = u
    · rw [e₁, e₂]
    · subst e₁
      have h₂' : (s.upd v₂).frees = some n := by simpa [Function.update_of_ne e₂] using h₂
      exact ((hother v₂ n e₂ h₂').2.2.2 (by simpa using h₁)).elim
    · subst e₂
      have h₁' : (s.upd v₁).frees = some n := by simpa [Function.update_of_ne e₁] using h₁
      exact ((hother v₁ n e₁ h₁').2.2.2 (by simpa using h₂)).elim
    · exact h.apart v₁ v₂ n (by simpa [Function.update_of_ne e₁] using h₁) (by simpa [Function.update_of_ne e₂] using h₂)

/-- What a step of an updater does to the lock words: nothing, or it takes or releases one. -/
def LockStep (B : Build υ) (s : State β υ ρ) (u : υ) (m' : Mem β) (x' : Updater β) (t g : Option β) : Prop :=
  (t = none ∧ g = none ∧ x'.inside = (s.upd u).inside ∧ m'.locks = s.mem.locks) ∨
  (∃ b w, t = some b ∧ g = none ∧ (s.upd u).inside = none ∧ x'.inside = some b ∧
    m'.locks = Function.update s.mem.locks b w ∧ (B.marks → s.mem.locks b % 2 = 0 ∧ w = s.mem.locks b + 1) ∧
    (¬ B.marks → w = s.mem.locks b)) ∨
  ∃ b, t = none ∧ g = some b ∧ (s.upd u).inside = some b ∧ x'.inside = none ∧
    m'.locks = Function.update s.mem.locks b (s.mem.locks b + 1)

omit [DecidableEq υ] in
theorem Inv.moves_lock (h : Inv B s) (hm : Moves B s.mem (s.upd u) m' x' t g) : LockStep B s u m' x' t g := by
  cases hm with
  | access w m' w' hx hw =>
    have hw' : (s.upd u).writer.step () s.mem = some (m', w') := by rw [hx]; exact hw
    obtain ⟨_, _, _, _, hlk, _⟩ := h.writers.step_keeps (u := u) hw'
    exact .inl ⟨rfl, rfl, Writer.step_inside hw', hlk⟩
  | rest x' hx => exact .inl ⟨rfl, rfl, congrArg Writer.inside hx, rfl⟩
  | enter op k b w x' hx hx' _ _ hmk hno =>
    exact .inr (.inl ⟨b, w, rfl, rfl, congrArg Writer.inside hx, congrArg Writer.inside hx', rfl, hmk, hno⟩)
  | leave b e hx =>
    refine .inr (.inr ⟨b, rfl, rfl, ?_, ?_, rfl⟩)
    · refine (congrArg Writer.inside hx).trans ?_
      cases e <;> rfl
    · cases e <;> rfl
  | freeInside b n hx => exact .inl ⟨rfl, rfl, (congrArg Writer.inside hx).symm, rfl⟩
  | free n hx => exact .inl ⟨rfl, rfl, by rw [hx]; rfl, rfl⟩

omit [DecidableEq υ] in
theorem Inv.lock_word (h : Inv B s) (hs : LockStep B s u m' x' t g) (hk : B.marks) (b : β) :
    m'.locks b % 2 = 1 ↔ x'.inside = some b ∨ ∃ v, v ≠ u ∧ (s.upd v).inside = some b := by
  have hold := h.word hk b
  have hsplit : (∃ v, (s.upd v).inside = some b) ↔
      (s.upd u).inside = some b ∨ ∃ v, v ≠ u ∧ (s.upd v).inside = some b := by
    constructor
    · rintro ⟨v, hv⟩
      by_cases hne : v = u
      · exact .inl (hne ▸ hv)
      · exact .inr ⟨v, hne, hv⟩
    · rintro (hu | ⟨v, _, hv⟩)
      · exact ⟨u, hu⟩
      · exact ⟨v, hv⟩
  rw [hsplit] at hold
  rcases hs with ⟨_, _, hin, hlk⟩ | ⟨b', w, _, _, hout, hin, hlk, hmk, _⟩ | ⟨b', _, _, hin, hout, hlk⟩
  · rw [hin, hlk, hold]
  · rw [hlk, hin]
    by_cases hb : b = b'
    · subst hb
      have := hmk hk
      simp only [Function.update_self, true_or, iff_true]
      omega
    · rw [Function.update_of_ne hb, hold, hout]
      have : b' ≠ b := fun he => hb he.symm
      simp [this]
  · rw [hlk, hout]
    by_cases hb : b = b'
    · subst hb
      have hodd : s.mem.locks b % 2 = 1 := hold.mpr (.inl hin)
      have hno : ¬ ∃ v, v ≠ u ∧ (s.upd v).inside = some b := fun ⟨v, hne, hv⟩ =>
        hne (h.writers.serial v u b hv hin)
      simp only [Function.update_self, reduceCtorEq, false_or, hno, iff_false]
      omega
    · rw [Function.update_of_ne hb, hold, hin]
      have : b' ≠ b := fun he => hb he.symm
      simp [this]

theorem Inv.lock_balance (h : Inv B s) (hs : LockStep B s u m' x' t g) (v : υ) (b : β) :
    count s.took u t v b = count s.gave u g v b + if (Function.update s.upd u x' v).inside = some b then 1 else 0 := by
  have hold := h.balance v b
  by_cases hv : v = u
  · subst hv
    rw [Function.update_self]
    rcases hs with ⟨rfl, rfl, hin, _⟩ | ⟨b', w, rfl, rfl, hout, hin, _⟩ | ⟨b', rfl, rfl, hin, hout, _⟩
    · rw [hin]
      exact hold
    · rw [hin]
      rw [hout] at hold
      by_cases hb : b = b'
      · subst hb
        simpa [count] using hold
      · have : b' ≠ b := fun he => hb he.symm
        simpa [count, Function.update_of_ne hb, this] using hold
    · rw [hout]
      rw [hin] at hold
      by_cases hb : b = b'
      · subst hb
        simpa [count] using hold
      · have : b' ≠ b := fun he => hb he.symm
        simpa [count, Function.update_of_ne hb, this] using hold
  · have hc (c : υ → β → Nat) (o : Option β) : count c u o v b = c v b := by
      cases o with
      | none => rfl
      | some b' => simp [count, Function.update_of_ne hv]
    rw [hc, hc, Function.update_of_ne hv]
    exact hold

omit [DecidableEq υ] in
/-- Nobody is inside a bucket that an updater is about to enter. -/
theorem Inv.enter_free (h : Inv B s) {b : β} (hout : (s.upd u).inside = none)
    (hm : B.marks → s.mem.locks b % 2 = 0) (v : υ) : (s.upd v).inside ≠ some b := by
  intro hv
  by_cases hk : B.marks
  · have := (h.word hk b).mpr ⟨v, hv⟩
    have := hm hk
    omega
  · have ho : B.oneWriter = true := by
      cases ho : B.oneWriter with
      | true => rfl
      | false => exact (hk (.inr ho)).elim
    rw [B.single ho v u, hout] at hv
    cases hv

/-- Moves that leave keys, links and nodes alone. -/
theorem Inv.put_same (h : Inv B s) (hw : Writers m' (Function.update (fun v => (s.upd v).writer) u x'.writer))
    (hs : LockStep B s u m' x' t g) (hl : x'.Loaded B m') (hn : m'.next = s.mem.next)
    (hh : m'.heads = s.mem.heads) (hav : m'.avail = s.mem.avail)
    (hhand : ∀ n, x'.writer.inHand = some n → (s.upd u).writer.inHand = some n)
    (hown : ∀ n, x'.frees = some n → (s.upd u).writer.inHand = some n ∧ x'.writer.inHand ≠ some n) :
    Inv B ⟨m', Function.update s.upd u x', rd, count s.took u t, count s.gave u g⟩ := by
  have hc (b : β) : m'.chain b = s.mem.chain b := by simp [Mem.chain, hn, hh]
  refine h.put hw (h.lock_word hs) hl (fun v n _ hv => ?_) (fun n hx => ?_) (h.lock_balance hs)
  · obtain ⟨hav', hch, hno⟩ := h.retired v n hv
    refine ⟨by rwa [hav], fun b => by rw [hc]; exact hch b, fun hx => hno u (hhand n hx), fun hx => hno u (hown n hx).1⟩
  · obtain ⟨hu, hx'⟩ := hown n hx
    have hf := h.writers.fresh u n hu
    refine ⟨by rw [hav]; exact hf.1, fun b => by rw [hc]; exact hf.2 b, hx', fun v hne hv => ?_⟩
    exact hne (h.writers.alone v u n hv hu)

/-- A node is freed that only this updater had. -/
theorem Inv.put_free (h : Inv B s) {n : Addr}
    (hw : Writers { s.mem with avail := Function.update s.mem.avail n true }
      (Function.update (fun v => (s.upd v).writer) u x'.writer))
    (hs : LockStep B s u { s.mem with avail := Function.update s.mem.avail n true } x' t g)
    (hl : x'.Loaded B { s.mem with avail := Function.update s.mem.avail n true })
    (hx : x'.frees = none) (hhand : x'.writer.inHand = none)
    (hn : ∀ v x, v ≠ u → (s.upd v).frees = some x → x ≠ n) :
    Inv B ⟨{ s.mem with avail := Function.update s.mem.avail n true }, Function.update s.upd u x', rd,
      count s.took u t, count s.gave u g⟩ := by
  refine h.put hw (h.lock_word hs) hl (fun v x hne hv => ?_) (fun x hx' => ?_) (h.lock_balance hs)
  · obtain ⟨hav, hch, _⟩ := h.retired v x hv
    refine ⟨?_, hch, by simp [hhand], by simp [hx]⟩
    simpa [Function.update_of_ne (hn v x hne hv)] using hav
  · rw [hx] at hx'
    cases hx'

theorem Inv.update (h : Inv B s) (hm : Moves B s.mem (s.upd u) m' x' t g) :
    Inv B ⟨m', Function.update s.upd u x', rd, count s.took u t, count s.gave u g⟩ := by
  have hs := h.moves_lock hm
  cases hm with
  | access w m' w' hx hw =>
    have hw' : (s.upd u).writer.step () s.mem = some (m', w') := by rw [hx]; exact hw
    obtain ⟨_, _, _, _, _, hav, hback⟩ := h.writers.step_keeps (u := u) hw'
    refine h.put (h.writers.step (u := u) hw') (h.lock_word hs) trivial (fun v n _ hv => ?_) (by simp [Updater.frees])
      (h.lock_balance hs)
    obtain ⟨hav', hch, hno⟩ := h.retired v n hv
    have hnot : ¬ ((∃ b, n ∈ m'.chain b) ∨ w'.inHand = some n) := fun hn =>
      (hback n hn).elim (fun ⟨b, hb⟩ => hch b hb) (hno u)
    exact ⟨by rwa [hav], fun b hb => hnot (.inl ⟨b, hb⟩), fun hn => hnot (.inr hn), by simp [Updater.frees]⟩
  | rest x' hx hl _ hf =>
    have hw : Writers s.mem (Function.update (fun v => (s.upd v).writer) u x'.writer) := by
      rw [hx, Function.update_eq_self u fun v => (s.upd v).writer]
      exact h.writers
    exact h.put_same hw hs hl rfl rfl rfl (by simp [hx]) (by simp [hf])
  | enter op k b w x' hx hx' hl hf hmk hno =>
    have hout : (s.upd u).inside = none := congrArg Writer.inside hx
    have hfree := h.enter_free hout fun hk => (hmk hk).1
    have hw : Writers { s.mem with locks := Function.update s.mem.locks b w }
        (Function.update (fun v => (s.upd v).writer) u x'.writer) := by
      rw [hx']
      refine h.writers.frame rfl rfl rfl (fun _ hn => .inl hn) (fun b' hb => .inr fun v => ?_) (by simp [Writer.inHand]) trivial
      cases hb
      exact hfree v
    exact h.put_same hw hs (hl _) rfl rfl rfl (by simp [hx', Writer.inHand]) (by simp [hf])
  | leave b e hx hf =>
    have hw (res : Nat) : Writers { s.mem with locks := Function.update s.mem.locks b (s.mem.locks b + 1) }
        (Function.update (fun v => (s.upd v).writer) u (.returned res)) :=
      h.writers.frame rfl rfl rfl (fun _ hn => .inl hn) (by simp [Writer.inside]) (by simp [Writer.inHand]) trivial
    cases e with
    | ret res =>
      exact h.put_same (hw res) hs trivial rfl rfl rfl (by simp [Updater.leave, Updater.writer, Writer.inHand])
        (by simp [Updater.leave, Updater.frees])
    | free n =>
      refine h.put_same (hw 1) hs trivial rfl rfl rfl (by simp [Updater.leave, Updater.writer, Writer.inHand]) fun n' hn => ?_
      cases hn
      exact ⟨by rw [hx]; rfl, by simp [Updater.leave, Updater.writer, Writer.inHand]⟩
  | freeInside b n hx hf _ =>
    refine h.put_free (h.writers.giveUp hx rfl rfl rfl rfl) hs trivial rfl rfl fun v y hne hv => ?_
    rintro rfl
    exact (h.retired v y hv).2.2 u (by rw [hx]; rfl)
  | free n hx =>
    have hu : (s.upd u).frees = some n := by rw [hx]; rfl
    obtain ⟨_, hch, hno⟩ := h.retired u n hu
    refine h.put_free ?_ hs trivial rfl rfl fun v y hne hv => ?_
    · have hr := h.writers.reclaim hch hno
      have hself : (fun v => (s.upd v).writer) = Function.update (fun v => (s.upd v).writer) u (.returned 1) := by
        refine (Function.update_eq_self u fun v => (s.upd v).writer).symm.trans ?_
        rw [hx]
        rfl
      rwa [hself] at hr
    · rintro rfl
      exact hne (h.apart v u y hv hu)

theorem Inv.begin (h : Inv B s) {op : Op} {k : Int} {b : β} (hs : (s.upd u).begin op k b = some x') :
    Inv B { s with upd := Function.update s.upd u x' } := by
  cases hx : s.upd u with
  | take | check | release | free | aborted => simp [hx, Updater.begin] at hs
  | list w =>
    rw [hx] at hs
    obtain ⟨w', hw, rfl⟩ := Option.map_eq_some_iff.mp hs
    have hout : w.inside = none ∧ w'.inside = none ∧ w'.inHand = none ∧ w'.Facts s.mem := by
      unfold Writer.begin at hw
      split at hw
      case h_3 => contradiction
      all_goals cases op <;> cases hw <;> exact ⟨rfl, rfl, rfl, trivial⟩
    obtain ⟨hin, hin', hhand, hf⟩ := hout
    have hls : LockStep B s u s.mem (.list w') none none := .inl ⟨rfl, rfl, by rw [hx]; exact hin'.trans hin.symm, rfl⟩
    have hws : Writers s.mem (Function.update (fun v => (s.upd v).writer) u w') :=
      h.writers.stay (by simp [hin']) (by simp [hhand]) hf
    exact h.put_same hws hls trivial rfl rfl rfl
      (by simp [Updater.writer, hhand]) (by simp [Updater.frees])

theorem Inv.alloc (h : Inv B s) {n : Addr} (hs : (s.upd u).alloc s.mem n = some (m', x')) :
    Inv B { s with mem := m', upd := Function.update s.upd u x' } := by
  cases hx : s.upd u with
  | take | check | release | free | aborted => simp [hx, Updater.alloc] at hs
  | list w =>
    rw [hx] at hs
    obtain ⟨⟨m₁, w'⟩, hw, he⟩ := Option.map_eq_some_iff.mp hs
    cases he
    unfold Writer.alloc at hw
    split at hw
    case h_2 => contradiction
    rename_i k b prev cur
    split at hw
    case isFalse => contradiction
    rename_i hav
    cases hw
    have hwr : (s.upd u).writer = .initNewNode k b prev cur := by rw [hx]; rfl
    have hls : LockStep B s u { s.mem with avail := Function.update s.mem.avail n false }
        (.list (.storeKey k b prev cur n)) none none := .inl ⟨rfl, rfl, by rw [hx]; rfl, rfl⟩
    refine h.put (h.writers.handOut hwr hav rfl rfl id) (h.lock_word hls) trivial (fun v y _ hv => ?_)
      (by simp [Updater.frees]) (h.lock_balance hls)
    obtain ⟨hav', hch, _⟩ := h.retired v y hv
    have hne : y ≠ n := by
      rintro rfl
      rw [hav] at hav'
      cases hav'
    exact ⟨by simpa [Function.update_of_ne hne] using hav', hch, by simpa [Updater.writer, Writer.inHand] using hne.symm,
      by simp [Updater.frees]⟩

variable [DecidableEq ρ]

theorem Inv.step {s' : State β υ ρ} {a : Act β υ ρ} (h : Inv B s) (hs : step B s a = some s') : Inv B s' := by
  cases a with
  | begin v op k b =>
    obtain ⟨x', hx, rfl⟩ := Option.map_eq_some_iff.mp hs
    exact h.begin hx
  | update v =>
    obtain ⟨⟨m', x'⟩, hx, rfl⟩ := Option.map_eq_some_iff.mp hs
    exact h.update (h.moves hx)
  | alloc v n =>
    obtain ⟨⟨m', x'⟩, hx, rfl⟩ := Option.map_eq_some_iff.mp hs
    exact h.alloc hx
  | call r k b =>
    simp only [ListLock.step] at hs
    split at hs <;> cases hs <;> exact ⟨h.writers, h.word, h.loaded, h.retired, h.apart, h.balance⟩
  | read r =>
    obtain ⟨x, _, rfl⟩ := Option.map_eq_some_iff.mp hs
    exact ⟨h.writers, h.word, h.loaded, h.retired, h.apart, h.balance⟩

theorem inv_reachable (h : Reachable (Steps (step B)) (.init β υ ρ) s) : Inv B s :=
  h.invariant Inv.init fun _ _ _ hi hr => hi.step hr

/-- The assertion of `lock_wlock` never fails. -/
theorem never_aborted (h : Reachable (Steps (step B)) (.init β υ ρ) s) (u : υ) : s.upd u ≠ .aborted := by
  intro hx
  have hl := (inv_reachable h).loaded u
  rw [hx] at hl
  exact hl

/-- A completed call of `search(k, &heads[b], &locks[b])` by `r` with result `res`; `hist` are the
states from just after the call to just before the return. -/
def Completed (B : Build υ) (r : ρ) (k : Int) (b : β) (res : Nat) (hist : List (State β υ ρ)) : Prop :=
  Interval (Steps (step B)) (.init β υ ρ) (· = .call r k b) (fun a => ∀ k b, a ≠ .call r k b)
    (fun a s => a = .read r ∧ s.rd r = .returned res) hist

end keep

/-- Two updaters without `ONE_WRITER`: the second comes to the lock while the first is inside. -/
def contended : List (Act Unit Bool Unit) :=
  [.begin true .insert 1 (), .begin false .insert 2 (), .update true, .update false, .update true, .update true,
    .update false]

end Gecos.ListLock
