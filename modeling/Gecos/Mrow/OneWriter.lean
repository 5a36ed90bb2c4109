import Gecos.Library.Run
import Gecos.Mrow.Hash
import Gecos.Table.Walk

/-! Builds with `ONE_WRITER`, where `lock_wlock` is empty: any number of updaters run list_writer.c on
the table at once, one shared access a step. -/
namespace Gecos.OneWriter
open Library Mrow

/-- `retired` are the nodes passed to `free_node_later` and not yet to `free_node`, which the builds do at
different times. `log` has, newest first, the calls that are past the store by which they succeed:
from there on they only free and unlock, and return 1. -/
structure State (υ : Type) where
  mem : Mem Int
  upd : υ → Writer Int Unit
  retired : Addr → Bool
  log : List (Op × Int)

inductive Act (υ : Type) where
  | begin (u : υ) (op : Op) (k : Int)
  | update (u : υ)
  | alloc (u : υ) (n : Addr)
  | reclaim (n : Addr)

variable {υ : Type}

def State.start (m : Mem Int) (log : List (Op × Int)) : State υ := ⟨m, fun _ => .ready, fun _ => false, log⟩

/-- The `insert` calls by which `hash_init` fills the table. -/
def populated (c : Config) : List (Op × Int) := ((List.range c.nbkeys).map fun i : Nat => (.insert, (i : Int))).reverse

/-- What `hash_init` leaves to the updaters, without and with `POPULATE`. -/
inductive Starts (c : Config) : State υ → Prop where
  | zeroed : Starts c (State.start (.init Int) [])
  | populated {news : Nat → Addr} {t : Outcomes} :
      c.hashInit .listWriter news = some t → Starts c (State.start t.mem (populated c))

/-- The call that succeeds by the next access of an updater. -/
def succeeds : Writer Int Unit → List (Op × Int)
  | .link k .. => [(.insert, k)]
  | .unlink k .. => [(.delete, k)]
  | _ => []

variable [DecidableEq υ]

def State.put (s : State υ) (u : υ) (mw : Mem Int × Writer Int Unit) : State υ :=
  { s with mem := mw.1, upd := Function.update s.upd u mw.2 }

def State.update (s : State υ) (u : υ) : Option (State υ) :=
  match s.upd u with
  | .wlock op k b => some (s.put u (s.mem, .loadHead op k b))
  | .wunlock _ res => some (s.put u (s.mem, .returned res))
  | .freeNodeLater b n () =>
    some { s.put u (s.mem, .wunlock b 1) with retired := Function.update s.retired n true }
  | w => (w.step () s.mem).map fun mw => { s.put u mw with log := succeeds w ++ s.log }

/-- One step; a call goes to the bucket that `get_buckets` computes. -/
def step (nbbuckets : Nat) (s : State υ) : Act υ → Option (State υ)
  | .begin u op k => ((s.upd u).begin op k (getBuckets nbbuckets k)).map fun w => s.put u (s.mem, w)
  | .update u => s.update u
  | .alloc u n => ((s.upd u).alloc s.mem n).map fun mw => s.put u mw
  | .reclaim n =>
    if s.retired n then
      some { s with
        mem := { s.mem with avail := Function.update s.mem.avail n true }
        retired := Function.update s.retired n false }
    else none

/-- Every bucket is a strictly increasing chain, a key that was inserted is reachable until it is deleted,
and between two deletions of a key it was inserted. -/
structure Good (nbbuckets : Nat) (s : State υ) : Prop where
  sorted : ∀ b, ∃ l, Chain s.mem.next (s.mem.heads b) l ∧ l.Pairwise (s.mem.key · < s.mem.key ·)
  kept : ∀ later k earlier, s.log = later ++ (.insert, k) :: earlier → (.delete, k) ∉ later →
    s.mem.Member (getBuckets nbbuckets k) k
  once : ∀ later k between earlier, s.log = later ++ (.delete, k) :: (between ++ (.delete, k) :: earlier) →
    (.insert, k) ∈ between

/-- In every interleaving of the updaters. -/
def Sound (nbbuckets : Nat) (s₀ : State υ) : Prop :=
  ∀ tr s, Run (Steps (step nbbuckets)) s₀ tr s → Good nbbuckets s

section log
variable {nbbuckets : Nat} {log l earlier : List (Op × Int)} {op op' : Op} {k k' : Int} {m m' : Mem Int}

/-- The last call for key `k` that succeeded. -/
def last (log : List (Op × Int)) (k : Int) : Option Op := (log.find? (·.2 = k)).map (·.1)

@[simp] theorem last_self : last ((op, k) :: log) k = some op := by simp [last]

@[simp] theorem last_of_ne (h : k ≠ k') : last ((op, k) :: log) k' = last log k' := by simp [last, h]

theorem last_append (h : ∀ op', (op', k) ∈ l → op' = op) : last (l ++ (op, k) :: earlier) k = some op := by
  induction l with
  | nil => exact last_self
  | cons e l ih =>
    obtain ⟨op', k'⟩ := e
    by_cases hk : k' = k
    · subst hk
      rw [List.cons_append, last_self, h op' (by simp)]
    · rw [List.cons_append, last_of_ne hk]
      exact ih fun op' hm => h op' (by simp [hm])

theorem mem_of_last (h : last log k = some op) : (op, k) ∈ log := by
  obtain ⟨e, he, rfl⟩ := Option.map_eq_some_iff.mp h
  have hk := List.find?_some he
  rw [← of_decide_eq_true hk]
  exact List.mem_of_find?_eq_some he

/-- What the log says about the table. -/
structure Logged (nbbuckets : Nat) (m : Mem Int) (log : List (Op × Int)) : Prop where
  inserted : ∀ k, last log k = some .insert → m.Member (getBuckets nbbuckets k) k
  deleted : ∀ k, last log k = some .delete → ¬ m.Member (getBuckets nbbuckets k) k
  once : ∀ later k between earlier, log = later ++ (.delete, k) :: (between ++ (.delete, k) :: earlier) →
    (.insert, k) ∈ between

/-- As long as nothing was deleted. -/
theorem Logged.of_insertions (hop : ∀ op k, (op, k) ∈ log → op = .insert)
    (hm : ∀ k, (.insert, k) ∈ log → m.Member (getBuckets nbbuckets k) k) : Logged nbbuckets m log where
  inserted k hk := hm k (mem_of_last hk)
  deleted k hk := nomatch hop _ k (mem_of_last hk)
  once later k between earlier hl := nomatch hop .delete k (by simp [hl])

theorem Logged.kept (h : Logged nbbuckets m log) (hl : log = l ++ (.insert, k) :: earlier)
    (hd : (.delete, k) ∉ l) : m.Member (getBuckets nbbuckets k) k := by
  apply h.inserted
  rw [hl]
  apply last_append
  intro op hm
  cases op with
  | insert => rfl
  | delete => exact absurd hm hd

theorem Logged.same (h : Logged nbbuckets m log) (he : ∀ b k, m'.Member b k ↔ m.Member b k) :
    Logged nbbuckets m' log where
  inserted k hk := (he _ k).mpr (h.inserted k hk)
  deleted k hk hm := h.deleted k hk ((he _ k).mp hm)
  once := h.once

theorem Logged.insert (h : Logged nbbuckets m log)
    (he : ∀ b k', m'.Member b k' ↔ m.Member b k' ∨ b = getBuckets nbbuckets k ∧ k' = k) :
    Logged nbbuckets m' ((.insert, k) :: log) := by
  constructor
  · intro k' hk
    rw [he]
    by_cases hkk : k = k'
    · exact .inr ⟨by rw [hkk], hkk.symm⟩
    · rw [last_of_ne hkk] at hk
      exact .inl (h.inserted k' hk)
  · intro k' hk
    by_cases hkk : k = k'
    · subst hkk
      simp at hk
    · rw [last_of_ne hkk] at hk
      rw [he]
      rintro (hm | ⟨_, rfl⟩)
      · exact h.deleted k' hk hm
      · exact hkk rfl
  · intro later k' between earlier hl
    cases later with
    | nil => cases hl
    | cons e later =>
      simp only [List.cons_append, List.cons.injEq] at hl
      exact h.once later k' between earlier hl.2

/-- A call that deletes a key found it. -/
theorem Logged.delete (h : Logged nbbuckets m log) (hm : m.Member (getBuckets nbbuckets k) k)
    (he : ∀ b k', m'.Member b k' ↔ m.Member b k' ∧ ¬ (b = getBuckets nbbuckets k ∧ k' = k)) :
    Logged nbbuckets m' ((.delete, k) :: log) := by
  constructor
  · intro k' hk
    by_cases hkk : k = k'
    · subst hkk
      simp at hk
    · rw [last_of_ne hkk] at hk
      rw [he]
      exact ⟨h.inserted k' hk, fun hb => hkk hb.2.symm⟩
  · intro k' hk
    rw [he]
    by_cases hkk : k = k'
    · subst hkk
      exact fun hb => hb.2 ⟨rfl, rfl⟩
    · rw [last_of_ne hkk] at hk
      exact fun hb => h.deleted k' hk hb.1
  · intro later k' between earlier hl
    cases later with
    | nil =>
      simp only [List.nil_append, List.cons.injEq, Prod.mk.injEq, true_and] at hl
      obtain ⟨rfl, rfl⟩ := hl
      -- without an insertion in between the key would be known to be gone
      by_contra hno
      refine h.deleted k (last_append fun op ho => ?_) hm
      cases op with
      | insert => exact absurd ho hno
      | delete => rfl
    | cons e later =>
      simp only [List.cons_append, List.cons.injEq] at hl
      exact h.once later k' between earlier hl.2

end log

section target
variable {nbbuckets : Nat} {w w' : Writer Int Unit} {m m' : Mem Int} {k : Int} {b : Int}

/-- The key and the bucket of the call an updater is in. -/
def target : Writer Int Unit → Option (Int × Int)
  | .emptyTest k b | .wlock _ k b | .loadHead _ k b | .loadKey _ k b _ _ | .loadKeyAgain _ k b _ _
  | .advance _ k b _ | .loadNext k b _ _ | .unlink k b _ _ _ | .initNewNode k b _ _ | .handOver k b _ _ _
  | .storeKey k b _ _ _ | .storeNext k b _ _ _ | .link k b _ _ _ => some (k, b)
  | .ready | .freeNodeLater .. | .wunlock .. | .returned _ => none

/-- The call goes to the bucket of its key. -/
def Aimed (nbbuckets : Nat) (w : Writer Int Unit) : Prop :=
  ∀ k b, target w = some (k, b) → b = getBuckets nbbuckets k

theorem Aimed.of_target (h : Aimed nbbuckets w) (ht : ∀ e, target w' = some e → target w = some e) :
    Aimed nbbuckets w' := fun k b he => h k b (ht _ he)

theorem target_loop (op : Op) (k b : Int) (prev : Link Int) (p : Ptr) {e : Int × Int}
    (h : target (Writer.loop op k b prev p) = some e) : e = (k, b) := by
  cases p <;> cases op <;> cases h <;> rfl

theorem Aimed.step (h : Aimed nbbuckets w) (hs : w.step () m = some (m', w')) : Aimed nbbuckets w' := by
  apply h.of_target
  intro e he
  cases w with
  | ready | wlock | freeNodeLater | initNewNode | handOver | wunlock | returned => simp [Writer.step] at hs
  | emptyTest k b | loadKey op k b prev cur =>
    cases hs
    split at he <;> cases he <;> rfl
  | loadHead op k b | advance op k b cur =>
    cases hs
    rw [target_loop _ _ _ _ _ he]
    rfl
  | loadKeyAgain op k b prev cur =>
    cases op <;> cases hs <;> split at he <;> cases he <;> rfl
  | loadNext | storeKey | storeNext =>
    cases hs
    exact he
  | unlink | link =>
    cases hs
    cases he

theorem Aimed.begin {op : Op} (hs : w.begin op k (getBuckets nbbuckets k) = some w') : Aimed nbbuckets w' := by
  intro k' b' he
  cases w <;> cases op <;> cases hs <;> cases he <;> rfl

theorem Aimed.alloc {n : Addr} (h : Aimed nbbuckets w) (hs : w.alloc m n = some (m', w')) : Aimed nbbuckets w' := by
  apply h.of_target
  intro e he
  cases w with
  | initNewNode k b prev cur =>
    simp only [Writer.alloc, Option.ite_none_right_eq_some, Option.some.injEq, Prod.mk.injEq] at hs
    obtain ⟨_, _, rfl⟩ := hs
    exact he
  | _ => cases hs

end target

section writers
variable {nbbuckets : Nat} {m m' : Mem Int} {upd : υ → Writer Int Unit} {w' : Writer Int Unit} {u : υ}
  {log : List (Op × Int)}

omit [DecidableEq υ] in
/-- An access adds to the log what it does to the table. -/
theorem Logged.step (h : Logged nbbuckets m log) (hw : Writers m upd) (ha : Aimed nbbuckets (upd u))
    (hs : (upd u).step () m = some (m', w')) (ht : m'.Table) : Logged nbbuckets m' (succeeds (upd u) ++ log) := by
  have hf := hw.facts u
  have hquiet (hr : (upd u).relinks = none) : Logged nbbuckets m' log := by
    apply h.same
    intro b k
    exact (hw.step_agree_of_relinks hs (b := b) (by simp [hr])).member hw.table ht
  cases hu : upd u with
  | link k b prev p new =>
    rw [hu] at hs hf ha
    obtain ⟨⟨l₁, l₂, hp, rfl, _⟩, hk, hx⟩ := hf
    cases hs
    obtain ⟨_, _, hch, hne⟩ := hw.table.link_chain hp (hw.fresh u new (by rw [hu]; rfl)).2 hx
    have hb := ha k b rfl
    have he := hw.table.member_insert ht hp.split hch hne (fun _ _ _ => by rw [Mem.store_key]) (by simpa using hk)
    rw [hb] at he
    exact h.insert he
  | unlink k b prev cur nx =>
    rw [hu] at hs hf ha
    obtain ⟨⟨l₁, l₂, hp⟩, hk, rfl⟩ := hf
    cases hs
    obtain ⟨_, _, _, hch, hne⟩ := hw.table.unlink_chain hp
    have hb := ha k b rfl
    have hm : m.Member b k := hw.table.member_iff.mpr ⟨cur, by simp [hp.split], hk⟩
    have he := hw.table.member_erase ht hp.split hch hne (by simp) hk
    rw [hb] at he hm
    exact h.delete hm he
  | _ => exact hquiet (by rw [hu]; rfl)

end writers

section inv
variable {nbbuckets : Nat} {s s' : State υ} {u : υ} {m' : Mem Int} {w' : Writer Int Unit} {log : List (Op × Int)}

/-- The invariant of a run with one updater. -/
structure Inv (nbbuckets : Nat) (s : State υ) : Prop where
  writers : Writers s.mem s.upd
  retired : ∀ n, s.retired n →
    s.mem.avail n = false ∧ (∀ b, n ∉ s.mem.chain b) ∧ ∀ u, (s.upd u).inHand ≠ some n
  aimed : ∀ u, Aimed nbbuckets (s.upd u)
  logged : Logged nbbuckets s.mem s.log

omit [DecidableEq υ] in
theorem Inv.good (h : Inv nbbuckets s) : Good nbbuckets s where
  sorted b := ⟨_, h.writers.table.ends b, h.writers.table.sorted b⟩
  kept _ _ _ hl hd := h.logged.kept hl hd
  once := h.logged.once

omit [DecidableEq υ] in
theorem Inv.start {m : Mem Int} (ht : m.Table) (hl : Logged nbbuckets m log) : Inv nbbuckets (State.start m log : State υ) where
  writers := ⟨ht, fun _ _ _ hb => (nomatch hb), fun _ _ hn => (nomatch hn), fun _ _ _ hn => (nomatch hn), fun _ => trivial⟩
  retired _ hn := (nomatch hn)
  aimed _ _ _ he := (nomatch he)
  logged := hl

omit [DecidableEq υ] in
theorem Inv.starts {c : Config} (h : Starts c s) : Inv c.nbbuckets s := by
  cases h with
  | zeroed => exact .start .init (.of_insertions (by simp) (by simp))
  | populated ht =>
    obtain ⟨hh, _⟩ := Config.calls_onSet Config.Holds.init (fun x hx => Config.populate_key le_rfl hx) ht
    rw [Config.populate_onSet] at hh
    refine .start hh.table (.of_insertions (fun op k he => ?_) fun k he => ?_)
    · obtain ⟨i, _, hi⟩ := List.mem_map.mp (List.mem_reverse.mp he)
      exact (Prod.mk.inj hi).1.symm
    · obtain ⟨i, hi, hk⟩ := List.mem_map.mp (List.mem_reverse.mp he)
      obtain rfl := (Prod.mk.inj hk).2
      have := List.mem_range.mp hi
      rw [hh.member_self, Finset.mem_Ico]
      omega

/-- An updater moves, and passes no node to `free_node_later`. -/
theorem Inv.put (h : Inv nbbuckets s) (hw : Writers m' (Function.update s.upd u w'))
    (hout : ∀ n, s.retired n → m'.avail n = false ∧ (∀ b, n ∉ m'.chain b) ∧ w'.inHand ≠ some n)
    (ha : Aimed nbbuckets w') (hl : Logged nbbuckets m' log) :
    Inv nbbuckets { s.put u (m', w') with log := log } where
  writers := hw
  retired n hn := by
    refine ⟨(hout n hn).1, (hout n hn).2.1, ?_⟩
    exact (Function.forall_update_iff s.upd fun _ w => w.inHand ≠ some n).mpr
      ⟨(hout n hn).2.2, fun v _ => (h.retired n hn).2.2 v⟩
  aimed := (Function.forall_update_iff s.upd fun _ w => Aimed nbbuckets w).mpr ⟨ha, fun v _ => h.aimed v⟩
  logged := hl

/-- Steps that leave the memory alone. -/
theorem Inv.stay (h : Inv nbbuckets s) (hw : Writers s.mem (Function.update s.upd u w'))
    (hhand : ∀ n, w'.inHand = some n → (s.upd u).inHand = some n) (ha : Aimed nbbuckets w') :
    Inv nbbuckets (s.put u (s.mem, w')) :=
  h.put hw (fun n hn => ⟨(h.retired n hn).1, (h.retired n hn).2.1, fun he => (h.retired n hn).2.2 u (hhand n he)⟩)
    ha h.logged

/-- `free_node_later` and the end of the call. -/
theorem Inv.retire {b : Int} {n : Addr} (h : Inv nbbuckets s) (hu : s.upd u = .freeNodeLater b n ()) :
    Inv nbbuckets { s.put u (s.mem, .wunlock b 1) with retired := Function.update s.retired n true } := by
  have hhand : (s.upd u).inHand = some n := by rw [hu]; rfl
  have hw : Writers s.mem (Function.update s.upd u (.wunlock b 1)) :=
    h.writers.stay (fun b' hb => by rw [hu]; exact hb) (fun _ hn => (nomatch hn)) trivial
  have hi : Inv nbbuckets (s.put u (s.mem, .wunlock b 1)) :=
    h.stay hw (fun _ hn => (nomatch hn)) fun _ _ he => (nomatch he)
  refine ⟨hi.writers, fun x hx => ?_, hi.aimed, hi.logged⟩
  by_cases hxn : x = n
  · subst hxn
    refine ⟨(h.writers.fresh u x hhand).1, (h.writers.fresh u x hhand).2, fun v hv => ?_⟩
    by_cases hvu : v = u
    · subst hvu
      simp [State.put, Writer.inHand] at hv
    · simp only [State.put, Function.update_of_ne hvu] at hv
      exact hvu (h.writers.alone v u x hv hhand)
  · replace hx : s.retired x := by simpa [Function.update_of_ne hxn] using hx
    exact hi.retired x hx

omit [DecidableEq υ] in
theorem Inv.reclaim {n : Addr} (h : Inv nbbuckets s) (hn : s.retired n) :
    Inv nbbuckets { s with
      mem := { s.mem with avail := Function.update s.mem.avail n true }
      retired := Function.update s.retired n false } where
  writers := h.writers.reclaim (h.retired n hn).2.1 (h.retired n hn).2.2
  retired x hx := by
    have hxn : x ≠ n := by
      rintro rfl
      simp at hx
    replace hx : s.retired x := by simpa [Function.update_of_ne hxn] using hx
    exact ⟨(Function.update_of_ne hxn _ _).trans (h.retired x hx).1, (h.retired x hx).2⟩
  aimed := h.aimed
  logged := h.logged.same fun _ _ => Iff.rfl

/-- An access of list_writer.c. -/
theorem Inv.access {w : Mem Int × Writer Int Unit} (h : Inv nbbuckets s) (hs : (s.upd u).step () s.mem = some w) :
    Inv nbbuckets { s.put u w with log := succeeds (s.upd u) ++ s.log } := by
  obtain ⟨m', w'⟩ := w
  obtain ⟨_, _, _, _, _, hav, hlinked⟩ := h.writers.step_keeps hs
  have hw := h.writers.step hs
  apply h.put hw
  · intro n hn
    obtain ⟨ha, hch, hhand⟩ := h.retired n hn
    have hnot : ¬ ((∃ b, n ∈ m'.chain b) ∨ w'.inHand = some n) := by
      intro hm
      rcases hlinked n hm with ⟨b, hb⟩ | hb
      · exact hch b hb
      · exact hhand u hb
    exact ⟨by rw [hav]; exact ha, fun b hb => hnot (.inl ⟨b, hb⟩), fun he => hnot (.inr he)⟩
  · exact (h.aimed u).step hs
  · exact h.logged.step h.writers (h.aimed u) hs hw.table

/-- The lock macro takes no lock, but nobody else can be in the bucket. -/
theorem Inv.enter [Subsingleton υ] {op : Op} {k b : Int} (h : Inv nbbuckets s) (hu : s.upd u = .wlock op k b) :
    Inv nbbuckets (s.put u (s.mem, .loadHead op k b)) := by
  apply h.stay
  · refine h.writers.frame rfl rfl rfl (fun _ hn => .inl hn) (fun b' _ => .inr fun v hv => ?_) (fun _ hn => (nomatch hn)) trivial
    rw [Subsingleton.elim v u, hu] at hv
    cases hv
  · exact fun _ hn => (nomatch hn)
  · exact (h.aimed u).of_target fun e he => by rw [hu]; exact he

theorem Inv.update [Subsingleton υ] (h : Inv nbbuckets s) (hs : s.update u = some s') : Inv nbbuckets s' := by
  unfold State.update at hs
  split at hs
  case h_1 op k b hu =>
    cases hs
    exact h.enter hu
  case h_2 b res hu =>
    cases hs
    exact h.stay (h.writers.stay (fun _ hb => (nomatch hb)) (fun _ hn => (nomatch hn)) trivial)
      (fun _ hn => (nomatch hn)) fun _ _ he => (nomatch he)
  case h_3 b n hu =>
    cases hs
    exact h.retire hu
  case h_4 =>
    obtain ⟨mw, hmw, rfl⟩ := Option.map_eq_some_iff.mp hs
    exact h.access hmw

theorem Inv.step [Subsingleton υ] {a : Act υ} (h : Inv nbbuckets s) (hs : OneWriter.step nbbuckets s a = some s') :
    Inv nbbuckets s' := by
  cases a with
  | begin u op k =>
    obtain ⟨w, hw, rfl⟩ := Option.map_eq_some_iff.mp hs
    have hnone : w.inside = none ∧ w.inHand = none ∧ w.Facts s.mem := by
      cases hu : s.upd u <;> rw [hu] at hw <;> cases op <;> cases hw <;> exact ⟨rfl, rfl, trivial⟩
    apply h.stay
    · exact h.writers.stay (by simp [hnone.1]) (by simp [hnone.2.1]) hnone.2.2
    · simp [hnone.2.1]
    · exact .begin hw
  | update u => exact h.update hs
  | alloc u n =>
    obtain ⟨⟨m', w⟩, hw, rfl⟩ := Option.map_eq_some_iff.mp hs
    have ha := (h.aimed u).alloc hw
    cases hu : s.upd u with
    | initNewNode k b prev cur =>
      rw [hu] at hw
      simp only [Writer.alloc, Option.ite_none_right_eq_some, Option.some.injEq, Prod.mk.injEq] at hw
      obtain ⟨hn, rfl, rfl⟩ := hw
      refine h.put (h.writers.handOut hu hn rfl rfl fun hf => hf) (fun x hx => ?_) ha (h.logged.same fun _ _ => Iff.rfl)
      have hxn : x ≠ n := by
        rintro rfl
        simp [(h.retired x hx).1] at hn
      refine ⟨(Function.update_of_ne hxn _ _).trans (h.retired x hx).1, (h.retired x hx).2.1, ?_⟩
      exact fun he => hxn (Option.some.inj he).symm
    | _ => simp [hu, Writer.alloc] at hw
  | reclaim n =>
    simp only [OneWriter.step, Option.ite_none_right_eq_some, Option.some.injEq] at hs
    obtain ⟨hn, rfl⟩ := hs
    exact h.reclaim hn

end inv

section race
variable {nbbuckets : Nat} {s : State υ} {u v : υ} {m : Mem Int} {w w' : Writer Int Unit} {k : Int} {b : Int} {prev : Link Int}
  {cur : Addr} {nx : Ptr} {l₁ l₂ l : List Addr}

@[simp] theorem put_put (s : State υ) (u : υ) (mw mw' : Mem Int × Writer Int Unit) :
    (s.put u mw).put u mw' = s.put u mw' := by
  simp [State.put]

@[simp] theorem put_self (s : State υ) (u : υ) (mw : Mem Int × Writer Int Unit) : (s.put u mw).upd u = mw.2 := by
  simp [State.put]

@[simp] theorem put_of_ne (s : State υ) (mw : Mem Int × Writer Int Unit) (h : v ≠ u) : (s.put u mw).upd v = s.upd v := by
  simp [State.put, h]

theorem access (hw : (s.upd u).step () s.mem = some (m, w')) :
    OneWriter.step nbbuckets s (.update u) = some { s.put u (m, w') with log := succeeds (s.upd u) ++ s.log } := by
  change s.update u = _
  unfold State.update
  cases hu : s.upd u with
  | wlock | freeNodeLater | wunlock => simp [hu, Writer.step] at hw
  | _ => simp only [← hu, hw, Option.map_some]

/-- An access that only reads. -/
theorem look (hw : w.step () s.mem = some (s.mem, w')) (hq : succeeds w = []) :
    Steps (OneWriter.step nbbuckets) (s.put u (s.mem, w)) (.update u) (s.put u (s.mem, w')) := by
  have h : ((s.put u (s.mem, w)).upd u).step () (s.put u (s.mem, w)).mem = some (s.mem, w') := by rwa [put_self]
  refine (access h).trans ?_
  rw [put_self, hq, put_put]
  rfl

variable (nbbuckets) in
/-- The loop of `delete` reaches the node with the key. -/
theorem reach_unlink (ht : s.mem.Table) (hp : s.mem.Place b k prev l₁ (l ++ cur :: l₂)) (hl : ∀ x ∈ l, s.mem.key x < k)
    (hk : s.mem.key cur = k) :
    ∃ prev', Reachable (Steps (OneWriter.step nbbuckets))
      (s.put u (s.mem, .loop .delete k b prev (l ++ cur :: l₂).head?))
      (s.put u (s.mem, .unlink k b prev' cur (s.mem.next cur))) := by
  induction l generalizing prev l₁ with
  | nil =>
    have h₁ : Writer.step () s.mem (.loop .delete k b prev (some cur) : Writer Int Unit) =
        some (s.mem, .loadKeyAgain .delete k b prev cur) := by
      simp [Writer.loop, Writer.step, hk]
    have h₂ : Writer.step () s.mem (.loadKeyAgain .delete k b prev cur : Writer Int Unit) =
        some (s.mem, .loadNext k b prev cur) := by
      simp [Writer.step, hk]
    exact ⟨prev, .head (look h₁ rfl) (.head (look h₂ rfl) (.head (look rfl rfl) ⟨_, .nil⟩))⟩
  | cons x l ih =>
    have hx := hl x (by simp)
    obtain ⟨prev', hr⟩ := ih (hp.advance hx) fun y hy => hl y (by simp [hy])
    have hload : Writer.step () s.mem (.loop .delete k b prev (x :: l ++ cur :: l₂).head? : Writer Int Unit) =
        some (s.mem, .advance .delete k b x) := by
      simp [Writer.loop, Writer.step, Int.not_le.mpr hx]
    refine ⟨prev', .head (look hload rfl) (.head (look ?_ rfl) hr)⟩
    simp only [Writer.step, ht.next_eq hp.split]
    rfl

/-- A `delete` of a key that is there gets to its store. -/
theorem begin_delete (ht : s.mem.Table) (hm : s.mem.Member (getBuckets nbbuckets k) k)
    (hu : s.upd u = .ready ∨ ∃ res, s.upd u = .returned res) :
    ∃ b prev cur nx, Reachable (Steps (OneWriter.step nbbuckets)) s (s.put u (s.mem, .unlink k b prev cur nx)) := by
  obtain ⟨n, hn, hk⟩ := ht.member_iff.mp hm
  obtain ⟨l, l₂, hc⟩ := List.append_of_mem hn
  have hp := Mem.Table.start_place (m := s.mem) k (getBuckets nbbuckets k)
  have hlow := (ht.below_above hc).1
  rw [hk] at hlow
  have hhead := Seg.head (ht.ends (getBuckets nbbuckets k))
  rw [hc] at hp hhead
  obtain ⟨prev, hr⟩ := reach_unlink nbbuckets (u := u) ht hp hlow hk
  rw [← hhead] at hr
  have hne : s.mem.heads (getBuckets nbbuckets k) ≠ none := fun h => ht.head_none h hm
  have hbegin : exec (OneWriter.step nbbuckets) s [.begin u .delete k, .update u, .update u, .update u] =
      some (s.put u (s.mem, .loop .delete k (getBuckets nbbuckets k) (.head (getBuckets nbbuckets k))
        (s.mem.heads (getBuckets nbbuckets k)))) := by
    rcases hu with hu | ⟨res, hu⟩ <;>
      simp [exec, OneWriter.step, hu, Writer.begin, State.update, Writer.step, State.put, hne, succeeds]
  exact ⟨_, prev, n, _, Reachable.trans ⟨_, exec_run hbegin⟩ hr⟩

variable (nbbuckets) in
/-- The store is not guarded, and the call returns 1. -/
theorem end_delete (hu : s.upd u = .unlink k b prev cur nx) :
    ∃ t, Reachable (Steps (OneWriter.step nbbuckets)) s t ∧ t.upd u = .returned 1 ∧ (∀ v ≠ u, t.upd v = s.upd v) ∧
      t.log = (.delete, k) :: s.log := by
  have h : exec (OneWriter.step nbbuckets) s [.update u, .update u, .update u] =
      some { s.put u (s.mem.store prev nx, .returned 1) with
        log := (.delete, k) :: s.log, retired := Function.update s.retired cur true } := by
    simp [exec, OneWriter.step, State.update, hu, Writer.step, State.put, succeeds]
  exact ⟨_, ⟨_, exec_run h⟩, put_self .., fun v hv => put_of_ne _ _ hv, rfl⟩

/-- Two updaters delete one node. -/
theorem both_delete (huv : u ≠ v) (ht : s.mem.Table) (hm : s.mem.Member (getBuckets nbbuckets k) k)
    (hu : s.upd u = .ready ∨ ∃ res, s.upd u = .returned res) (hv : s.upd v = .ready ∨ ∃ res, s.upd v = .returned res) :
    ∃ t, Reachable (Steps (OneWriter.step nbbuckets)) s t ∧ t.upd u = .returned 1 ∧ t.upd v = .returned 1 ∧
      t.log = [(Op.delete, k), (.delete, k)] ++ s.log := by
  obtain ⟨b₁, prev₁, cur₁, nx₁, h₁⟩ := begin_delete ht hm hu
  obtain ⟨b₂, prev₂, cur₂, nx₂, h₂⟩ := begin_delete (s := s.put u (s.mem, .unlink k b₁ prev₁ cur₁ nx₁)) (u := v) ht hm
    (by rwa [put_of_ne _ _ huv.symm])
  obtain ⟨t₁, h₃, hu₁, hother₁, hl₁⟩ := end_delete nbbuckets
    (show ((s.put u (s.mem, .unlink k b₁ prev₁ cur₁ nx₁)).put v (s.mem, .unlink k b₂ prev₂ cur₂ nx₂)).upd u =
      .unlink k b₁ prev₁ cur₁ nx₁ by rw [put_of_ne _ _ huv, put_self])
  obtain ⟨t₂, h₄, hv₂, hother₂, hl₂⟩ := end_delete nbbuckets
    (show t₁.upd v = .unlink k b₂ prev₂ cur₂ nx₂ by rw [hother₁ v huv.symm, put_self])
  refine ⟨t₂, ((h₁.trans h₂).trans h₃).trans h₄, ?_, hv₂, ?_⟩
  · rw [hother₂ u huv, hu₁]
  · rw [hl₂, hl₁]
    rfl

variable (nbbuckets) in
/-- An `insert` that is past its loop links the node and returns 1. -/
theorem end_insert {p : Ptr} {n : Addr} (hu : s.upd u = .initNewNode k b prev p) (hn : s.mem.avail n = true) :
    ∃ t, Reachable (Steps (OneWriter.step nbbuckets)) s t ∧ t.mem = s.mem.linkNew k prev p n ∧ t.upd u = .returned 1 ∧
      (∀ v ≠ u, t.upd v = s.upd v) ∧ t.log = (.insert, k) :: s.log := by
  have h : exec (OneWriter.step nbbuckets) s [.alloc u n, .update u, .update u, .update u, .update u] =
      some { s.put u (s.mem.linkNew k prev p n, .returned 1) with log := (.insert, k) :: s.log } := by
    simp [exec, OneWriter.step, State.update, hu, Writer.alloc, hn, Writer.step, State.put, succeeds, Mem.linkNew]
  exact ⟨_, ⟨_, exec_run h⟩, rfl, put_self .., fun v hv => put_of_ne _ _ hv, rfl⟩

/-- An `insert` into the empty table. -/
theorem insert_first (nbbuckets : Nat) (u : υ) :
    ∃ t, Reachable (Steps (OneWriter.step nbbuckets)) (State.start (.init Int) [] : State υ) t ∧ t.mem.Table ∧
      t.mem.Member (getBuckets nbbuckets 0) 0 ∧ t.upd u = .returned 1 ∧ (∀ v ≠ u, t.upd v = .ready) ∧
      t.log = [(.insert, 0)] := by
  let s₁ := (State.start (.init Int) []).put u
    (.init Int, .initNewNode 0 (getBuckets nbbuckets 0) (.head (getBuckets nbbuckets 0)) none)
  have h₁ : exec (OneWriter.step nbbuckets) (State.start (.init Int) []) [.begin u .insert 0, .update u, .update u] =
      some s₁ := by
    simp [exec, OneWriter.step, State.start, Writer.begin, State.update, Writer.step, State.put, succeeds, Mem.init, Writer.loop, s₁]
  obtain ⟨t, h₂, hmem, hu, hother, hl⟩ := end_insert nbbuckets (s := s₁) (put_self ..) (show (Mem.init Int).avail 0 = true from rfl)
  have hc : (Mem.init Int).chain (getBuckets nbbuckets 0) = [] := Mem.chain_eq rfl
  have hp := Mem.Table.start_place (m := .init Int) 0 (getBuckets nbbuckets 0)
  rw [hc] at hp
  have hno : ¬ (Mem.init Int).Member (getBuckets nbbuckets 0) 0 := Mem.Table.init.head_none rfl
  obtain ⟨ht, hm⟩ := Mem.Table.linked .init ⟨hp, by simp⟩ hno rfl
  refine ⟨t, Reachable.trans ⟨_, exec_run h₁⟩ h₂, ?_, ?_, hu, fun v hv => ?_, hl⟩
  · rw [hmem]
    exact ht
  · rw [hmem]
    exact (hm _ _).mpr (.inr ⟨rfl, rfl⟩)
  · rw [hother v hv]
    exact put_of_ne _ _ hv

omit [DecidableEq υ] in
theorem not_good {l : List (Op × Int)} (h : s.log = [(Op.delete, k), (.delete, k)] ++ l) : ¬ Good nbbuckets s := by
  intro hg
  exact List.not_mem_nil (hg.once [] k [] l h)

omit [DecidableEq υ] in
theorem starts_zeroed {c : Config} (hs : Starts c s) (hk : c.nbkeys = 0) : s = State.start (.init Int) [] := by
  cases hs with
  | zeroed => rfl
  | populated ht =>
    unfold Config.hashInit at ht
    rw [hk] at ht
    cases ht
    simp [populated, hk]

/-- Two updaters can delete one key twice, whatever the configuration. -/
theorem unsound {c : Config} (huv : u ≠ v) (hs : Starts c s) :
    ∃ t k l, Reachable (Steps (OneWriter.step c.nbbuckets)) s t ∧ t.upd u = .returned 1 ∧ t.upd v = .returned 1 ∧
      t.log = [(Op.delete, k), (.delete, k)] ++ l := by
  by_cases hz : s = State.start (.init Int) []
  · subst hz
    obtain ⟨t₁, h₁, ht, hm, hu, hother, _⟩ := insert_first c.nbbuckets u
    obtain ⟨t₂, h₂, hu₂, hv₂, hl⟩ := both_delete huv ht hm (.inr ⟨1, hu⟩) (.inl (hother v huv.symm))
    exact ⟨t₂, 0, _, h₁.trans h₂, hu₂, hv₂, hl⟩
  · have hk : c.nbkeys ≠ 0 := fun hk => hz (starts_zeroed hs hk)
    cases hs with
    | zeroed => exact absurd rfl hz
    | populated ht =>
      obtain ⟨hh, _⟩ := Config.calls_onSet Config.Holds.init (fun x hx => Config.populate_key le_rfl hx) ht
      rw [Config.populate_onSet] at hh
      have hm := (hh.member_self 0).mpr (Finset.mem_Ico.mpr ⟨le_rfl, by omega⟩)
      obtain ⟨t, h, hu, hv, hl⟩ := both_delete (s := State.start _ (populated c)) huv hh.table hm (.inl rfl) (.inl rfl)
      exact ⟨t, 0, _, h, hu, hv, hl⟩

end race

/-- An accepted configuration keeps the table and counts every insertion and deletion once, from what
`hash_init` leaves and in every interleaving, exactly if it has at most one updater. -/
theorem one_writer_iff {nbthreads nbupdaters nbbuckets pbnodes : Nat} {c : Config}
    (_ : setupTest nbthreads nbupdaters nbbuckets pbnodes = some c) {s₀ : State (Fin c.nbupdaters)} (hs : Starts c s₀) :
    Sound c.nbbuckets s₀ ↔ c.nbupdaters ≤ 1 := by
  constructor
  · intro hsound
    by_contra hn
    have huv : (⟨0, by omega⟩ : Fin c.nbupdaters) ≠ ⟨1, by omega⟩ := by simp
    obtain ⟨t, k, l, ⟨tr, h⟩, _, _, hl⟩ := unsound huv hs
    exact not_good hl (hsound tr t h)
  · intro hn tr s h
    have : Subsingleton (Fin c.nbupdaters) := Fin.subsingleton_iff_le_one.mpr hn
    have hi : Inv c.nbbuckets s := h.invariant (.starts hs) fun _ _ _ => Inv.step
    exact hi.good

theorem one_writer_iff_single : Sound 4 (State.start (.init Int) [] : State (Fin 1)) :=
  (one_writer_iff (c := ⟨3, 1, 2, 4, 3, 12⟩) (show setupTest 3 1 4 3 = _ by decide) .zeroed).mpr (by decide)

/-- Three threads, two of them updaters, and one key, which `hash_init` has inserted. -/
def twoUpdaters : Config := ⟨3, 2, 1, 1, 1, 1⟩

/-- It is accepted, and both updaters' deletions of the key return 1. -/
theorem two_updaters_unsound : setupTest 3 2 1 1 = some twoUpdaters ∧
    ∃ t s, twoUpdaters.hashInit .listWriter id = some t ∧
      Reachable (Steps (step 1)) (State.start t.mem (populated twoUpdaters) : State (Fin 2)) s ∧
      (∀ u, s.upd u = .returned 1) ∧ s.log = [(.delete, 0), (.delete, 0), (.insert, 0)] ∧ ¬ Good 1 s := by
  refine ⟨by decide, ?_⟩
  obtain ⟨t, ht⟩ := Option.isSome_iff_exists.mp (show (twoUpdaters.hashInit .listWriter id).isSome by decide +kernel)
  obtain ⟨hh, _⟩ := Config.calls_onSet Config.Holds.init (fun x hx => Config.populate_key le_rfl hx) ht
  rw [Config.populate_onSet] at hh
  have hm := (hh.member_self 0).mpr (by decide)
  obtain ⟨s, h, h₀, h₁, hl⟩ := both_delete (u := (0 : Fin 2)) (v := 1) (s := State.start t.mem (populated twoUpdaters))
    (by decide) hh.table hm (.inl rfl) (.inl rfl)
  refine ⟨t, s, ht, h, fun u => ?_, hl, not_good hl⟩
  match u with
  | 0 => exact h₀
  | 1 => exact h₁

end Gecos.OneWriter
