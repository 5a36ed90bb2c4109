import Gecos.Library.LockFree
import Gecos.Lock.BlockingObject
import Mathlib.Data.Set.Finite.Basic

/-! LSPIN and RWLOCK neither deadlock nor livelock: what has been called returns, whoever is run when. -/
namespace Gecos

/-- The nodes of a bucket from `cur` on. -/
def ahead (l : List Addr) (cur : Addr) : Nat := (l.dropWhile (· ≠ cur)).length

theorem ahead_eq {l l₁ l₂ : List Addr} {cur : Addr} (h : l = l₁ ++ cur :: l₂) (hn : l.Nodup) :
    ahead l cur = l₂.length + 1 := by
  subst h
  have hne : ∀ x ∈ l₁, decide (x ≠ cur) = true := by
    intro x hx
    have hd := (List.nodup_append.mp hn).2.2 x hx cur (by simp)
    exact decide_eq_true hd
  unfold ahead
  rw [List.dropWhile_append_of_pos hne, List.dropWhile_cons_of_neg (by simp)]
  rfl

theorem Mem.Table.ahead_eq {β : Type} {m : Mem β} (h : m.Table) {b : β} {cur : Addr} {l₁ l₂ : List Addr}
    (hc : m.chain b = l₁ ++ cur :: l₂) : ahead (m.chain b) cur = l₂.length + 1 :=
  Gecos.ahead_eq hc (h.ends b).nodup

namespace Writer
variable {β ρ : Type} {k : Int} {b : β} {op : Op} {prev : Link β}

/-- The bucket that a call of `insert` may still add a node to. -/
def grows : Writer β ρ → Option β
  | .wlock .insert _ b | .loadHead .insert _ b | .loadKey .insert _ b _ _ | .loadKeyAgain .insert _ b _ _
  | .advance .insert _ b _ | .initNewNode _ b _ _ | .handOver _ b _ _ _ | .storeKey _ b _ _ _ | .storeNext _ b _ _ _
  | .link _ b _ _ _ => some b
  | _ => none

/-- How many steps a call has left at most, where the buckets are `chain` and never get longer than `room`. -/
def left (chain : β → List Addr) (room : β → Nat) : Writer β ρ → Nat
  | .ready | .returned _ => 0
  | .emptyTest _ b => 2 * room b + 13
  | .wlock _ _ b => 2 * room b + 12
  | .loadHead _ _ b => 2 * (chain b).length + 11
  | .loadKey _ _ b _ cur => 2 * ahead (chain b) cur + 8
  | .advance _ _ b cur => 2 * ahead (chain b) cur + 7
  | .loadKeyAgain .. => 7
  | .loadNext .. | .initNewNode .. => 6
  | .unlink .. | .handOver .. => 5
  | .storeKey .. => 4
  | .storeNext .. => 3
  | .link .. | .freeNodeLater .. => 2
  | .wunlock .. => 1

/-- Whether the updater is where only list_rc.c comes. -/
def handing : Writer β ρ → Bool
  | .handOver .. => true
  | _ => false

variable {chain chain' : β → List Addr} {room room' : β → Nat} {w w' : Writer β ρ} {m m' : Mem β}
  {upd : υ → Writer β ρ} {u : υ} {start : ρ}

theorem left_le (hc : ∀ b, w.inside = some b → chain' b = chain b) (hr : ∀ b, room' b ≤ room b) :
    w.left chain' room' ≤ w.left chain room := by
  cases w with
  | emptyTest k b | wlock op k b =>
    have := hr b
    simp only [left]
    omega
  | loadHead | loadKey | advance => simp [left, hc _ rfl]
  | _ => exact Nat.le_refl _

theorem loop_left (h : m.Table) {l₁ l₂ : List Addr} (hp : m.Place b k prev l₁ l₂) :
    (loop op k b prev l₂.head? : Writer β ρ).left m.chain room ≤ 2 * l₂.length + 8 := by
  cases l₂ with
  | nil => cases op <;> simp [loop, left]
  | cons c l₂ => simp [loop, left, h.ahead_eq hp.split]

theorem loop_grows (p : Ptr) : (loop op k b prev p : Writer β ρ).grows = (loadHead op k b : Writer β ρ).grows := by
  cases p <;> cases op <;> rfl

variable [DecidableEq β]

theorem step_handing (hs : w.step start m = some (m', w')) : w'.handing = false := by
  cases w with
  | ready | wlock | freeNodeLater | initNewNode | handOver | wunlock | returned => simp [Writer.step] at hs
  | loadHead op k b | advance op k b cur =>
    cases hs
    cases op <;> simp only [loop] <;> split <;> rfl
  | loadKeyAgain op k b prev cur =>
    cases op <;> cases hs <;> split <;> rfl
  | emptyTest | loadKey =>
    cases hs
    split <;> rfl
  | loadNext | unlink | storeKey | storeNext | link =>
    cases hs
    rfl

/-- An access brings the call nearer to its return. -/
theorem step_left (h : Writers m upd) (hs : (upd u).step start m = some (m', w')) (hr : ∀ b, room' b ≤ room b) :
    w'.left m'.chain room' < (upd u).left m.chain room := by
  have hf := h.facts u
  cases hw : upd u with
  | ready | wlock | freeNodeLater | initNewNode | handOver | wunlock | returned => simp [hw, Writer.step] at hs
  | emptyTest k b =>
    rw [hw] at hs
    cases hs
    have := hr b
    split <;> simp only [left] <;> omega
  | loadHead op k b =>
    rw [hw] at hs
    cases hs
    rw [Library.Seg.head (h.table.ends b)]
    exact Nat.lt_of_le_of_lt (loop_left h.table (Mem.Table.start_place k b)) (by simp [left])
  | loadKey op k b prev cur =>
    rw [hw] at hs hf
    obtain ⟨l₁, l₂, hp⟩ := hf
    cases hs
    split <;> simp only [left, h.table.ahead_eq hp.split] <;> omega
  | loadKeyAgain op k b prev cur =>
    rw [hw] at hs
    cases op <;> cases hs <;> split <;> simp [left]
  | advance op k b cur =>
    rw [hw] at hs hf
    obtain ⟨⟨prev, l₁, l₂, hp⟩, hk⟩ := hf
    cases hs
    rw [h.table.next_eq hp.split]
    refine Nat.lt_of_le_of_lt (loop_left h.table (hp.advance hk)) ?_
    simp only [left, h.table.ahead_eq hp.split]
    omega
  | loadNext | unlink | storeKey | storeNext | link =>
    rw [hw] at hs
    cases hs
    simp [left]

/-- A bucket gets longer only by a node that was to come. -/
theorem step_grows (h : Writers m upd) (hs : (upd u).step start m = some (m', w')) (b : β) :
    (m'.chain b).length + (if w'.grows = some b then 1 else 0) ≤
      (m.chain b).length + if (upd u).grows = some b then 1 else 0 := by
  have hf := h.facts u
  have hag := h.step_agree_of_relinks hs (b := b)
  cases hw : upd u with
  | ready | wlock | freeNodeLater | initNewNode | handOver | wunlock | returned => simp [hw, Writer.step] at hs
  | emptyTest k b =>
    rw [hw] at hs
    cases hs
    split <;> simp [grows]
  | loadHead op k b =>
    rw [hw] at hs
    cases hs
    rw [loop_grows]
  | advance op k b cur =>
    rw [hw] at hs
    cases hs
    rw [loop_grows]
    cases op <;> exact Nat.le_refl _
  | loadKey op k b prev cur =>
    rw [hw] at hs
    cases hs
    split <;> cases op <;> exact Nat.le_refl _
  | loadKeyAgain op k b prev cur =>
    rw [hw] at hs
    cases op <;> cases hs <;> split <;> simp [grows]
  | loadNext =>
    rw [hw] at hs
    cases hs
    exact Nat.le_refl _
  | storeKey | storeNext =>
    rw [hw] at hs hag
    cases hs
    rw [(hag (by simp [relinks])).chain]
    exact Nat.le_refl _
  | unlink k b' prev cur nx =>
    rw [hw] at hs hf
    obtain ⟨⟨l₁, l₂, hp⟩, _, rfl⟩ := hf
    cases hs
    obtain ⟨_, _, _, hch, hne⟩ := h.table.unlink_chain hp
    by_cases hb : b = b'
    · subst hb
      rw [hch, hp.split]
      simp [grows]
    · rw [hne b hb]
      simp [grows]
  | link k b' prev p new =>
    rw [hw] at hs hf
    obtain ⟨⟨l₁, l₂, hp, rfl, _⟩, _, hx⟩ := hf
    cases hs
    obtain ⟨_, _, hch, hne⟩ := h.table.link_chain hp (h.fresh u new (by rw [hw]; rfl)).2 hx
    by_cases hb : b = b'
    · subst hb
      rw [hch, hp.split]
      simp [grows]
      omega
    · rw [hne b hb]
      simp [grows, Ne.symm hb]

end Writer

namespace ListPthread
open Library
variable {β υ ρ : Type} {B : Build} {s t : State β υ ρ} {u : υ} {r : ρ} {b : β} {a : Act β υ ρ}

namespace Searcher
variable {x x' : Searcher β} {m : Mem β} {chain chain' : β → List Addr} {room room' : β → Nat}

def left (chain : β → List Addr) (room : β → Nat) : Searcher β → Nat
  | .idle | .returned _ => 0
  | .rlock _ b => 2 * room b + 6
  | .head _ b => 2 * (chain b).length + 5
  | .key _ b cur => 2 * ahead (chain b) cur + 3
  | .next _ b cur => 2 * ahead (chain b) cur + 2
  | .runlock .. => 1

theorem left_le (hc : ∀ b, x.holds = some b → chain' b = chain b) (hr : ∀ b, room' b ≤ room b) :
    x.left chain' room' ≤ x.left chain room := by
  cases x with
  | rlock k b =>
    have := hr b
    simp only [left]
    omega
  | head | key | next => simp [left, hc _ rfl]
  | _ => exact Nat.le_refl _

theorem step_left (h : x.Facts m) (ht : m.Table) (hs : x.step m = some x') :
    x'.left m.chain room < x.left m.chain room := by
  cases x with
  | idle | rlock | runlock | returned => cases hs
  | head k b =>
    cases hs
    have hc := Seg.head (ht.ends b)
    cases hl : m.chain b with
    | nil => simp [hc, hl, loop, left]
    | cons c l =>
      have hlen : ahead (m.chain b) c = l.length + 1 := ht.ahead_eq (show m.chain b = [] ++ c :: l from hl)
      simp only [hc, hl, List.head?_cons, loop, left]
      rw [hl] at hlen
      rw [hlen]
      simp
  | key k b cur =>
    cases hs
    split <;> simp [left]
  | next k b cur =>
    obtain ⟨l₁, l₂, hl⟩ := List.append_of_mem h.1
    cases hs
    rw [ht.next_eq hl]
    cases l₂ with
    | nil => simp [loop, left]
    | cons c l₂ =>
      have hl' : m.chain b = (l₁ ++ [cur]) ++ c :: l₂ := by simp [hl]
      simp only [List.head?_cons, loop, left, ht.ahead_eq hl, ht.ahead_eq hl', List.length_cons]
      omega

end Searcher

section work
variable [DecidableEq β] [Fintype υ] [Fintype ρ]

/-- How long a bucket can get before new calls. -/
noncomputable def State.room (s : State β υ ρ) (b : β) : Nat :=
  (s.mem.chain b).length + holders (fun u => (s.upd u).grows) b

/-- How many steps all calls together have left at most. -/
noncomputable def State.work (s : State β υ ρ) : Nat :=
  ∑ u, (s.upd u).left s.mem.chain s.room + ∑ r, (s.rd r).left s.mem.chain s.room

omit [Fintype ρ] in
theorem length_le_room (s : State β υ ρ) (b : β) : (s.mem.chain b).length ≤ s.room b := Nat.le_add_right ..

omit [Fintype ρ] in
theorem room_le [DecidableEq υ] {w : Writer β Unit} (ht : t.upd = Function.update s.upd u w)
    (hg : (t.mem.chain b).length + (if w.grows = some b then 1 else 0) ≤
      (s.mem.chain b).length + if (s.upd u).grows = some b then 1 else 0) : t.room b ≤ s.room b := by
  have hupd := holders_update (fun u => (s.upd u).grows) u w.grows b
  have hcomp : (fun v => (t.upd v).grows) = Function.update (fun v => (s.upd v).grows) u w.grows := by
    rw [ht]
    exact Function.comp_update Writer.grows s.upd u w
  simp only [State.room, hcomp]
  omega

/-- An updater's step takes from the work, if it is a step nearer to the return and the others are not set back. -/
theorem work_update [DecidableEq υ] {w : Writer β Unit} (ht : t.upd = Function.update s.upd u w) (hrd : t.rd = s.rd)
    (hleft : w.left t.mem.chain t.room < (s.upd u).left s.mem.chain s.room) (hroom : ∀ b, t.room b ≤ s.room b)
    (hupd : ∀ v ≠ u, ∀ b, (s.upd v).inside = some b → t.mem.chain b = s.mem.chain b)
    (hread : ∀ r b, (s.rd r).holds = some b → t.mem.chain b = s.mem.chain b) : t.work < s.work := by
  unfold State.work
  refine Nat.add_lt_add_of_lt_of_le (Finset.sum_lt_sum (fun v _ => ?_) ⟨u, Finset.mem_univ u, ?_⟩)
    (Finset.sum_le_sum fun r _ => ?_)
  · by_cases hne : v = u
    · rw [hne, ht, Function.update_self]
      exact hleft.le
    · rw [ht, Function.update_of_ne hne]
      exact Writer.left_le (hupd v hne) hroom
  · rw [ht, Function.update_self]
    exact hleft
  · rw [hrd]
    exact Searcher.left_le (hread r) hroom

theorem work_read [DecidableEq ρ] {x : Searcher β} (hm : t.mem = s.mem) (hu : t.upd = s.upd) (ht : t.rd = Function.update s.rd r x)
    (hleft : x.left s.mem.chain s.room < (s.rd r).left s.mem.chain s.room) : t.work < s.work := by
  have hroom : t.room = s.room := by
    funext b
    simp only [State.room, hm, hu]
  unfold State.work
  rw [hm, hu, hroom, ht]
  refine Nat.add_lt_add_of_le_of_lt le_rfl (Finset.sum_lt_sum (fun r' _ => ?_) ⟨r, Finset.mem_univ r, ?_⟩)
  · by_cases hne : r' = r
    · rw [hne, Function.update_self]
      exact hleft.le
    · rw [Function.update_of_ne hne]
  · rw [Function.update_self]
    exact hleft

end work

/-- Whether a step starts a call. -/
def Act.calls : Act β υ ρ → Bool
  | .begin .. | .call .. => true
  | .update _ | .alloc .. | .read _ => false

section drain
variable [DecidableEq β] [DecidableEq υ] [DecidableEq ρ] [Fintype υ] [Fintype ρ]

omit [DecidableEq ρ] in
theorem Inv.update_work (h : Inv B s) (hs : Updates s u t) : t.work < s.work := by
  cases hs with
  | access m' w' hw =>
    have hroom (b : β) : State.room { s with mem := m', upd := Function.update s.upd u w' } b ≤ s.room b :=
      room_le rfl (Writer.step_grows h.writers hw b)
    refine work_update rfl rfl (Writer.step_left h.writers hw hroom) hroom (fun v hne b hv => ?_) fun r b hr => ?_
    · exact (h.writers.step_agree hw fun hu => hne (h.writers.serial v u b hv hu)).chain
    · exact (h.writers.step_agree hw (h.reader_alone hr u)).chain
  | lock op k b l hw hl =>
    have hroom (b' : β) : State.room { s with
        locks := Function.update s.locks b l, upd := Function.update s.upd u (.loadHead op k b) } b' ≤ s.room b' := by
      refine room_le rfl ?_
      rw [hw]
      cases op <;> exact Nat.le_refl _
    refine work_update rfl rfl ?_ hroom (fun _ _ _ _ => rfl) fun _ _ _ => rfl
    have hb := length_le_room s b
    rw [hw]
    simp only [Writer.left]
    omega
  | free b n hw =>
    refine work_update (w := .wunlock b 1) rfl rfl ?_ (fun b' => room_le (w := .wunlock b 1) rfl ?_) (fun _ _ _ _ => rfl) fun _ _ _ => rfl
    · rw [hw]
      simp [Writer.left]
    · rw [hw]
      exact Nat.le_refl _
  | unlock b res hw =>
    refine work_update (w := .returned res) rfl rfl ?_ (fun b' => room_le (w := .returned res) rfl ?_) (fun _ _ _ _ => rfl) fun _ _ _ => rfl
    · rw [hw]
      simp [Writer.left]
    · rw [hw]
      exact Nat.le_refl _

omit [DecidableEq υ] in
theorem Inv.read_work (h : Inv B s) (hs : Reads B s r t) : t.work < s.work := by
  cases hs with
  | access x hx => exact work_read rfl rfl rfl (Searcher.step_left (h.facts r) h.writers.table hx)
  | lock k b l hr =>
    refine work_read (x := .head k b) rfl rfl rfl ?_
    have hb := length_le_room s b
    rw [hr]
    simp only [Searcher.left]
    omega
  | unlock k b res hr =>
    refine work_read (x := .returned res) rfl rfl rfl ?_
    rw [hr]
    simp [Searcher.left]

/-- Every step but the start of a call takes from the work. -/
theorem Inv.step_work (h : Inv B s) (hs : ListPthread.step B s a = some t) (hc : a.calls = false) : t.work < s.work := by
  cases a with
  | begin | call => cases hc
  | update u => exact h.update_work (update_cases hs)
  | read r => exact h.read_work (read_cases hs)
  | alloc u n =>
    obtain ⟨⟨m, w⟩, hw, rfl⟩ := Option.map_eq_some_iff.mp hs
    unfold Writer.alloc at hw
    split at hw
    case h_2 => cases hw
    case h_1 k b prev cur hu =>
      split at hw <;> cases hw
      have hroom (b' : β) : State.room { s with
          mem := { s.mem with avail := Function.update s.mem.avail n false }
          upd := Function.update s.upd u (.storeKey k b prev cur n) } b' ≤ s.room b' := by
        refine room_le rfl ?_
        rw [hu]
        exact Nat.le_refl _
      refine work_update rfl rfl ?_ hroom (fun _ _ _ _ => rfl) fun _ _ _ => rfl
      rw [hu]
      simp [Writer.left]

/-- No updater is where only list_rc.c comes, and only finitely many nodes have been handed out. -/
structure Tame (s : State β υ ρ) : Prop where
  plain : ∀ u, (s.upd u).handing = false
  finite : {n | s.mem.avail n = false}.Finite

omit [DecidableEq β] [DecidableEq ρ] [Fintype υ] [Fintype ρ] in
theorem Tame.put {locks : β → SharedLock} {m : Mem β} {w : Writer β Unit} (h : Tame s) (hw : w.handing = false)
    (hav : {n | m.avail n = false}.Finite) : Tame { s with mem := m, locks := locks, upd := Function.update s.upd u w } := by
  refine ⟨fun v => ?_, hav⟩
  change (Function.update s.upd u w v).handing = false
  by_cases hne : v = u
  · rwa [hne, Function.update_self]
  · rw [Function.update_of_ne hne]
    exact h.plain v

omit [Fintype υ] in
theorem Tame.step (h : Tame s) (hi : Inv B s) (hs : ListPthread.step B s a = some t) : Tame t := by
  cases a with
  | begin u op k b =>
    obtain ⟨w, hw, rfl⟩ := Option.map_eq_some_iff.mp hs
    refine h.put ?_ h.finite
    unfold Writer.begin at hw
    split at hw
    case h_3 => cases hw
    all_goals cases op <;> cases hw <;> rfl
  | update u =>
    cases update_cases hs with
    | access m' w' hw =>
      obtain ⟨_, _, _, _, _, hav, _⟩ := hi.writers.step_keeps hw
      refine h.put (Writer.step_handing hw) ?_
      rw [hav]
      exact h.finite
    | lock | unlock => exact h.put rfl h.finite
    | free b n hw =>
      refine h.put rfl (h.finite.subset fun x hx => ?_)
      by_cases hne : x = n
      · simp [hne] at hx
      · simpa [Function.update_of_ne hne] using hx
  | alloc u n =>
    obtain ⟨⟨m, w⟩, hw, rfl⟩ := Option.map_eq_some_iff.mp hs
    unfold Writer.alloc at hw
    split at hw
    case h_2 => cases hw
    case h_1 =>
      split at hw <;> cases hw
      refine h.put rfl ((h.finite.insert n).subset fun x hx => ?_)
      by_cases hne : x = n
      · exact .inl hne
      · exact .inr (by simpa [Function.update_of_ne hne] using hx)
  | call r k b =>
    obtain ⟨_, rfl⟩ := call_cases hs
    exact ⟨h.plain, h.finite⟩
  | read r =>
    obtain ⟨hm, hu, _⟩ := (read_cases hs).running
    exact ⟨fun u => by rw [hu]; exact h.plain u, by rw [hm]; exact h.finite⟩

omit [Fintype υ] in
theorem tame_reachable (h : Reachable (Steps (step B)) (.init β υ ρ) s) : Tame s := by
  refine (h.invariant (P := fun s => Inv B s ∧ Tame s) ⟨Inv.init, fun _ => rfl, ?_⟩
    fun _ _ _ hi hr => ⟨hi.1.step hr, hi.2.step hi.1 hr⟩).2
  simp [State.init, Mem.init]

/-- A step other than a call can be made. -/
def Enabled (B : Build) (s : State β υ ρ) : Prop := ∃ a : Act β υ ρ, a.calls = false ∧ step B s a ≠ none

omit [Fintype υ] [Fintype ρ] in
/-- An updater that holds a lock does not wait. -/
theorem Tame.holder_enabled (h : Tame s) (hu : (s.upd u).inside = some b) : Enabled B s := by
  have hplain := h.plain u
  cases hw : s.upd u with
  | ready | emptyTest | wlock | returned =>
    rw [hw] at hu
    cases hu
  | handOver =>
    rw [hw] at hplain
    cases hplain
  | initNewNode k b prev cur =>
    obtain ⟨n, hn⟩ := h.finite.exists_notMem
    refine ⟨.alloc u n, rfl, ?_⟩
    have hav : s.mem.avail n = true := by simpa using hn
    simp [ListPthread.step, hw, Writer.alloc, hav]
  | loadKeyAgain op k b prev cur =>
    refine ⟨.update u, rfl, ?_⟩
    cases op <;> simp [ListPthread.step, State.update, hw, Writer.step]
  | _ => exact ⟨.update u, rfl, by simp [ListPthread.step, State.update, hw, Writer.step]⟩

omit [Fintype υ] [Fintype ρ] in
theorem reader_enabled (hr : (s.rd r).holds = some b) : Enabled B s := by
  refine ⟨.read r, rfl, ?_⟩
  cases hx : s.rd r with
  | idle | rlock | returned =>
    rw [hx] at hr
    cases hr
  | _ => simp [ListPthread.step, State.read, hx, Searcher.step]

omit [Fintype υ] in
/-- Whoever waits, waits for somebody that does not. -/
theorem Tame.stuck (h : Tame s) (hi : Inv B s) (hno : ¬ Enabled B s) :
    (∀ u, (s.upd u).stage = .idle) ∧ ∀ r, (s.rd r).running = false := by
  have hupd (u : υ) (b : β) : (s.upd u).inside ≠ some b := fun hu => hno (h.holder_enabled hu)
  have hrd (r : ρ) (b : β) : (s.rd r).holds ≠ some b := fun hr => hno (reader_enabled hr)
  constructor
  · intro u
    have hin := hupd u
    cases hw : s.upd u with
    | ready | returned => rfl
    | emptyTest k b => exact (hno ⟨.update u, rfl, by simp [ListPthread.step, State.update, hw, Writer.step]⟩).elim
    | wlock op k b =>
      cases hl : (s.locks b).wrlock with
      | none =>
        rcases hi.locked.wrlock_waits hl with ⟨v, hv⟩ | ⟨r, hr⟩
        · exact (hupd v b hv).elim
        · exact (hrd r b hr).elim
      | some l => exact (hno ⟨.update u, rfl, by simp [ListPthread.step, State.update, hw, hl]⟩).elim
    | _ =>
      rw [hw] at hin
      exact (hin _ rfl).elim
  · intro r
    have hholds := hrd r
    cases hx : s.rd r with
    | idle | returned => rfl
    | rlock k b =>
      cases hl : (s.locks b).rdlock B.sharing with
      | none =>
        rcases hi.locked.rdlock_waits hl with ⟨v, hv⟩ | ⟨_, r', hr⟩
        · exact (hupd v b hv).elim
        · exact (hrd r' b hr).elim
      | some l => exact (hno ⟨.read r, rfl, by simp [ListPthread.step, State.read, hx, hl]⟩).elim
    | _ =>
      rw [hx] at hholds
      exact (hholds _ rfl).elim

/-- However the threads are scheduled from a state on, without new calls the run ends after at most
`s.work` steps, and where it cannot go on every call has returned. -/
theorem pthread_calls_return (hs : Reachable (Steps (step B)) (.init β υ ρ) s) (tr : List (Act β υ ρ × State β υ ρ))
    (h : Run (Steps (step B)) s tr t) (hin : ∀ e ∈ tr, e.1.calls = false) :
    tr.length + t.work ≤ s.work ∧
      (Enabled B t ∨ (∀ u, (t.upd u).stage = .idle) ∧ ∀ r, (t.rd r).running = false) := by
  constructor
  · exact h.length_le (inv_reachable hs) (fun _ _ _ hi hr => hi.step hr) (fun _ _ _ hi hr hc => hi.step_work hr hc) hin
  · have ht := h.reachable_append hs
    by_cases he : Enabled B t
    · exact .inl he
    · exact .inr ((tame_reachable ht).stuck (inv_reachable ht) he)

/-- Two updaters at the same bucket, of which the second waits. -/
theorem pthread_calls_return_contended :
    ∃ (s t : State Unit Bool Unit) (tr : List (Act Unit Bool Unit × State Unit Bool Unit)),
      step .lspin t (.update false) = none ∧ tr.length + t.work ≤ s.work ∧
        (Enabled .lspin t ∨ (∀ u, (t.upd u).stage = .idle) ∧ ∀ r, (t.rd r).running = false) := by
  have h : (exec (step .lspin) (.init Unit Bool Unit) [.begin true .insert 1 (), .begin false .insert 2 ()]).any fun s =>
      (exec (step .lspin) s [.update true, .update true]).any fun t => (step .lspin t (.update false)).isNone := by
    decide +kernel
  obtain ⟨s, hs, h⟩ := (Option.any_eq_true _ _).mp h
  obtain ⟨t, ht, h⟩ := (Option.any_eq_true _ _).mp h
  refine ⟨s, t, _, Option.isNone_iff_eq_none.mp h, pthread_calls_return ⟨_, exec_run hs⟩ _ (exec_run ht) fun e he => ?_⟩
  have hlabel := execTrace_label he
  simp only [List.mem_cons, List.not_mem_nil, or_false, or_self] at hlabel
  rw [hlabel]
  rfl

end drain
end ListPthread
end Gecos
