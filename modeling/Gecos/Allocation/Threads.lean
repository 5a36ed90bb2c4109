import Gecos.Allocation.Allocator
import Gecos.Library.Run

/-! The allocator of allocator_malloc.c under any number of threads: one shared load, store or
compare-and-swap a step. -/
namespace Gecos.Threads
open Library

/-- Where a thread stands in `get_free` (`load`, `take`, `pop`), before `calloc`, or in `add_free`. -/
inductive Point where
  | idle
  | load
  | take
  | pop
  | calloc
  | push (p : Addr)
  | flushLoad
  | flushStore (v : Ptr)
  | expect
  | publish (e : Ptr)
  | retryLoad
  | retryStore (v : Ptr)
  deriving DecidableEq

/-- The `__thread` variables. -/
structure Thread where
  lfl : Ptr
  lflTail : Ptr
  lcnt : Nat
  point : Point

/-- Ghosts: the nodes that callers have and those that `calloc` returned. -/
structure State (τ : Type) where
  mrNext : Addr → Ptr
  freelist : Ptr
  threads : τ → Thread
  allocated : Addr → Bool
  obtained : Addr → Bool

inductive Act (τ : Type) where
  | newNode (t : τ)
  | freeNode (t : τ) (n : Addr)
  | run (t : τ)
  | calloc (t : τ) (fresh : Addr)
  deriving DecidableEq

namespace State
variable {τ : Type}

def init (τ : Type) : State τ := ⟨fun _ => none, none, fun _ => ⟨none, none, 0, .idle⟩, fun _ => false, fun _ => false⟩

variable [DecidableEq τ]

def put (s : State τ) (t : τ) (th : Thread) : State τ :=
  { s with threads := Function.update s.threads t th }

/-- The next access of thread `t` to shared memory. -/
def run (s : State τ) (t : τ) : Option (State τ) :=
  let th := s.threads t
  match th.point with
  | .idle | .calloc => none
  | .load => some (s.put t { th with lfl := s.freelist, point := if s.freelist = none then .calloc else .take })
  | .take =>
    if s.freelist = th.lfl then some ({ s with freelist := none }.put t { th with point := .pop })
    else some (s.put t { th with point := .load })
  | .pop => th.lfl.map fun node =>
    { s with allocated := Function.update s.allocated node true }.put t
      { th with lfl := s.mrNext node, point := .idle }
  | .push p => some ({ s with mrNext := Function.update s.mrNext p th.lfl }.put t { th with
      lfl := some p, lcnt := th.lcnt + 1,
      point := if amortFreeOn ≤ th.lcnt + 1 then .flushLoad else .idle })
  | .flushLoad => some (s.put t { th with point := .flushStore s.freelist })
  | .expect => th.lflTail.map fun tail => s.put t { th with point := .publish (s.mrNext tail) }
  | .publish e =>
    if s.freelist = e then some ({ s with freelist := th.lfl }.put t ⟨none, none, 0, .idle⟩)
    else some (s.put t { th with point := .retryLoad })
  | .retryLoad => some (s.put t { th with point := .retryStore s.freelist })
  | .flushStore v | .retryStore v => th.lflTail.map fun tail =>
    { s with mrNext := Function.update s.mrNext tail v }.put t { th with point := .expect }

end State

variable {τ : Type} [DecidableEq τ]

/-- Threads call `free_node` for a node that is allocated, whoever allocated it; `calloc` returns
cleared memory that it has not returned before. -/
def step (s : State τ) : Act τ → Option (State τ)
  | .newNode t =>
    let th := s.threads t
    if th.point = .idle then
      some (s.put t { th with point := if th.lfl = none then .load else .pop })
    else none
  | .freeNode t n =>
    let th := s.threads t
    if th.point = .idle ∧ s.allocated n = true then
      some ({ s with allocated := Function.update s.allocated n false }.put t
        { th with lflTail := some (th.lflTail.getD n), point := .push n })
    else none
  | .run t => s.run t
  | .calloc t fresh =>
    let th := s.threads t
    if th.point = .calloc ∧ s.obtained fresh = false then
      some ({ s with
        mrNext := Function.update s.mrNext fresh none, obtained := Function.update s.obtained fresh true,
        allocated := Function.update s.allocated fresh true }.put t { th with point := .idle })
    else none

/-- The node that `new_node` returns by this step. -/
def returned (s : State τ) : Act τ → Option Addr
  | .run t => if (s.threads t).point = .pop then (s.threads t).lfl else none
  | .calloc _ fresh => some fresh
  | .newNode _ | .freeNode .. => none

/-- Whether the thread has written `lfl_tail->mr_next` and is yet to publish its list. -/
def Point.publishing : Point → Bool
  | .expect | .publish _ | .retryLoad | .retryStore _ => true
  | _ => false

/-- The links as thread `th` is to see them: while it publishes its list, this ends at `lfl_tail`. -/
def Thread.links (th : Thread) (mr : Addr → Ptr) : Addr → Ptr :=
  if th.point.publishing then th.lflTail.elim mr (Function.update mr · none) else mr

/-- Whether `lfl` is the thread's list, and not merely a copy of `freelist` to be compared. -/
def Thread.Settled (th : Thread) : Prop := th.point ≠ .load ∧ th.point ≠ .take

/-- A node is on the list of a thread. -/
def State.Has (s : State τ) (t : τ) (n : Addr) : Prop :=
  (s.threads t).Settled ∧ Reach ((s.threads t).links s.mrNext) (s.threads t).lfl n

/-- What the allocator owes its callers in a state. -/
structure Sound (s : State τ) : Prop where
  fresh : ∀ a s' n, step s a = some s' → returned s a = some n → s.allocated n = false
  apart : ∀ t u n, s.Has t n → s.Has u n → t = u
  chain : ∀ t, (s.threads t).Settled →
    ∃ l, Chain ((s.threads t).links s.mrNext) (s.threads t).lfl l ∧ l.Nodup
  freelist : ∃ g, Chain s.mrNext s.freelist g ∧ g.Nodup

/-- The condition on the state before a flush writes `lfl_tail->mr_next`: what it writes is null,
or `lfl_tail` is neither on the global list nor on the list of another thread. -/
def State.Clean (s : State τ) : Act τ → Prop
  | .run t => ∀ v tail, (s.threads t).point = .flushStore v ∨ (s.threads t).point = .retryStore v →
      (s.threads t).lflTail = some tail →
      v = none ∨ ¬ Reach s.mrNext s.freelist tail ∧ ∀ u, u ≠ t → ¬ s.Has u tail
  | _ => True

/-- The steps that meet the condition. -/
def CleanStep (s : State τ) (a : Act τ) (s' : State τ) : Prop := step s a = some s' ∧ s.Clean a

/-- Where a node can be. -/
inductive Place (τ : Type) where
  | client
  | freelist
  | lfl (t : τ)
  | hand (t : τ)

/-- `own` and `g` are the lists of the threads and the global one. -/
def State.At (s : State τ) (own : τ → List Addr) (g : List Addr) (n : Addr) : Place τ → Prop
  | .client => s.allocated n = true
  | .freelist => n ∈ g
  | .lfl t => n ∈ own t
  | .hand t => (s.threads t).point = .push n

/-- The lists behind the pointers. A thread about to publish found at its `lfl_tail` the value it
expects, or another thread has cleared that link since. -/
structure Inv (s : State τ) (own : τ → List Addr) (g : List Addr) : Prop where
  freelist : Chain s.mrNext s.freelist g
  unsettled : ∀ t, ¬ (s.threads t).Settled → own t = []
  settled : ∀ t, (s.threads t).Settled → Chain ((s.threads t).links s.mrNext) (s.threads t).lfl (own t)
  apart : ∀ n i j, s.At own g n i → s.At own g n j → i = j
  obtained : ∀ n i, s.At own g n i → s.obtained n = true
  expected : ∀ t e tail, (s.threads t).point = .publish e → (s.threads t).lflTail = some tail → tail ∈ own t →
    s.mrNext tail = e ∨ s.mrNext tail = none

section links
variable {mr mr' : Addr → Ptr} {th : Thread} {l : List Addr} {n : Addr}

theorem links_cases (th : Thread) : (∃ tail, ∀ mr, th.links mr = Function.update mr tail none) ∨ ∀ mr, th.links mr = mr := by
  by_cases hp : th.point.publishing
  · cases ht : th.lflTail with
    | none => exact .inr fun mr => by simp [Thread.links, ht]
    | some tail => exact .inl ⟨tail, fun mr => by simp [Thread.links, hp, ht]⟩
  · exact .inr fun mr => by simp [Thread.links, hp]

theorem links_frame (hm : ∀ n ∈ l, mr' n = mr n) (hn : n ∈ l) : th.links mr' n = th.links mr n := by
  rcases links_cases th with ⟨tail, h⟩ | h <;> rw [h, h]
  · by_cases he : n = tail
    · rw [he, Function.update_self, Function.update_self]
    · rw [Function.update_of_ne he, Function.update_of_ne he, hm n hn]
  · exact hm n hn

theorem links_cut (mr : Addr → Ptr) (th : Thread) (n : Addr) :
    th.links (Function.update mr n none) = Function.update (th.links mr) n none := by
  rcases links_cases th with ⟨tail, h⟩ | h <;> rw [h, h]
  by_cases he : n = tail
  · simp [he]
  · exact Function.update_comm he _ _ _

end links

variable {s s' : State τ} {own : τ → List Addr} {g l' g' : List Addr} {t u : τ} {th : Thread} {n : Addr}

omit [DecidableEq τ] in
theorem Inv.has_iff (hi : Inv s own g) (t : τ) (n : Addr) : s.Has t n ↔ n ∈ own t := by
  by_cases hs : (s.threads t).Settled
  · simp [State.Has, hs, Chain.reach_iff (hi.settled t hs)]
  · simp [State.Has, hs, hi.unsettled t hs]

omit [DecidableEq τ] in
/-- A thread's list, unless it is about to take or to publish one. -/
theorem Inv.plain {p : Point} (hi : Inv s own g) (hp : (s.threads t).point = p) (h : p.publishing = false)
    (h₁ : p ≠ .load) (h₂ : p ≠ .take) : Chain s.mrNext (s.threads t).lfl (own t) := by
  have hset := hi.settled t ⟨hp ▸ h₁, hp ▸ h₂⟩
  simpa [Thread.links, hp, h] using hset

/-- A step of thread `t` that leaves the nodes of the others' lists alone, and takes the nodes in
`Q` to place `j`. -/
theorem Inv.move (hi : Inv s own g) (l' : List Addr) (hth : s'.threads = Function.update s.threads t th)
    (hframe : ∀ u, u ≠ t → ∀ n ∈ own u, s'.mrNext n = s.mrNext n) (hg : Chain s'.mrNext s'.freelist g')
    (hun : ¬ th.Settled → l' = []) (hset : th.Settled → Chain (th.links s'.mrNext) th.lfl l')
    (hexp : ∀ e tail, th.point = .publish e → th.lflTail = some tail → tail ∈ l' →
      s'.mrNext tail = e ∨ s'.mrNext tail = none)
    (Q : Addr → Prop) (j : Place τ)
    (hmove : ∀ n i, s'.At (Function.update own t l') g' n i → i = j ∧ Q n ∨ ¬ Q n ∧ s.At own g n i)
    (hobt : ∀ n, s.obtained n = true ∨ Q n → s'.obtained n = true) : Inv s' (Function.update own t l') g' where
  freelist := hg
  unsettled u hu := by
    rw [hth] at hu
    by_cases he : u = t
    · subst he
      rw [Function.update_self] at hu ⊢
      exact hun hu
    · rw [Function.update_of_ne he] at hu ⊢
      exact hi.unsettled u hu
  settled u hu := by
    rw [hth] at hu ⊢
    by_cases he : u = t
    · subst he
      rw [Function.update_self] at hu ⊢
      rw [Function.update_self]
      exact hset hu
    · rw [Function.update_of_ne he] at hu ⊢
      rw [Function.update_of_ne he]
      exact (hi.settled u hu).congr fun n hn => links_frame (hframe u he) hn
  apart n i i' h h' := by
    have := hi.apart n i i'
    rcases hmove n i h with ⟨rfl, hq⟩ | ⟨hq, h⟩ <;> rcases hmove n i' h' with ⟨rfl, hq'⟩ | ⟨hq', h'⟩
    · rfl
    · exact (hq' hq).elim
    · exact (hq hq').elim
    · exact this h h'
  obtained n i h := by
    apply hobt
    rcases hmove n i h with ⟨_, hq⟩ | ⟨_, h⟩
    · exact .inr hq
    · exact .inl (hi.obtained n i h)
  expected u e tail hp ht hm := by
    rw [hth] at hp ht
    by_cases he : u = t
    · subst he
      rw [Function.update_self] at hp ht hm
      exact hexp e tail hp ht hm
    · rw [Function.update_of_ne he] at hp ht hm
      rw [hframe u he tail hm]
      exact hi.expected u e tail hp ht hm

omit [DecidableEq τ] in
theorem Inv.init (τ : Type) : Inv (.init τ) (fun _ => []) [] where
  freelist := rfl
  unsettled _ _ := rfl
  settled _ _ := rfl
  apart n i j h := by cases i <;> simp [State.At, State.init] at h
  obtained n i h := by cases i <;> simp [State.At, State.init] at h
  expected t e tail h := by simp [State.init] at h

/-- Where a node is after a step of thread `t`. -/
theorem at_cases (s : State τ) {i : Place τ} (hth : s'.threads = Function.update s.threads t th)
    (h : s'.At (Function.update own t l') g' n i) :
    i = .client ∧ s'.allocated n = true ∨ i = .freelist ∧ n ∈ g' ∨ i = .lfl t ∧ n ∈ l' ∨
      i = .hand t ∧ th.point = .push n ∨
      i ≠ .client ∧ i ≠ .freelist ∧ i ≠ .lfl t ∧ i ≠ .hand t ∧ s.At own g n i := by
  cases i with
  | client => exact .inl ⟨rfl, h⟩
  | freelist => exact .inr (.inl ⟨rfl, h⟩)
  | lfl u =>
    by_cases he : u = t
    · subst he
      exact .inr (.inr (.inl ⟨rfl, by simpa [State.At] using h⟩))
    · refine .inr (.inr (.inr (.inr ⟨nofun, nofun, by simp [he], nofun, ?_⟩)))
      simpa [State.At, Function.update_of_ne he] using h
  | hand u =>
    by_cases he : u = t
    · subst he
      exact .inr (.inr (.inr (.inl ⟨rfl, by simpa [State.At, hth] using h⟩)))
    · refine .inr (.inr (.inr (.inr ⟨nofun, nofun, nofun, by simp [he], ?_⟩)))
      simpa [State.At, hth, Function.update_of_ne he] using h

/-- A step that moves no node. -/
theorem Inv.stay (hi : Inv s own g) (hp : ∀ n, th.point ≠ .push n) (hun : ¬ th.Settled → own t = [])
    (hset : th.Settled → Chain (th.links s.mrNext) th.lfl (own t))
    (hexp : ∀ e tail, th.point = .publish e → th.lflTail = some tail → tail ∈ own t →
      s.mrNext tail = e ∨ s.mrNext tail = none) : Inv (s.put t th) own g := by
  have hmove : Inv (s.put t th) (Function.update own t (own t)) g := hi.move _ rfl (fun _ _ _ _ => rfl)
    hi.freelist hun hset hexp (fun _ => False) .client (fun n i hn => .inr ⟨not_false, ?_⟩) (fun n h => h.resolve_right not_false)
  · rwa [Function.update_eq_self] at hmove
  · rcases at_cases s rfl hn with ⟨rfl, h⟩ | ⟨rfl, h⟩ | ⟨rfl, h⟩ | ⟨rfl, h⟩ | ⟨_, _, _, _, h⟩
    · exact h
    · exact h
    · exact h
    · exact (hp n h).elim
    · exact h

theorem Inv.newNode (hi : Inv s own g) (hs : step s (.newNode t) = some s') : Inv s' own g := by
  simp only [step] at hs
  split at hs <;> cases hs
  rename_i hp
  have hset := hi.plain hp rfl nofun nofun
  refine hi.stay ?_ (fun hu => ?_) (fun _ => ?_) ?_
  · intro n
    dsimp only
    split <;> simp
  · by_cases hl : (s.threads t).lfl = none
    · rw [hl] at hset
      exact Chain.unique hset rfl
    · simp [Thread.Settled, hl] at hu
  · by_cases hl : (s.threads t).lfl = none <;> simpa [Thread.links, Point.publishing, hl] using hset
  · intro e tail he
    dsimp only at he
    split at he <;> cases he

theorem Inv.freeNode (hi : Inv s own g) (hs : step s (.freeNode t n) = some s') :
    Inv s' (Function.update own t (own t)) g := by
  simp only [step] at hs
  split at hs <;> cases hs
  rename_i hg
  obtain ⟨hp, hn⟩ := hg
  have hset := hi.plain hp rfl nofun nofun
  have hcl (i : Place τ) (h : s.At own g n i) : i = .client := hi.apart n i .client h hn
  refine hi.move _ rfl (fun _ _ _ _ => rfl) hi.freelist (by simp [Thread.Settled]) (fun _ => hset) (by simp)
    (· = n) (.hand t) (fun x i hx => ?_) ?_
  · rcases at_cases s rfl hx with ⟨rfl, h⟩ | ⟨rfl, h⟩ | ⟨rfl, h⟩ | ⟨rfl, h⟩ | ⟨h₁, _, _, _, h⟩
    · by_cases he : x = n
      · simp [he, State.put] at h
      · exact .inr ⟨he, by simpa [State.put, State.At, Function.update_of_ne he] using h⟩
    · exact .inr ⟨fun he => (nomatch hcl .freelist (he ▸ h)), h⟩
    · exact .inr ⟨fun he => (nomatch hcl (.lfl t) (he ▸ h)), h⟩
    · exact .inl ⟨rfl, (Point.push.inj h).symm⟩
    · exact .inr ⟨fun he => h₁ (hcl i (he ▸ h)), h⟩
  · rintro x (h | rfl)
    · exact h
    · exact hi.obtained x .client hn

theorem Inv.calloc {fresh : Addr} (hi : Inv s own g) (hs : step s (.calloc t fresh) = some s') :
    Inv s' (Function.update own t (own t)) g := by
  simp only [step] at hs
  split at hs <;> cases hs
  rename_i hg
  obtain ⟨hp, hn⟩ := hg
  have hset := hi.plain hp rfl nofun nofun
  have hno (i : Place τ) : ¬ s.At own g fresh i := fun h => by simp [hi.obtained fresh i h] at hn
  have hoff {l : List Addr} (hl : fresh ∉ l) (n : Addr) (hx : n ∈ l) : n ≠ fresh := ne_of_mem_of_not_mem hx hl
  refine hi.move _ rfl (fun u _ n hm => Function.update_of_ne (hoff (hno (.lfl u)) n hm) _ _)
    (hi.freelist.update (hno .freelist)) (by simp [Thread.Settled]) (fun _ => hset.update (hno (.lfl t))) (by simp)
    (· = fresh) .client (fun x i hx => ?_) (fun x hx => ?_)
  · rcases at_cases s rfl hx with ⟨rfl, h⟩ | ⟨rfl, h⟩ | ⟨rfl, h⟩ | ⟨rfl, h⟩ | ⟨_, _, _, _, h⟩
    · by_cases he : x = fresh
      · exact .inl ⟨rfl, he⟩
      · exact .inr ⟨he, by simpa [State.put, State.At, Function.update_of_ne he] using h⟩
    · exact .inr ⟨fun he => hno .freelist (he ▸ h), h⟩
    · exact .inr ⟨fun he => hno (.lfl t) (he ▸ h), h⟩
    · cases h
    · exact .inr ⟨fun he => hno i (he ▸ h), h⟩
  · by_cases he : x = fresh
    · simp [State.put, he]
    · simpa [State.put, he] using hx

theorem Inv.load (hi : Inv s own g) (hp : (s.threads t).point = .load) (hs : s.run t = some s') :
    Inv s' own g := by
  simp only [State.run, hp] at hs
  cases hs
  have hown := hi.unsettled t (by simp [Thread.Settled, hp])
  refine hi.stay ?_ (fun _ => hown) (fun hset => ?_) ?_
  · intro n
    dsimp only
    split <;> simp
  · by_cases hf : s.freelist = none
    · simp [Thread.links, Point.publishing, hf, hown]
    · simp [Thread.Settled, hf] at hset
  · intro e tail _ _ ht
    simp [hown] at ht

/-- Where the comparison succeeds, the thread takes the whole global list. -/
theorem Inv.take (hi : Inv s own g) (hp : (s.threads t).point = .take) (hs : s.run t = some s')
    (hf : s.freelist = (s.threads t).lfl) : Inv s' (Function.update own t g) [] := by
  simp only [State.run, hp, if_pos hf] at hs
  cases hs
  have hown := hi.unsettled t (by simp [Thread.Settled, hp])
  refine hi.move g rfl (fun _ _ _ _ => rfl) rfl (by simp [Thread.Settled])
    (fun _ => by simpa [Thread.links, Point.publishing, State.put, ← hf] using hi.freelist) (by simp) (· ∈ g) (.lfl t)
    (fun x i hx => ?_) (fun x hx => ?_)
  · have hg (i : Place τ) (hm : x ∈ g) (h : s.At own g x i) : i = .freelist := hi.apart x i .freelist h hm
    rcases at_cases s rfl hx with ⟨rfl, h⟩ | ⟨rfl, h⟩ | ⟨rfl, h⟩ | ⟨rfl, h⟩ | ⟨_, h₂, _, _, h⟩
    · exact .inr ⟨fun hm => (nomatch hg .client hm h), h⟩
    · simp at h
    · exact .inl ⟨rfl, h⟩
    · cases h
    · exact .inr ⟨fun hm => h₂ (hg i hm h), h⟩
  · exact hx.elim id fun hm => hi.obtained x .freelist hm

theorem Inv.retake (hi : Inv s own g) (hp : (s.threads t).point = .take) (hs : s.run t = some s')
    (hf : s.freelist ≠ (s.threads t).lfl) : Inv s' own g := by
  simp only [State.run, hp, if_neg hf] at hs
  cases hs
  have hown := hi.unsettled t (by simp [Thread.Settled, hp])
  exact hi.stay (by simp) (fun _ => hown) (by simp [Thread.Settled]) (by simp)

theorem Inv.pop (hi : Inv s own g) (hp : (s.threads t).point = .pop) (hs : s.run t = some s') :
    ∃ node l, (s.threads t).lfl = some node ∧ own t = node :: l ∧ Inv s' (Function.update own t l) g := by
  simp only [State.run, hp] at hs
  obtain ⟨node, hl, rfl⟩ := Option.map_eq_some_iff.mp hs
  have hset := hi.plain hp rfl nofun nofun
  rw [hl] at hset
  obtain ⟨l, hown⟩ : ∃ l, own t = node :: l := by
    cases hown : own t with
    | nil => simp [hown] at hset
    | cons n l => rw [hown] at hset; cases hset.1; exact ⟨l, rfl⟩
  rw [hown] at hset
  have hnd := List.nodup_cons.mp (Chain.nodup hset)
  have hcl (i : Place τ) (h : s.At own g node i) : i = .lfl t :=
    hi.apart node i (.lfl t) h (show node ∈ own t by simp [hown])
  refine ⟨node, l, hl, hown, hi.move l rfl (fun _ _ _ _ => rfl) hi.freelist (by simp [Thread.Settled])
    (fun _ => hset.2) (by simp) (· = node) .client (fun x i hx => ?_) (fun x hx => ?_)⟩
  · rcases at_cases s rfl hx with ⟨rfl, h⟩ | ⟨rfl, h⟩ | ⟨rfl, h⟩ | ⟨rfl, h⟩ | ⟨_, _, h₃, _, h⟩
    · by_cases he : x = node
      · exact .inl ⟨rfl, he⟩
      · exact .inr ⟨he, by simpa [State.put, State.At, Function.update_of_ne he] using h⟩
    · exact .inr ⟨fun he => (nomatch hcl .freelist (he ▸ h)), h⟩
    · exact .inr ⟨fun he => hnd.1 (he ▸ h), show x ∈ own t by simp [hown, h]⟩
    · cases h
    · exact .inr ⟨fun he => h₃ (hcl i (he ▸ h)), h⟩
  · rcases hx with hx | rfl
    · exact hx
    · exact hi.obtained x (.lfl t) (show x ∈ own t by simp [hown])

theorem Inv.push {p : Addr} (hi : Inv s own g) (hp : (s.threads t).point = .push p) (hs : s.run t = some s') :
    Inv s' (Function.update own t (p :: own t)) g := by
  simp only [State.run, hp] at hs
  cases hs
  have hset := hi.plain hp rfl nofun nofun
  have hcl (i : Place τ) (h : s.At own g p i) : i = .hand t := hi.apart p i (.hand t) h hp
  have hoff (u : τ) : p ∉ own u := fun h => nomatch hcl (.lfl u) h
  refine hi.move (p :: own t) rfl
    (fun u _ n hm => Function.update_of_ne (ne_of_mem_of_not_mem hm (hoff u)) _ _)
    (hi.freelist.update fun h => nomatch hcl .freelist h) (fun hun => ?_) (fun _ => ?_) (fun e tail he => ?_)
    (· = p) (.lfl t) (fun x i hx => ?_) (fun x hx => ?_)
  · by_cases hc : amortFreeOn ≤ (s.threads t).lcnt + 1 <;> simp [Thread.Settled, hc] at hun
  · have hchain : Chain (Function.update s.mrNext p (s.threads t).lfl) (some p) (p :: own t) := by
      refine ⟨rfl, ?_⟩
      rw [Function.update_self]
      exact hset.update (hoff t)
    by_cases hc : amortFreeOn ≤ (s.threads t).lcnt + 1 <;> simpa [Thread.links, Point.publishing, hc, State.put] using hchain
  · dsimp only at he
    split at he <;> cases he
  · rcases at_cases s rfl hx with ⟨rfl, h⟩ | ⟨rfl, h⟩ | ⟨rfl, h⟩ | ⟨rfl, h⟩ | ⟨_, _, _, h₄, h⟩
    · exact .inr ⟨fun he => (nomatch hcl .client (he ▸ h)), h⟩
    · exact .inr ⟨fun he => (nomatch hcl .freelist (he ▸ h)), h⟩
    · rcases List.mem_cons.mp h with he | h
      · exact .inl ⟨rfl, he⟩
      · exact .inr ⟨fun he => hoff t (he ▸ h), h⟩
    · dsimp only at h
      split at h <;> cases h
    · exact .inr ⟨fun he => h₄ (hcl i (he ▸ h)), h⟩
  · rcases hx with hx | rfl
    · exact hx
    · exact hi.obtained x (.hand t) hp

theorem Inv.flushLoad (hi : Inv s own g) (hp : (s.threads t).point = .flushLoad) (hs : s.run t = some s') :
    Inv s' own g := by
  simp only [State.run, hp] at hs
  cases hs
  have hset := hi.plain hp rfl nofun nofun
  exact hi.stay (by simp) (by simp [Thread.Settled]) (fun _ => hset) (by simp)

theorem Inv.retryLoad (hi : Inv s own g) (hp : (s.threads t).point = .retryLoad) (hs : s.run t = some s') :
    Inv s' own g := by
  simp only [State.run, hp] at hs
  cases hs
  have hset := hi.settled t (by simp [Thread.Settled, hp])
  exact hi.stay (by simp) (by simp [Thread.Settled]) (fun _ => by simpa [Thread.links, Point.publishing, hp] using hset) (by simp)

theorem Inv.expect (hi : Inv s own g) (hp : (s.threads t).point = .expect) (hs : s.run t = some s') :
    Inv s' own g := by
  simp only [State.run, hp] at hs
  obtain ⟨tail, ht, rfl⟩ := Option.map_eq_some_iff.mp hs
  have hset := hi.settled t (by simp [Thread.Settled, hp])
  refine hi.stay (by simp) (by simp [Thread.Settled]) (fun _ => by simpa [Thread.links, Point.publishing, hp] using hset) ?_
  rintro e tail' he ht' _
  rw [← Point.publish.inj he]
  cases ht.symm.trans ht'
  exact .inl rfl

omit [DecidableEq τ] in
/-- Where the comparison succeeds, the thread's list becomes the head of the global one: the whole
of it where `lfl_tail` ends the list and its link is as expected. -/
theorem Inv.published {e : Ptr} (hi : Inv s own g) (hp : (s.threads t).point = .publish e) (hf : s.freelist = e) :
    ∃ g', Chain s.mrNext (s.threads t).lfl g' ∧ ∀ n ∈ g', n ∈ own t ∨ n ∉ own t ∧ n ∈ g := by
  have hset := hi.settled t (by simp [Thread.Settled, hp])
  have hown : Chain s.mrNext (s.threads t).lfl (own t) → ∃ g', Chain s.mrNext (s.threads t).lfl g' ∧
      ∀ n ∈ g', n ∈ own t ∨ n ∉ own t ∧ n ∈ g := fun h => ⟨own t, h, fun n hn => .inl hn⟩
  cases ht : (s.threads t).lflTail with
  | none => exact hown (by simpa [Thread.links, Point.publishing, hp, ht] using hset)
  | some tail =>
    simp only [Thread.links, hp, ht, Point.publishing, if_true, Option.elim_some] at hset
    by_cases hm : tail ∈ own t
    · rcases hi.expected t e tail hp ht hm with he | he
      · refine ⟨own t ++ g, hset.join hm (by rw [he, ← hf]; exact hi.freelist), fun n hn => ?_⟩
        rcases List.mem_append.mp hn with hn | hn
        · exact .inl hn
        · exact .inr ⟨fun h => (nomatch hi.apart n (.lfl t) .freelist h hn), hn⟩
      · rw [← he, Function.update_eq_self] at hset
        exact hown hset
    · exact hown (hset.congr fun n hn => (Function.update_of_ne (ne_of_mem_of_not_mem hn hm) _ _).symm)

theorem Inv.publish {e : Ptr} (hi : Inv s own g) (hp : (s.threads t).point = .publish e) (hs : s.run t = some s')
    (hf : s.freelist = e) (hchain : Chain s.mrNext (s.threads t).lfl g')
    (hsub : ∀ n ∈ g', n ∈ own t ∨ n ∉ own t ∧ n ∈ g) : Inv s' (Function.update own t []) g' := by
  simp only [State.run, hp, if_pos hf] at hs
  cases hs
  have hl (x : Addr) (i : Place τ) (hm : x ∈ own t) (h : s.At own g x i) : i = .lfl t := hi.apart x i (.lfl t) h hm
  refine hi.move [] rfl (fun _ _ _ _ => rfl) hchain (by simp) (fun _ => rfl) (by simp) (· ∈ own t)
    .freelist (fun x i hx => ?_) (fun x hx => hx.elim id fun hm => hi.obtained x (.lfl t) hm)
  rcases at_cases s rfl hx with ⟨rfl, h⟩ | ⟨rfl, h⟩ | ⟨rfl, h⟩ | ⟨rfl, h⟩ | ⟨_, _, h₃, _, h⟩
  · exact .inr ⟨fun hm => (nomatch hl x .client hm h), h⟩
  · exact (hsub x h).imp_left fun hm => ⟨rfl, hm⟩
  · simp at h
  · cases h
  · exact .inr ⟨fun hm => h₃ (hl x i hm h), h⟩

theorem Inv.republish {e : Ptr} (hi : Inv s own g) (hp : (s.threads t).point = .publish e) (hs : s.run t = some s')
    (hf : s.freelist ≠ e) : Inv s' own g := by
  simp only [State.run, hp, if_neg hf] at hs
  cases hs
  have hset := hi.settled t (by simp [Thread.Settled, hp])
  exact hi.stay (by simp) (by simp [Thread.Settled]) (fun _ => by simpa [Thread.links, Point.publishing, hp] using hset)
    (by simp)

/-- A write to the link of one node, which clears it where the node is on a list, shortens lists at most. -/
theorem chain_write {mr : Addr → Ptr} {q v : Ptr} {l : List Addr} {x : Addr} (links : Addr → Ptr) (h : Chain mr q l)
    (hv : v = none ∨ x ∉ l) (hlinks : ∀ n ∈ l, n ≠ x → links n = mr n)
    (hcut : v = none → links = Function.update mr x none) : ∃ l', Chain links q l' ∧ l' <+: l := by
  rcases hv with hv | hx
  · rw [hcut hv]
    exact h.cut x
  · exact ⟨l, h.congr fun n hn => hlinks n hn (ne_of_mem_of_not_mem hn hx), List.prefix_rfl⟩

theorem Inv.flushStore {v : Ptr} {tail : Addr} (hi : Inv s own g)
    (hp : (s.threads t).point = .flushStore v ∨ (s.threads t).point = .retryStore v)
    (ht : (s.threads t).lflTail = some tail) (hs : s.run t = some s') (hc : s.Clean (.run t)) :
    ∃ own g, Inv s' own g := by
  obtain rfl : s' = State.put { s with mrNext := Function.update s.mrNext tail v } t
      { s.threads t with point := .expect } := by
    rcases hp with hp | hp <;> simp only [State.run, hp] at hs <;>
      obtain ⟨_, ht', rfl⟩ := Option.map_eq_some_iff.mp hs <;> cases ht.symm.trans ht' <;> rfl
  have hclean := hc v tail hp ht
  have hset := hi.settled t (by rcases hp with hp | hp <;> simp [Thread.Settled, hp])
  have hoff (u : τ) (hu : u ≠ t) : v = none ∨ tail ∉ own u :=
    hclean.imp_right fun h hm => h.2 u hu ((hi.has_iff u tail).mpr hm)
  obtain ⟨g', hg', hgsub⟩ := chain_write _ hi.freelist (hclean.imp_right fun h hm => h.1 ((Chain.reach_iff hi.freelist).mpr hm))
    (fun n _ hn => Function.update_of_ne hn v s.mrNext) (fun hv => by rw [hv])
  -- the thread's own list ends at `lfl_tail` from now on
  obtain ⟨l', hl', hlsub⟩ : ∃ l', Chain (Function.update s.mrNext tail none) (s.threads t).lfl l' ∧ l' <+: own t := by
    rcases hp with hp | hp <;> simp only [Thread.links, hp, ht, Point.publishing, Bool.false_eq_true, if_false, if_true, Option.elim_some] at hset
    · exact hset.cut tail
    · exact ⟨_, hset, List.prefix_rfl⟩
  have hothers (u : τ) : ∃ l, l <+: own u ∧ (¬ (s.threads u).Settled → l = []) ∧ (u = t → l = l') ∧
      (u ≠ t → (s.threads u).Settled →
        Chain ((s.threads u).links (Function.update s.mrNext tail v)) (s.threads u).lfl l) := by
    by_cases hu : u = t
    · subst hu
      refine ⟨l', hlsub, fun hn => ?_, fun _ => rfl, fun h => (h rfl).elim⟩
      rcases hp with hp | hp <;> simp [Thread.Settled, hp] at hn
    · by_cases hset : (s.threads u).Settled
      · obtain ⟨l, hl, hsub⟩ := chain_write ((s.threads u).links (Function.update s.mrNext tail v))
          (hi.settled u hset) (hoff u hu)
          (fun n _ hn => links_frame (l := [n]) (by simp [Function.update_of_ne hn]) (by simp))
          (fun hv => by rw [hv, links_cut])
        exact ⟨l, hsub, fun h => (h hset).elim, fun h => (hu h).elim, fun _ _ => hl⟩
      · exact ⟨[], List.nil_prefix, fun _ => rfl, fun h => (hu h).elim, fun _ h => (hset h).elim⟩
  choose own' hsub hun hself hchain using hothers
  have hat (x : Addr) (i : Place τ) (h : State.At (State.put { s with mrNext := Function.update s.mrNext tail v } t
      { s.threads t with point := .expect }) own' g' x i) : s.At own g x i := by
    cases i with
    | client => exact h
    | freelist => exact hgsub.subset h
    | lfl u => exact (hsub u).subset h
    | hand u =>
      by_cases hu : u = t
      · subst hu; simp [State.At, State.put] at h
      · simpa [State.At, State.put, Function.update_of_ne hu] using h
  refine ⟨own', g', hg', fun u hu => ?_, fun u hu => ?_, fun n i j h h' => hi.apart n i j (hat n i h) (hat n j h'),
    fun n i h => hi.obtained n i (hat n i h), fun u e tail' he ht' hm => ?_⟩
  · by_cases h : u = t
    · subst h; simp [State.put, Thread.Settled] at hu
    · exact hun u (by simpa [State.put, Function.update_of_ne h] using hu)
  · by_cases h : u = t
    · subst h
      simpa [State.put, Thread.links, Point.publishing, ht, hself u rfl] using hl'
    · simp only [State.put, Function.update_of_ne h] at hu ⊢
      exact hchain u h hu
  · by_cases h : u = t
    · subst h; simp [State.put] at he
    · simp only [State.put, Function.update_of_ne h] at he ht' ⊢
      have hm' := (hsub u).subset hm
      by_cases hx : tail' = tail
      · subst hx
        rcases hoff u h with rfl | hn
        · exact .inr (by simp)
        · exact (hn hm').elim
      · rw [Function.update_of_ne hx]
        exact hi.expected u e tail' he ht' hm'

theorem Inv.step {a : Act τ} (hi : Inv s own g) (hs : step s a = some s') (hc : s.Clean a) :
    ∃ own g, Inv s' own g := by
  cases a with
  | newNode t => exact ⟨own, g, hi.newNode hs⟩
  | freeNode t n => exact ⟨_, g, hi.freeNode hs⟩
  | calloc t fresh => exact ⟨_, g, hi.calloc hs⟩
  | run t =>
    change s.run t = some s' at hs
    cases hp : (s.threads t).point with
    | idle | calloc => simp [State.run, hp] at hs
    | load => exact ⟨own, g, hi.load hp hs⟩
    | take =>
      by_cases hf : s.freelist = (s.threads t).lfl
      · exact ⟨_, [], hi.take hp hs hf⟩
      · exact ⟨own, g, hi.retake hp hs hf⟩
    | pop =>
      obtain ⟨_, l, _, _, hi⟩ := hi.pop hp hs
      exact ⟨_, g, hi⟩
    | push p => exact ⟨_, g, hi.push hp hs⟩
    | flushLoad => exact ⟨own, g, hi.flushLoad hp hs⟩
    | expect => exact ⟨own, g, hi.expect hp hs⟩
    | publish e =>
      by_cases hf : s.freelist = e
      · obtain ⟨g', hchain, hsub⟩ := hi.published hp hf
        exact ⟨_, g', hi.publish hp hs hf hchain hsub⟩
      · exact ⟨own, g, hi.republish hp hs hf⟩
    | retryLoad => exact ⟨own, g, hi.retryLoad hp hs⟩
    | flushStore v | retryStore v =>
      cases ht : (s.threads t).lflTail with
      | none => simp [State.run, hp, ht] at hs
      | some tail => exact hi.flushStore (v := v) (by simp [hp]) ht hs hc

theorem inv_reachable (hs : Reachable CleanStep (.init τ) s) : ∃ own g, Inv s own g :=
  hs.invariant (P := fun s => ∃ own g, Inv s own g) ⟨_, _, .init τ⟩ fun _ _ _ ⟨_, _, hi⟩ hr => hi.step hr.1 hr.2

theorem Inv.fresh {a : Act τ} (hi : Inv s own g) (hs : Threads.step s a = some s') (hn : returned s a = some n) :
    s.allocated n = false := by
  rw [← Bool.not_eq_true]
  intro ha
  cases a with
  | newNode | freeNode => cases hn
  | run t =>
    simp only [returned] at hn
    split at hn
    · rename_i hp
      have hset := hi.plain hp rfl nofun nofun
      rw [hn] at hset
      cases hown : own t with
      | nil => simp [hown] at hset
      | cons x l =>
        rw [hown] at hset
        cases hset.1
        exact nomatch hi.apart n .client (.lfl t) ha (show n ∈ own t by simp [hown])
    · cases hn
  | calloc t fresh =>
    cases hn
    simp only [Threads.step] at hs
    split at hs
    · rename_i hg
      have ho := hi.obtained n .client ha
      rw [hg.2] at ho
      cases ho
    · cases hs

theorem Inv.sound (hi : Inv s own g) : Sound s := by
  constructor
  · exact fun a s' n ha hn => hi.fresh ha hn
  · intro t u n ht hu
    cases hi.apart n (.lfl t) (.lfl u) ((hi.has_iff t n).mp ht) ((hi.has_iff u n).mp hu)
    rfl
  · exact fun t ht => ⟨own t, hi.settled t ht, Chain.nodup (hi.settled t ht)⟩
  · exact ⟨g, hi.freelist, Chain.nodup hi.freelist⟩

/-- Nodes are handed out to one caller at a time, and are on one list at a time, in every run
whose flushes write nothing through a stale `lfl_tail` that is on another list. -/
theorem threads_sound (τ : Type) [DecidableEq τ] {s : State τ} (hs : Reachable CleanStep (.init τ) s) : Sound s := by
  obtain ⟨own, g, hi⟩ := inv_reachable hs
  exact hi.sound

/-- `k` nodes from `calloc`, for thread `t`. -/
def callocs (t : τ) (k first : Nat) : List (Act τ) :=
  (List.range k).flatMap fun i => [.newNode t, .run t, .calloc t (first + i)]

/-- Thread `t` frees `k` nodes. -/
def frees (t : τ) (k first : Nat) : List (Act τ) :=
  (List.range k).flatMap fun i => [.freeNode t (first + i), .run t]

/-- Thread `false` publishes 100 nodes twice, and hangs the first list behind the second; thread `true` takes
them all, obtains nodes 200 and 199, and frees the first; the second is freed by thread `false`. -/
def sharedCalls : List (Act Bool) :=
  callocs false 200 1 ++ frees false 100 1 ++ List.replicate 4 (Act.run false) ++ frees false 100 101 ++
    List.replicate 4 (Act.run false) ++ [Act.newNode true, .run true, .run true, .run true, .newNode true, .run true] ++
    frees true 1 200 ++ frees false 1 199

/-- A flush writes null, or `lfl_tail` is not among the nodes 100 to 1 that `freelist` leads to, and the other
thread has no list. -/
def cleanFlush (s : State Bool) : Act Bool → Bool
  | .run t => match (s.threads t).point with
    | .flushStore (some _) | .retryStore (some _) =>
      decide (Chain s.mrNext s.freelist (List.range' 1 100).reverse) && decide ((s.threads !t).lfl = none) &&
        (s.threads t).lflTail.all (100 < ·)
    | _ => true
  | _ => true

theorem clean_of_cleanFlush {s : State Bool} {a : Act Bool} (h : cleanFlush s a) : s.Clean a := by
  cases a with
  | run t =>
    intro v tail hp ht
    cases v with
    | none => exact .inl rfl
    | some v =>
      have h : Chain s.mrNext s.freelist (List.range' 1 100).reverse ∧ (s.threads !t).lfl = none ∧ 100 < tail := by
        rcases hp with hp | hp <;> simpa [cleanFlush, hp, ht, and_assoc] using h
      obtain ⟨hchain, hlfl, htail⟩ := h
      refine .inr ⟨fun hr => ?_, fun u hu hr => ?_⟩
      · have hm := (Chain.reach_iff hchain).mp hr
        rw [List.mem_reverse, List.mem_range'_1] at hm
        exact absurd htail (Nat.not_lt.mpr (by omega))
      · obtain rfl : u = !t := by cases u <;> cases t <;> simp at hu ⊢
        rw [State.Has, hlfl] at hr
        have hnil : Chain ((s.threads !t).links s.mrNext) none [] := rfl
        exact absurd ((Chain.reach_iff hnil).mp hr.2) List.not_mem_nil
  | newNode | freeNode | calloc => trivial

theorem threads_sound_first : ∃ tr s, Run CleanStep (.init Bool) tr s ∧ tr.map Prod.fst = sharedCalls ∧
    Chain s.mrNext (s.threads true).lfl (200 :: (List.range' 1 198).reverse) ∧ (s.threads false).lfl = some 199 ∧
    s.freelist = none ∧ ∀ v ∈ states (.init Bool) tr, Sound v := by
  have h : (exec (checked step cleanFlush) (.init Bool) sharedCalls).any fun s =>
      decide (Chain s.mrNext (s.threads true).lfl (200 :: (List.range' 1 198).reverse)) &&
      decide ((s.threads false).lfl = some 199) && decide (s.freelist = none) := by decide +kernel
  obtain ⟨s, hs, hp⟩ := (Option.any_eq_true _ _).mp h
  simp only [Bool.and_eq_true, decide_eq_true_eq] at hp
  have hrun : Run CleanStep (.init Bool) _ s := (exec_run hs).mono fun _ _ _ hr =>
    (checked_iff.mp hr).imp_right clean_of_cleanFlush
  refine ⟨_, s, hrun, execTrace_labels hs, hp.1.1, hp.1.2, hp.2, fun v hv => threads_sound Bool (hrun.reaches hv)⟩

/-- Thread 0 publishes its list; then threads 1 and 2 copy `freelist` before either takes it. -/
def copiedCalls : List (Act Nat) :=
  callocs 0 100 1 ++ frees 0 100 1 ++ List.replicate 4 (Act.run 0) ++ [Act.newNode 1, .newNode 2, .run 1, .run 2]

/-- Thread 0 frees and obtains node 0 again, which thread 1 then frees after it published 100
nodes. Thread 0 flushes through its stale `lfl_tail`, node 0; then thread 1 obtains node 0 and
what is behind it, and thread 2 takes the global list, which is the same. -/
def doubledCalls : List (Act Nat) :=
  callocs 0 1 0 ++ frees 0 1 0 ++ [Act.newNode 0, .run 0] ++ callocs 0 99 1 ++ callocs 1 100 101 ++
  frees 1 100 101 ++ List.replicate 4 (Act.run 1) ++ frees 1 1 0 ++ frees 0 99 1 ++ List.replicate 3 (Act.run 0) ++
  [Act.newNode 1, .run 1, .newNode 2, .run 2, .run 2, .newNode 1, .run 1]

theorem threads_unsound :
    (∃ s, exec step (.init Nat) copiedCalls = some s ∧ ∃ n,
      Reach s.mrNext (s.threads 1).lfl n ∧ Reach s.mrNext (s.threads 2).lfl n) ∧
    ∃ s s' n, exec step (.init Nat) doubledCalls = some s ∧ step s (.run 2) = some s' ∧
      returned s (.run 2) = some n ∧ s.allocated n = true := by
  constructor
  · have h : (exec step (.init Nat) copiedCalls).any fun s =>
        decide ((s.threads 1).lfl = some 100) && decide ((s.threads 2).lfl = some 100) := by decide +kernel
    obtain ⟨s, hs, hp⟩ := (Option.any_eq_true _ _).mp h
    simp only [Bool.and_eq_true, decide_eq_true_eq] at hp
    exact ⟨s, hs, 100, ⟨[], hp.1⟩, ⟨[], hp.2⟩⟩
  · have h : (exec step (.init Nat) doubledCalls).any fun s =>
        (step s (.run 2)).isSome && decide (returned s (.run 2) = some 200) && s.allocated 200 := by decide +kernel
    obtain ⟨s, hs, hp⟩ := (Option.any_eq_true _ _).mp h
    simp only [Bool.and_eq_true, decide_eq_true_eq] at hp
    obtain ⟨s', hs'⟩ := Option.isSome_iff_exists.mp hp.1.1
    exact ⟨s, s', 200, hs, hs', hp.1.2, hp.2⟩

end Gecos.Threads
