import Gecos.Allocation.Allocator
import Gecos.Library.Run
import Gecos.Table.Calls
import Mathlib.Data.List.Perm.Subperm

/-! list_gecos.c with `OSA_BEST`, where `free_node_later` frees the node of the call before: one
updater thread over list_writer.c and the default allocator, one call a step. -/
namespace Gecos.OsaBest
open Library

/-- The table and the allocator, with `free_later` and two records that are not in the program: the
nodes that `calloc` returned, and for each node that `delete` unlinked its counter just then, newest first. -/
structure State (β : Type) where
  mem : Mem β
  pool : Pool
  freeLater : Ptr
  obtained : List Addr
  unlinked : List (Addr × Nat)

def State.init (β : Type) : State β := ⟨.init β, .init, none, [], []⟩

namespace State
variable {β : Type}

/-- `n->gc++` on an `unsigned long`. -/
def countUp (m : Mem β) (n : Addr) : Mem β :=
  { m with gc := Function.update m.gc n ((m.gc n + 1) % 2 ^ 64) }

def freeNodeLater (s : State β) (n : Addr) : State β :=
  match s.freeLater with
  | some p => { s with pool := s.pool.freeNode p, mem := countUp s.mem n, freeLater := some n }
  | none => { s with freeLater := some n }

/-- The node that `calloc` returns. -/
def calloc (m : Mem β) (n : Addr) : Mem β :=
  { m with
    key := Function.update m.key n 0, next := Function.update m.next n none,
    rc := Function.update m.rc n 0, gc := Function.update m.gc n 0 }

/-- `new_node`; `calloc`, where it is asked, returns a node not obtained before. -/
def newNode (s : State β) (fresh : Addr) : Option (State β × Addr) :=
  let (pool, n) := s.pool.newNode fresh
  if s.pool.getFree.2.isSome then some ({ s with pool }, n)
  else if fresh ∈ s.obtained then none
  else some ({ s with pool, mem := calloc s.mem n, obtained := n :: s.obtained }, n)

variable [DecidableEq β]

/-- `insert(k, &heads[b], _)` and what it returns. No bucket has more nodes than were obtained. -/
def insert (s : State β) (k : Int) (b : β) (fresh : Addr) : Option (State β × Nat) :=
  let (prev, cur) := s.mem.find s.obtained.length k b
  if cur.any fun c => s.mem.key c = k then some (s, 0)
  else (s.newNode fresh).map fun (t, n) => ({ t with mem := t.mem.linkNew k prev cur n }, 1)

/-- `delete(k, &heads[b], _)` and what it returns. -/
def delete (s : State β) (k : Int) (b : β) : State β × Nat :=
  if s.mem.heads b = none then (s, 0)
  else match s.mem.find s.obtained.length k b with
    | (_, none) => (s, 0)
    | (prev, some cur) =>
      if s.mem.key cur ≠ k then (s, 0)
      else
        ({ s with mem := s.mem.unlink prev cur, unlinked := (cur, s.mem.gc cur) :: s.unlinked }.freeNodeLater cur, 1)

end State

/-- A call; for an `insert` with the node that `calloc` returns if it is asked. -/
inductive Call (β : Type) where
  | insert (k : Int) (b : β) (fresh : Addr)
  | delete (k : Int) (b : β)

variable {β : Type} [DecidableEq β]

def step (s : State β) : Call β → Option (State β)
  | .insert k b fresh => (s.insert k b fresh).map (·.1)
  | .delete k b => some (s.delete k b).1

/-- The node that a call for key `k` finds in bucket `b`. -/
def found (s : State β) (k : Int) (b : β) : Ptr :=
  (s.mem.find s.obtained.length k b).2.filter fun c => s.mem.key c = k

omit [DecidableEq β] in
/-- The counter of `n` is beyond every value that it had when `n` was unlinked. -/
def Aged (s : State β) (n : Addr) : Prop := ∀ g, (n, g) ∈ s.unlinked → g < s.mem.gc n

/-- Where the call gets a node from `new_node`, the node is aged. -/
def ReusesAged (s : State β) : Call β → Prop
  | .insert k b fresh => found s k b = none → Aged s (s.pool.newNode fresh).2
  | .delete .. => True

/-- Where the call puts a node on a free list, the node is aged. -/
def FreesAged (s : State β) : Call β → Prop
  | .insert .. => True
  | .delete k b => found s k b ≠ none → ∀ p, s.freeLater = some p → Aged s p

/-- The node on top of the caller's list. -/
def top (a : Pool) : Ptr := if a.lfl = none then a.freelist else a.lfl

/-- How many of the unlinks, but for the first of all, were of node `n`. -/
def counted (n : Addr) : List (Addr × Nat) → Nat
  | [] | [_] => 0
  | e :: l => (if e.1 = n then 1 else 0) + counted n l

omit [DecidableEq β] in
/-- The condition on the state before a call: an `insert` of an absent key finds on top of the list
no node that only the first unlink of all took out, nor one that was unlinked as often as a counter
can count. -/
def Spares (s : State β) : Call β → Prop
  | .insert k b _ => ¬ s.mem.Member b k → ∀ n, top s.pool = some n →
    0 < counted n s.unlinked ∧ counted n s.unlinked < 2 ^ 64
  | .delete .. => True

section counted
variable {u r : List (Addr × Nat)} {e : Addr × Nat} {n : Addr} {g : Nat}

theorem counted_cons (h : r ≠ []) : counted n (e :: r) = (if e.1 = n then 1 else 0) + counted n r := by
  cases r with
  | nil => exact (h rfl).elim
  | cons e' r => rfl

theorem counted_le (e : Addr × Nat) (r : List (Addr × Nat)) : counted n r ≤ counted n (e :: r) := by
  cases r with
  | nil => exact le_rfl
  | cons e' r => exact Nat.le_add_left _ _

theorem counted_eq_zero (h : n ∉ u.map Prod.fst) : counted n u = 0 := by
  induction u with
  | nil => rfl
  | cons e r ih =>
    have hne : e.1 ≠ n := fun he => h (by simp [he])
    have hr : n ∉ r.map Prod.fst := fun hm => h (List.mem_cons_of_mem _ hm)
    by_cases hnil : r = []
    · subst hnil; rfl
    · rw [counted_cons hnil, if_neg hne, ih hr]

/-- Each record is the counter value that the unlinks before it make. -/
def Recorded : List (Addr × Nat) → Prop
  | [] => True
  | e :: r => e.2 = counted e.1 r % 2 ^ 64 ∧ Recorded r

theorem Recorded.value (h : Recorded u) (hm : (n, g) ∈ u) :
    ∃ c, g = c % 2 ^ 64 ∧ (c = 0 ∨ c < counted n u) := by
  induction u with
  | nil => cases hm
  | cons e r ih =>
    rcases List.mem_cons.mp hm with rfl | hm
    · refine ⟨counted n r, h.1, ?_⟩
      by_cases hnil : r = []
      · subst hnil; exact .inl rfl
      · rw [counted_cons hnil, if_pos rfl]
        exact .inr (by omega)
    · obtain ⟨c, hc, hlt⟩ := ih h.2 hm
      exact ⟨c, hc, hlt.imp_right fun hlt => lt_of_lt_of_le hlt (counted_le e r)⟩

/-- The counter has passed every value below its count. -/
theorem Recorded.passed (h : Recorded u) {c : Nat} (hc : c < counted n u) : ∃ g, (n, g) ∈ u ∧ g = c % 2 ^ 64 := by
  induction u with
  | nil => cases hc
  | cons e r ih =>
    by_cases hr : c < counted n r
    · obtain ⟨g, hg, he⟩ := ih h.2 hr
      exact ⟨g, List.mem_cons_of_mem _ hg, he⟩
    by_cases hnil : r = []
    · subst hnil; cases hc
    rw [counted_cons hnil] at hc
    split at hc
    · rename_i hn
      obtain rfl : c = counted n r := by omega
      subst hn
      exact ⟨e.2, by simp, h.1⟩
    · omega

/-- A counter is beyond all its records iff a later unlink than the first of all counted, and the
count has not come round. -/
theorem Recorded.aged_iff (h : Recorded u) (hm : n ∈ u.map Prod.fst) :
    (∀ g, (n, g) ∈ u → g < counted n u % 2 ^ 64) ↔ 0 < counted n u ∧ counted n u < 2 ^ 64 := by
  constructor
  · intro hall
    obtain ⟨⟨n', g⟩, hg, he⟩ := List.mem_map.mp hm
    obtain rfl : n' = n := he
    have hpos := hall g hg
    refine ⟨Nat.pos_of_ne_zero fun h0 => by simp [h0] at hpos, ?_⟩
    by_contra hle
    obtain ⟨g, hg, he⟩ := h.passed (show 2 ^ 64 - 1 < counted n' u by omega)
    have := hall g hg
    omega
  · rintro ⟨hpos, hlt⟩ g hg
    obtain ⟨c, rfl, hc⟩ := h.value hg
    rw [Nat.mod_eq_of_lt hlt]
    exact lt_of_le_of_lt (Nat.mod_le _ _) (by omega)

end counted

/-- The invariant of the runs: the free lists, `l` and `g`, hold nodes that were unlinked and are in
no bucket, and each counter is the number of its unlinks that counted. -/
structure Inv (s : State β) (l g : List Addr) : Prop where
  table : s.mem.Table
  linked : ∀ b, ∀ n ∈ s.mem.chain b, n ∈ s.obtained
  latest : s.freeLater = s.unlinked.head?.map Prod.fst
  later : ∀ p, s.freeLater = some p → ∀ b, p ∉ s.mem.chain b
  lists : s.pool.Lists l g
  free : ∀ n, n ∈ l ∨ n ∈ g → (∀ b, n ∉ s.mem.chain b) ∧ s.freeLater ≠ some n ∧ n ∈ s.unlinked.map Prod.fst
  obtained : ∀ n ∈ s.unlinked.map Prod.fst, n ∈ s.obtained
  gc : ∀ n, s.mem.gc n = counted n s.unlinked % 2 ^ 64
  recorded : Recorded s.unlinked

section inv
variable {s t : State β} {l g : List Addr} {k : Int} {b : β} {n fresh : Addr} {c : Call β}

omit [DecidableEq β] in
theorem Inv.init : Inv (.init β) [] [] where
  table := .init
  linked b n hn := by
    rw [show (State.init β).mem.chain b = [] from Mem.chain_eq rfl] at hn
    cases hn
  latest := rfl
  later _ hp := nomatch hp
  lists := .init
  free := by simp
  obtained _ hn := nomatch hn
  gc _ := rfl
  recorded := trivial

omit [DecidableEq β] in
theorem Inv.length_le (h : Inv s l g) (b : β) : (s.mem.chain b).length ≤ s.obtained.length :=
  (List.subperm_of_subset (h.table.ends b).nodup (h.linked b)).length_le

omit [DecidableEq β] in
/-- A node is aged iff its count is in range. -/
theorem Inv.aged_iff (h : Inv s l g) (hn : n ∈ s.unlinked.map Prod.fst) :
    Aged s n ↔ 0 < counted n s.unlinked ∧ counted n s.unlinked < 2 ^ 64 := by
  rw [← h.recorded.aged_iff hn, Aged, h.gc]

omit [DecidableEq β] in
/-- Where the search loop of a call stops. -/
theorem Inv.find (h : Inv s l g) (k : Int) (b : β) :
    ∃ prev l₁ l₂, s.mem.find s.obtained.length k b = (prev, l₂.head?) ∧ s.mem.Place b k prev l₁ l₂ ∧
      ((∃ c l₃, l₂ = c :: l₃ ∧ s.mem.key c = k ∧ found s k b = some c ∧ s.mem.Member b k) ∨
        (∀ x ∈ l₂, k < s.mem.key x) ∧ found s k b = none ∧ ¬ s.mem.Member b k) := by
  obtain ⟨l₁, l₂, hp, hc, hle⟩ := h.table.find k (h.length_le b)
  have hfind : s.mem.find s.obtained.length k b = ((s.mem.find s.obtained.length k b).1, l₂.head?) := by rw [← hc]
  refine ⟨_, l₁, l₂, hfind, hp, ?_⟩
  have hstop : s.mem.Stop b k (s.mem.find s.obtained.length k b).1 l₁ l₂ := ⟨hp, hle⟩
  cases l₂ with
  | nil => exact .inr ⟨by simp, by rw [found, hc]; rfl, hstop.absent_end h.table⟩
  | cons c l₃ =>
    by_cases hk : s.mem.key c = k
    · exact .inl ⟨c, l₃, rfl, hk, by rw [found, hc]; simp [hk], (hstop.member_iff h.table).mp hk⟩
    · have hno : ¬ s.mem.Member b k := fun hm => hk ((hstop.member_iff h.table).mpr hm)
      exact .inr ⟨hstop.slot h.table hno, by rw [found, hc]; simp [hk], hno⟩

/-- What `new_node` leaves, and the node that it returns: in no bucket, on no list. -/
structure Handed (s t : State β) (n : Addr) (l g : List Addr) : Prop where
  inv : Inv t l g
  outside : ∀ b, n ∉ t.mem.chain b
  off : n ∉ l ∧ n ∉ g ∧ t.freeLater ≠ some n
  obtained : n ∈ t.obtained
  agree : ∀ b, s.mem.Agree t.mem b
  unlinked : t.unlinked = s.unlinked

omit [DecidableEq β] in
theorem Inv.newNode (h : Inv s l g) (hs : s.newNode fresh = some (t, n)) : ∃ l g, Handed s t n l g := by
  unfold State.newNode at hs
  rcases h.lists.getFree with ⟨rfl, rfl, he⟩ | ⟨n', a, l', g', he, hlists, hmr, hcase⟩
  · simp only [Pool.newNode, he, Option.isSome_none, Bool.false_eq_true, if_false] at hs
    split at hs <;> cases hs
    rename_i hno
    have hout (b : β) : n ∉ s.mem.chain b := fun hn => hno (h.linked b _ hn)
    obtain ⟨ht, hag⟩ : (State.calloc s.mem n).Table ∧ ∀ b, s.mem.Agree (State.calloc s.mem n) b := h.table.write_off hout rfl
      (fun x hx => Function.update_of_ne hx _ _) (fun x hx => Function.update_of_ne hx _ _) fun _ _ => rfl
    have hun : n ∉ s.unlinked.map Prod.fst := fun hm => hno (h.obtained _ hm)
    refine ⟨[], [], ⟨ht, fun b x hx => ?_, h.latest, fun p hp b => ?_, ⟨h.lists.lfl, h.lists.freelist, by simp⟩,
      by simp, fun x hx => List.mem_cons_of_mem _ (h.obtained x hx), fun x => ?_, h.recorded⟩,
      fun b => ?_, ⟨by simp, by simp, fun hp => ?_⟩, by simp, hag, rfl⟩
    · rw [(hag b).chain] at hx
      exact List.mem_cons_of_mem _ (h.linked b x hx)
    · rw [(hag b).chain]
      exact h.later p hp b
    · by_cases hx : x = n
      · subst hx
        simp [State.calloc, counted_eq_zero hun]
      · exact (Function.update_of_ne hx _ _).trans (h.gc x)
    · rw [(hag b).chain]
      exact hout b
    · rw [h.latest] at hp
      obtain ⟨e, he, rfl⟩ := Option.map_eq_some_iff.mp hp
      exact hun (List.mem_map_of_mem (List.mem_of_head? he))
  · simp only [Pool.newNode, he, Option.isSome_some, if_true] at hs
    cases hs
    have hsub (x : Addr) (hx : x ∈ l' ∨ x ∈ g') : x ∈ l ∨ x ∈ g := by grind
    have hn : n ∈ l ∨ n ∈ g := by grind
    obtain ⟨hout, hlater, hun⟩ := h.free n hn
    have hnd := Chain.nodup h.lists.lfl
    have hnd' := Chain.nodup h.lists.freelist
    have hap := h.lists.apart
    refine ⟨l', g', ⟨h.table, h.linked, h.latest, h.later, hlists, fun x hx => h.free x (hsub x hx), h.obtained, h.gc,
      h.recorded⟩, hout, ⟨by grind, by grind, hlater⟩, h.obtained n hun, fun _ => ⟨rfl, fun _ _ => rfl, fun _ _ => rfl⟩, rfl⟩

/-- `insert` links what `new_node` returned. -/
theorem Handed.link (h : Handed s t n l g) {prev : Link β} {l₁ l₂ : List Addr} (hp : s.mem.Place b k prev l₁ l₂)
    (hk : ∀ x ∈ l₂, k < s.mem.key x) : Inv { t with mem := t.mem.linkNew k prev l₂.head? n } l g := by
  have hi := h.inv
  have hkt : ∀ x ∈ l₂, k < t.mem.key x := fun x hx => by
    rw [(h.agree b).key x (by simp [hp.split, hx])]
    exact hk x hx
  have hpt := hp.agree (h.agree b)
  obtain ⟨ht, hch, hne⟩ := hi.table.linkNew hpt hkt h.outside
  have hsub (b' : β) (x : Addr) (hx : x ∈ (t.mem.linkNew k prev l₂.head? n).chain b') : x = n ∨ x ∈ t.mem.chain b' := by
    by_cases hb : b' = b
    · subst hb
      rw [hch] at hx
      rw [hpt.split]
      simp only [List.mem_append, List.mem_cons] at hx ⊢
      tauto
    · rw [hne b' hb] at hx
      exact .inr hx
  refine ⟨ht, fun b' x hx => ?_, hi.latest, fun p hp b' hx => ?_, hi.lists, fun x hx => ⟨fun b' hb => ?_, (hi.free x hx).2⟩,
    hi.obtained, fun x => ?_, hi.recorded⟩
  · rcases hsub b' x hx with rfl | hx
    · exact h.obtained
    · exact hi.linked b' x hx
  · rcases hsub b' p hx with rfl | hx
    · exact h.off.2.2 hp
    · exact hi.later p hp b' hx
  · rcases hsub b' x hb with rfl | hb
    · exact hx.elim h.off.1 h.off.2.1
    · exact (hi.free x hx).1 b' hb
  · exact (congrFun (by simp [Mem.linkNew]) x).trans (hi.gc x)

/-- `delete` unlinks the node it found, and frees the one of the call before. -/
theorem Inv.unlink (h : Inv s l g) {prev : Link β} {l₁ l₂ : List Addr} (hp : s.mem.Place b k prev l₁ (n :: l₂)) :
    ∃ l g, Inv (({ s with mem := s.mem.unlink prev n, unlinked := (n, s.mem.gc n) :: s.unlinked } : State β).freeNodeLater n)
      l g := by
  obtain ⟨ht, hch, hne⟩ := h.table.unlink hp
  have hn : n ∈ s.mem.chain b := by simp [hp.split]
  have hout (b' : β) : n ∉ (s.mem.unlink prev n).chain b' := by
    by_cases hb : b' = b
    · subst hb
      rw [hch]
      exact (h.table.unlink_chain hp).2.2.1
    · rw [hne b' hb]
      exact fun hn' => hb (h.table.apart _ _ n hn' hn)
  have hsub (b' : β) (x : Addr) (hx : x ∈ (s.mem.unlink prev n).chain b') : x ∈ s.mem.chain b' := by
    by_cases hb : b' = b
    · subst hb
      rw [hch] at hx
      rw [hp.split]
      rcases List.mem_append.mp hx with hx | hx <;> simp [hx]
    · rwa [hne b' hb] at hx
  have hgc : (s.mem.unlink prev n).gc = s.mem.gc := by simp [Mem.unlink]
  have hrec : Recorded ((n, s.mem.gc n) :: s.unlinked) := ⟨h.gc n, h.recorded⟩
  have hobt (x : Addr) (hx : x ∈ ((n, s.mem.gc n) :: s.unlinked).map Prod.fst) : x ∈ s.obtained := by
    rcases List.mem_cons.mp hx with rfl | hx
    · exact h.linked b _ hn
    · exact h.obtained x hx
  cases hl : s.freeLater with
  | none =>
    have hnil : s.unlinked = [] := by
      have := h.latest.symm.trans hl
      simpa using this
    refine ⟨l, g, ht, fun b' x hx => h.linked b' x (hsub b' x hx), rfl, fun p hp b' => ?_, h.lists, fun x hx => ?_, hobt,
      fun x => ?_, hrec⟩
    · cases hp
      exact hout b'
    · have hun := (h.free x hx).2.2
      rw [hnil] at hun
      cases hun
    · have hx := h.gc x
      rw [hnil] at hx ⊢
      exact (congrFun hgc x).trans hx
  | some p =>
    have hpun : p ∈ s.unlinked.map Prod.fst := by
      obtain ⟨e, he, rfl⟩ := Option.map_eq_some_iff.mp (h.latest.symm.trans hl)
      exact List.mem_map_of_mem (List.mem_of_head? he)
    have hcons : s.unlinked ≠ [] := by
      rintro hnil
      rw [hnil] at hpun
      cases hpun
    have hoff : p ∉ l ∧ p ∉ g :=
      ⟨fun hm => (h.free p (.inl hm)).2.1 hl, fun hm => (h.free p (.inr hm)).2.1 hl⟩
    obtain ⟨l', g', hlists, hin⟩ := h.lists.freeNode hoff.1 hoff.2
    have hnun (x : Addr) (hx : x ∈ l' ∨ x ∈ g') : x ∉ s.mem.chain b ∧ (∀ b', x ∉ s.mem.chain b') ∧ x ∈ s.unlinked.map Prod.fst := by
      rcases hin x hx with rfl | hx
      · exact ⟨h.later _ hl b, h.later _ hl, hpun⟩
      · obtain ⟨hc, _, hu⟩ := h.free x hx
        exact ⟨hc b, hc, hu⟩
    refine ⟨l', g', ⟨ht.ends, ht.sorted, ht.apart, ht.inUse⟩, fun b' x hx => h.linked b' x (hsub b' x hx), rfl,
      fun q hq b' => ?_, hlists, fun x hx => ?_, hobt, fun x => ?_, hrec⟩
    · cases hq
      exact hout b'
    · obtain ⟨hb, hc, hu⟩ := hnun x hx
      refine ⟨fun b' hb' => hc b' (hsub b' x hb'), fun he => ?_, List.mem_cons_of_mem _ hu⟩
      cases he
      exact hb hn
    · change (State.countUp (s.mem.unlink prev n) n).gc x = counted x ((n, s.mem.gc n) :: s.unlinked) % 2 ^ 64
      rw [counted_cons hcons]
      by_cases hx : x = n
      · subst hx
        simp only [State.countUp, Function.update_self, hgc, h.gc, if_true]
        omega
      · rw [if_neg (Ne.symm hx), Nat.zero_add, ← h.gc x, ← hgc]
        exact Function.update_of_ne hx _ _

theorem Inv.step (h : Inv s l g) (hs : OsaBest.step s c = some t) : ∃ l g, Inv t l g := by
  cases c with
  | insert k b fresh =>
    obtain ⟨⟨t', res⟩, hins, rfl⟩ := Option.map_eq_some_iff.mp hs
    obtain ⟨prev, l₁, l₂, hfind, hp, hcase⟩ := h.find k b
    simp only [State.insert, hfind] at hins
    rcases hcase with ⟨c, l₃, rfl, hk, _⟩ | ⟨hk, _, _⟩
    · simp only [List.head?_cons, Option.any_some, hk, decide_true, if_true] at hins
      cases hins
      exact ⟨l, g, h⟩
    · have hno : ¬ (l₂.head?.any fun c => decide (s.mem.key c = k)) := by
        cases l₂ with
        | nil => simp
        | cons c l₂ => simpa using ne_of_gt (hk c (by simp))
      rw [if_neg hno] at hins
      obtain ⟨⟨u, n⟩, hu, he⟩ := Option.map_eq_some_iff.mp hins
      cases he
      obtain ⟨l, g, hh⟩ := h.newNode hu
      exact ⟨l, g, hh.link hp hk⟩
  | delete k b =>
    cases hs
    obtain ⟨prev, l₁, l₂, hfind, hp, hcase⟩ := h.find k b
    unfold State.delete
    by_cases hh : s.mem.heads b = none
    · rw [if_pos hh]
      exact ⟨l, g, h⟩
    rw [if_neg hh, hfind]
    rcases hcase with ⟨c, l₃, rfl, hk, _⟩ | ⟨hk, _, _⟩
    · simp only [List.head?_cons, hk, ne_eq, not_true_eq_false, if_false]
      exact h.unlink hp
    · cases l₂ with
      | nil => exact ⟨l, g, h⟩
      | cons c l₂ =>
        have hne : s.mem.key c ≠ k := ne_of_gt (hk c (by simp))
        simp only [List.head?_cons, hne, ne_eq, not_false_eq_true, if_true]
        exact ⟨l, g, h⟩

theorem inv_reachable (h : Reachable (Steps step) (.init β) s) : ∃ l g, Inv s l g :=
  h.invariant (P := fun s => ∃ l g, Inv s l g) ⟨[], [], .init⟩ fun _ _ _ ⟨_, _, hi⟩ hs => hi.step hs

theorem getFree_top (a : Pool) : a.getFree.2 = top a := by
  unfold Pool.getFree top
  by_cases hl : a.lfl = none
  · cases a.freelist <;> simp [hl]
  · obtain ⟨n, hn⟩ := Option.ne_none_iff_exists'.mp hl
    simp [hn]

/-- Along a run, what `new_node` returns is aged where the condition holds, and only there. -/
theorem Inv.reusesAged_iff (h : Inv s l g) (hs : OsaBest.step s c = some t) : ReusesAged s c ↔ Spares s c := by
  cases c with
  | delete k b => exact Iff.rfl
  | insert k b fresh =>
    obtain ⟨⟨t', res⟩, hins, rfl⟩ := Option.map_eq_some_iff.mp hs
    obtain ⟨prev, l₁, l₂, hfind, hp, hcase⟩ := h.find k b
    rcases hcase with ⟨c, l₃, rfl, hk, hf, hm⟩ | ⟨hk, hf, hm⟩
    · exact ⟨fun _ hno => (hno hm).elim, fun _ hno => by rw [hf] at hno; cases hno⟩
    have hno : ¬ (l₂.head?.any fun c => decide (s.mem.key c = k)) := by
      cases l₂ with
      | nil => simp
      | cons c l₂ => simpa using ne_of_gt (hk c (by simp))
    simp only [State.insert, hfind, if_neg hno] at hins
    obtain ⟨⟨u, n⟩, hu, he⟩ := Option.map_eq_some_iff.mp hins
    simp only [ReusesAged, Spares, hf, hm, true_implies, not_false_eq_true]
    rcases h.lists.getFree with ⟨rfl, rfl, he⟩ | ⟨n', a, l', g', he, hlists, hmr, hcase⟩
    · have htop : top s.pool = none := by rw [← getFree_top, he]
      simp only [State.newNode, Pool.newNode, he, Option.isSome_none, Bool.false_eq_true, if_false] at hu ⊢
      split at hu <;> cases hu
      rename_i hobt
      refine ⟨fun _ n hn => (by cases htop.symm.trans hn), fun _ g hg => ?_⟩
      exact (hobt (h.obtained _ (List.mem_map_of_mem hg))).elim
    · have htop : top s.pool = some n' := by rw [← getFree_top, he]
      have hun := (h.free n' (by grind)).2.2
      simp only [Pool.newNode, he, htop, Option.some.injEq, forall_eq']
      exact h.aged_iff hun

/-- What a call adds to the record of unlinks; it frees a node only then. -/
theorem Inv.step_unlinked (h : Inv s l g) (hs : OsaBest.step s c = some t) :
    t.unlinked = s.unlinked ∧ FreesAged s c ∨
      ∃ k b e, c = .delete k b ∧ found s k b ≠ none ∧ t.unlinked = e :: s.unlinked := by
  cases c with
  | insert k b fresh =>
    refine .inl ⟨?_, trivial⟩
    obtain ⟨⟨t', res⟩, hins, rfl⟩ := Option.map_eq_some_iff.mp hs
    simp only [State.insert] at hins
    split at hins
    · cases hins
      rfl
    · obtain ⟨⟨u, n⟩, hu, he⟩ := Option.map_eq_some_iff.mp hins
      cases he
      obtain ⟨_, _, hh⟩ := h.newNode hu
      exact hh.unlinked
  | delete k b =>
    cases hs
    obtain ⟨prev, l₁, l₂, hfind, hp, hcase⟩ := h.find k b
    rcases hcase with ⟨c, l₃, rfl, hk, hf, hm⟩ | ⟨hk, hf, hm⟩
    · refine .inr ⟨k, b, (c, s.mem.gc c), rfl, by simp [hf], ?_⟩
      have hh : s.mem.heads b ≠ none := fun hh => h.table.head_none hh hm
      simp only [State.delete, if_neg hh, hfind, List.head?_cons, hk, ne_eq, not_true_eq_false, if_false]
      cases hl : s.freeLater <;> simp [State.freeNodeLater]
    · refine .inl ⟨?_, fun hno => (hno hf).elim⟩
      unfold State.delete
      by_cases hh : s.mem.heads b = none
      · rw [if_pos hh]
      rw [if_neg hh, hfind]
      cases l₂ with
      | nil => rfl
      | cons c l₂ =>
        have hne : s.mem.key c ≠ k := ne_of_gt (hk c (by simp))
        simp only [List.head?_cons, hne, ne_eq, not_false_eq_true, if_true]

omit [DecidableEq β] in
/-- The second unlink of all frees the node of the first, whose counter stands where it stood. -/
theorem Inv.freesAged_iff (h : Inv s l g) (hf : found s k b ≠ none) (hle : s.unlinked.length ≤ 1) :
    FreesAged s (.delete k b) ↔ s.unlinked = [] := by
  simp only [FreesAged, hf, ne_eq, not_false_eq_true, true_implies]
  cases hu : s.unlinked with
  | nil => simp [h.latest, hu]
  | cons e r =>
    obtain rfl : r = [] := by
      rw [hu] at hle
      simpa using hle
    have hl : s.freeLater = some e.1 := by rw [h.latest, hu]; rfl
    have hgc := h.gc e.1
    rw [hu] at hgc
    simp only [hl, Option.some.injEq, forall_eq', reduceCtorEq, iff_false]
    intro haged
    have hlt := haged e.2 (by simp [hu])
    rw [hgc] at hlt
    exact absurd hlt (Nat.not_lt_zero _)

/-- In a run no node enters a free list with a counter value of its unlinks iff there was at most one unlink. -/
theorem freesAged_run_iff {tr : List (Call β × State β)} (h : Run (Steps step) (.init β) tr s) :
    Run (fun s c t => step s c = some t ∧ FreesAged s c) (.init β) tr s ↔ s.unlinked.length ≤ 1 := by
  induction h with
  | nil => exact ⟨fun _ => Nat.zero_le 1, fun _ => .nil⟩
  | @snoc tr t c u htr hs ih =>
    obtain ⟨l, g, hi⟩ := inv_reachable ⟨tr, htr⟩
    have hlast {R : State β → Call β → State β → Prop} (hrun : Run R (.init β) (tr ++ [(c, u)]) u) :
        Run R (.init β) tr t ∧ R t c u := by
      obtain ⟨_, v, hv, hr⟩ := hrun.snoc_inv
      obtain rfl := hv.end_unique htr
      exact ⟨hv, hr⟩
    rcases hi.step_unlinked hs with ⟨hu, hfree⟩ | ⟨k, b, e, rfl, hf, hu⟩
    · rw [hu, ← ih]
      exact ⟨fun hrun => (hlast hrun).1, fun hrun => .snoc hrun ⟨hs, hfree⟩⟩
    · have hlen : u.unlinked.length ≤ 1 ↔ t.unlinked = [] := by simp [hu]
      rw [hlen]
      constructor
      · intro hrun
        obtain ⟨hv, _, hfree⟩ := hlast hrun
        exact (hi.freesAged_iff hf (ih.mp hv)).mp hfree
      · intro hnil
        have hle : t.unlinked.length ≤ 1 := by simp [hnil]
        exact .snoc (ih.mpr hle) ⟨hs, (hi.freesAged_iff hf hle).mpr hnil⟩

/-- The law of the readers, that a node is reused with a greater counter than it was unlinked with,
holds in a run iff no `insert` finds on top of the list a node that only the thread's first unlink took
out (or one whose counter came round); and what enters the free lists obeys it iff the thread made at
most one unlink. -/
theorem osa_best_law_iff {tr : List (Call β × State β)} (h : Run (Steps step) (.init β) tr s) :
    (Run (fun s c t => step s c = some t ∧ ReusesAged s c) (.init β) tr s ↔
      Run (fun s c t => step s c = some t ∧ Spares s c) (.init β) tr s) ∧
    (Run (fun s c t => step s c = some t ∧ FreesAged s c) (.init β) tr s ↔ s.unlinked.length ≤ 1) := by
  have hinv {P : State β → Call β → Prop} (hrun : Run (fun s c t => step s c = some t ∧ P s c) (.init β) tr s) :
      Run (fun s c t => (step s c = some t ∧ P s c) ∧ ∃ l g, Inv s l g) (.init β) tr s :=
    hrun.keeping (P := fun s => ∃ l g, Inv s l g) ⟨[], [], .init⟩ fun _ _ _ ⟨_, _, hi⟩ hs => hi.step hs.1
  refine ⟨⟨fun hrun => ?_, fun hrun => ?_⟩, freesAged_run_iff h⟩
  · exact (hinv hrun).mono fun s c t ⟨⟨hs, hp⟩, _, _, hi⟩ => ⟨hs, (hi.reusesAged_iff hs).mp hp⟩
  · exact (hinv hrun).mono fun s c t ⟨⟨hs, hp⟩, _, _, hi⟩ => ⟨hs, (hi.reusesAged_iff hs).mpr hp⟩

end inv

/-- Two nodes are inserted and deleted. -/
def twoDeletes : List (Call Unit) := [Call.insert 1 () 0, .insert 2 () 1, .delete 1 (), .delete 2 ()]

/-- The thread's first `delete` leaves the counter of its node at 0, and the node comes back so. -/
theorem first_unlink_not_aged : ∃ s t, Reachable (Steps step) (.init Unit) s ∧ step s (.insert 3 () 9) = some t ∧
    ¬ ReusesAged s (.insert 3 () 9) := by
  have h : (exec step (.init Unit) (twoDeletes ++ [.insert 3 () 9])).isSome ∧
      (exec step (.init Unit) twoDeletes).all fun s =>
        decide (found s 3 () = none ∧ (s.pool.newNode 9).2 = 0 ∧ (0, 0) ∈ s.unlinked ∧ s.mem.gc 0 = 0) := by
    constructor <;> decide
  obtain ⟨⟨t, ht⟩, hp⟩ := And.imp_left Option.isSome_iff_exists.mp h
  obtain ⟨s, hs, ht⟩ := exec_split ht
  obtain ⟨_, ht, ⟨⟩⟩ := Option.bind_eq_some_iff.mp ht
  obtain ⟨hf, hn, hm, hg⟩ := of_decide_eq_true (show decide _ = true by simpa [hs] using hp)
  refine ⟨s, t, ⟨_, exec_run hs⟩, ht, fun hlaw => ?_⟩
  have hlt := hlaw hf 0 (hn ▸ hm)
  rw [hn, hg] at hlt
  exact absurd hlt (lt_irrefl 0)

instance {s : State Unit} {n : Addr} : Decidable (Aged s n) :=
  decidable_of_iff (∀ e ∈ s.unlinked, e.1 = n → e.2 < s.mem.gc n)
    ⟨fun h g hm => h (n, g) hm rfl, fun h e hm he => h e.2 (he ▸ hm)⟩

instance {s : State Unit} : (c : Call Unit) → Decidable (ReusesAged s c)
  | .insert k b fresh => inferInstanceAs (Decidable (found s k b = none → Aged s (s.pool.newNode fresh).2))
  | .delete .. => .isTrue trivial

/-- Three nodes are inserted and deleted, and the node of the second `delete` is reused. -/
def threeDeletes : List (Call Unit) :=
  [Call.insert 1 () 0, .insert 2 () 1, .insert 3 () 2, .delete 1 (), .delete 2 (), .delete 3 (), .insert 4 () 9]

theorem osa_best_law_iff_twoDeletes :
    (∃ tr s, Run (Steps step) (.init Unit) tr s ∧ s.mem.key 1 = 4 ∧ (1, 0) ∈ s.unlinked ∧
      Run (fun s c t => step s c = some t ∧ ReusesAged s c) (.init Unit) tr s ∧
      Run (fun s c t => step s c = some t ∧ Spares s c) (.init Unit) tr s ∧
      ¬ Run (fun s c t => step s c = some t ∧ FreesAged s c) (.init Unit) tr s) ∧
    ∃ tr s, Run (Steps step) (.init Unit) tr s ∧
      (Run (fun s c t => step s c = some t ∧ ReusesAged s c) (.init Unit) tr s ↔
        Run (fun s c t => step s c = some t ∧ Spares s c) (.init Unit) tr s) ∧
      (Run (fun s c t => step s c = some t ∧ FreesAged s c) (.init Unit) tr s ↔ s.unlinked.length ≤ 1) := by
  constructor
  · have h : (exec (checked step fun s c => decide (ReusesAged s c)) (.init Unit) threeDeletes).any fun s =>
        s.mem.key 1 = 4 ∧ (1, 0) ∈ s.unlinked ∧ s.unlinked.length = 3 := by decide +kernel
    obtain ⟨s, hs, hp⟩ := (Option.any_eq_true _ _).mp h
    obtain ⟨hk, hm, hl⟩ := of_decide_eq_true hp
    have hrun : Run (fun s c t => step s c = some t ∧ ReusesAged s c) (.init Unit) _ s :=
      (exec_run hs).mono fun _ _ _ hst => (checked_iff.mp hst).imp_right of_decide_eq_true
    have hall : Run (Steps step) (.init Unit) _ s := hrun.mono fun _ _ _ hst => hst.1
    have hlaw := osa_best_law_iff hall
    exact ⟨_, s, hall, hk, hm, hrun, hlaw.1.mp hrun, fun hfree => absurd (hlaw.2.mp hfree) (by omega)⟩
  · obtain ⟨s, hs⟩ := Option.isSome_iff_exists.mp
      (show (exec step (.init Unit) (twoDeletes ++ [.insert 3 () 9])).isSome by decide)
    exact ⟨_, s, exec_run hs, osa_best_law_iff (exec_run hs)⟩

end Gecos.OsaBest
