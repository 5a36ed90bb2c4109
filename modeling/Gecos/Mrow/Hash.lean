import Gecos.Mrow.Config
import Gecos.Table.Calls
import Mathlib.Data.Int.ConditionallyCompleteOrder
import Mathlib.Data.Int.Interval
import Mathlib.Data.Int.ModEq
import Mathlib.Order.ConditionallyCompleteLattice.Basic

/-! The table of mrow.c, from `hash_init` (with `POPULATE`, without `SET_TAIL`) to `hash_delete`,
and the set of keys that it stands for. -/
namespace Gecos.Mrow
open Library

/-- The file whose `insert`, `delete` and `search` are linked. -/
inductive Source where
  | listWriter
  | listSgecos

/-- A call; for an `insert` with the node that `new_node` returns if it gets there. -/
inductive Call where
  | insert (k : Int) (new : Addr)
  | delete (k : Int)
  | search (k : Int)

namespace Call

def key : Call → Int
  | insert k _ | delete k | search k => k

def new : Call → Option Addr
  | insert _ n => some n
  | _ => none

/-- The same call on a set of keys, with what it returns. -/
def onSet (S : Finset Int) : Call → Finset Int × Nat
  | insert k _ => (Insert.insert k S, if k ∈ S then 0 else 1)
  | delete k => (S.erase k, if k ∈ S then 1 else 0)
  | search k => (S, if k ∈ S then 1 else 0)

end Call

/-- Calls on a set one after the other. -/
def callsOnSet : Finset Int → List Call → Finset Int × List Nat
  | S, [] => (S, [])
  | S, x :: xs => ((callsOnSet (x.onSet S).1 xs).1, (x.onSet S).2 :: (callsOnSet (x.onSet S).1 xs).2)

/-- What calls one after the other leave. -/
structure Outcomes where
  mem : Mem Int
  results : List Nat
  freed : List Addr

namespace Config
variable (c : Config) (src : Source)

/-- A call through `get_buckets`. No bucket has more than `nbkeys` nodes, so that `nbkeys + 1` tests
are enough for every loop. -/
def call (m : Mem Int) (x : Call) : Option (Outcome Int) :=
  match src, x with
  | .listWriter, .insert k new => ListWriter.insert m k (c.nbkeys + 1) (getBuckets c.nbbuckets k) new
  | .listWriter, .delete k => ListWriter.delete m k (c.nbkeys + 1) (getBuckets c.nbbuckets k)
  | .listWriter, .search k => ListWriter.search m k (c.nbkeys + 1) (getBuckets c.nbbuckets k)
  | .listSgecos, .insert k new => ListSgecos.insert m k (c.nbkeys + 1) (getBuckets c.nbbuckets k) new
  | .listSgecos, .delete k => ListSgecos.delete m k (c.nbkeys + 1) (getBuckets c.nbbuckets k)
  | .listSgecos, .search k => ListSgecos.search m k (c.nbkeys + 1) (getBuckets c.nbbuckets k)

def calls : Mem Int → List Call → Option Outcomes
  | m, [] => some ⟨m, [], []⟩
  | m, x :: xs => (c.call src m x).bind fun o =>
    (calls o.mem xs).map fun t => ⟨t.mem, o.res :: t.results, o.freed ++ t.freed⟩

/-- The `insert` calls of `hash_init` for the keys below `n`. -/
def populate (news : Nat → Addr) (n : Nat) : List Call := (List.range n).map fun i : Nat => .insert (i : Int) (news i)

def hashInit (news : Nat → Addr) : Option Outcomes := c.calls src (.init Int) (populate news c.nbkeys)

def hashDelete (m : Mem Int) : Option Outcomes := c.calls src m ((List.range c.nbkeys).map fun i : Nat => .delete (i : Int))

/-- The chains end, are sorted and apart, hold no free node, and each has keys of its index only;
an index outside the array has none. -/
structure WellFormed (m : Mem Int) : Prop where
  table : m.Table
  congruent : ∀ b, ∀ n ∈ m.chain b, m.key n ≡ b [ZMOD c.nbbuckets]
  bounds : ∀ b, m.chain b ≠ [] → 0 ≤ b ∧ b < c.nbbuckets

/-- The table stands for the set `S` of keys. -/
structure Holds (m : Mem Int) (S : Finset Int) : Prop where
  table : m.Table
  member : ∀ b k, m.Member b k ↔ k ∈ S ∧ getBuckets c.nbbuckets k = b
  range : S ⊆ Finset.Ico 0 (c.nbkeys : Int)

variable {c src} {m : Mem Int} {S : Finset Int} {x : Call} {xs ys : List Call} {o : Outcome Int} {t t' : Outcomes}

theorem Holds.init : c.Holds (.init Int) ∅ where
  table := .init
  member b k := by
    have hc : (Mem.init Int).chain b = [] := Mem.chain_eq rfl
    rw [Mem.Table.init.member_iff, hc]
    simp
  range := by simp

/-- A chain has one node for each of some keys. -/
theorem Holds.length_le (h : c.Holds m S) (b : Int) : (m.chain b).length ≤ c.nbkeys := by
  have hnd : ((m.chain b).map m.key).Nodup := by
    apply List.pairwise_map.mpr
    exact (h.table.sorted b).imp ne_of_lt
  have hsub : ((m.chain b).map m.key).toFinset ⊆ Finset.Ico 0 (c.nbkeys : Int) := by
    intro k hk
    obtain ⟨n, hn, rfl⟩ := List.mem_map.mp (List.mem_toFinset.mp hk)
    exact h.range ((h.member b _).mp (h.table.member_iff.mpr ⟨n, hn, rfl⟩)).1
  have hcard := Finset.card_le_card hsub
  rw [List.toFinset_card_of_nodup hnd, List.length_map, Int.card_Ico] at hcard
  simpa using hcard

theorem Holds.index (h : c.Holds m S) (hk : c.nbkeys < 2 ^ 31) {b : Int} {n : Addr} (hn : n ∈ m.chain b) :
    m.key n % c.nbbuckets = b := by
  obtain ⟨hS, hb⟩ := (h.member b _).mp (h.table.member_iff.mpr ⟨n, hn, rfl⟩)
  obtain ⟨h₀, hlt⟩ := Finset.mem_Ico.mp (h.range hS)
  rwa [getBuckets_eq h₀ (by omega)] at hb

theorem Holds.wellFormed (h : c.Holds m S) (hk : c.nbkeys < 2 ^ 31) (hb : 1 ≤ c.nbbuckets) : c.WellFormed m := by
  refine ⟨h.table, fun b n hn => ?_, fun b hne => ?_⟩
  · rw [← h.index hk hn]
    exact (Int.mod_modEq _ _).symm
  · obtain ⟨n, hn⟩ := List.exists_mem_of_ne_nil _ hne
    rw [← h.index hk hn]
    exact ⟨Int.emod_nonneg _ (by omega), Int.emod_lt_of_pos _ (by omega)⟩

/-- The nodes linked in any bucket. -/
def Linked (m : Mem Int) (n : Addr) : Prop := ∃ b, n ∈ m.chain b

variable (src) in
theorem call_inserts (h : c.Holds m S) (k : Int) (new : Addr) :
    m.Inserts k (getBuckets c.nbbuckets k) new (c.call src m (.insert k new)) := by
  have hlen := Nat.lt_succ_of_le (h.length_le (getBuckets c.nbbuckets k))
  cases src with
  | listWriter => exact h.table.writer_insert hlen
  | listSgecos => exact h.table.sgecos_insert hlen

variable (src) in
theorem call_deletes (h : c.Holds m S) (k : Int) :
    m.Deletes k (getBuckets c.nbbuckets k) (c.call src m (.delete k)) := by
  have hlen := Nat.lt_succ_of_le (h.length_le (getBuckets c.nbbuckets k))
  cases src with
  | listWriter => exact h.table.writer_delete hlen
  | listSgecos => exact h.table.sgecos_delete hlen

variable (src) in
theorem call_searches (h : c.Holds m S) (k : Int) :
    m.Searches k (getBuckets c.nbbuckets k) (c.call src m (.search k)) := by
  have hlen := Nat.lt_succ_of_le (h.length_le (getBuckets c.nbbuckets k))
  cases src with
  | listWriter => exact h.table.writer_search hlen
  | listSgecos => exact h.table.sgecos_search hlen

theorem Holds.member_self (h : c.Holds m S) (k : Int) : m.Member (getBuckets c.nbbuckets k) k ↔ k ∈ S := by
  rw [h.member]
  simp

/-- A key is in one bucket only. -/
theorem Holds.bucket (h : c.Holds m S) {b k : Int} (hm : m.Member b k) : getBuckets c.nbbuckets k = b :=
  ((h.member b k).mp hm).2

/-- What a call does to the set, and what it takes away from the linked nodes. -/
theorem call_onSet (h : c.Holds m S) (hx : x.key ∈ Finset.Ico 0 (c.nbkeys : Int)) (ho : c.call src m x = some o) :
    c.Holds o.mem (x.onSet S).1 ∧ o.res = (x.onSet S).2 := by
  cases x with
  | insert k new =>
    rcases call_inserts src h k new with ⟨hm, he⟩ | ⟨hm, p, l₁, l₂, hs, he⟩
    · rw [h.member_self] at hm
      cases he.symm.trans ho
      simp only [Call.onSet, hm, if_true, Finset.insert_eq_of_mem]
      exact ⟨h, trivial⟩
    · rw [he] at ho
      split at ho <;> cases ho
      rename_i hav
      obtain ⟨ht, hmem⟩ := h.table.linked hs hm hav
      rw [h.member_self] at hm
      refine ⟨⟨ht, fun b' k' => ?_, ?_⟩, by simp [Call.onSet, hm]⟩
      · rw [hmem, h.member]
        simp only [Call.onSet, Finset.mem_insert]
        constructor
        · rintro (⟨hS, hb⟩ | ⟨hb, hk⟩)
          · exact ⟨.inr hS, hb⟩
          · exact ⟨.inl hk, by rw [hk, hb]⟩
        · rintro ⟨hk | hS, hb⟩
          · exact .inr ⟨by rw [← hb, hk], hk⟩
          · exact .inl ⟨hS, hb⟩
      · intro y hy
        rcases Finset.mem_insert.mp hy with rfl | hy
        · exact hx
        · exact h.range hy
  | delete k =>
    rcases call_deletes src h k with ⟨hm, he⟩ | ⟨p, l₁, n, l₂, lk, hs, hk, he⟩
    · rw [h.member_self] at hm
      cases he.symm.trans ho
      simp only [Call.onSet, hm, if_false, Finset.erase_eq_of_notMem, not_false_eq_true]
      exact ⟨h, trivial⟩
    · cases he.symm.trans ho
      have hm := (hs.member_iff h.table).mp hk
      obtain ⟨ht, hmem, _⟩ := h.table.deleted hs hk lk
      rw [h.member_self] at hm
      refine ⟨⟨ht, fun b' k' => ?_, (Finset.erase_subset _ _).trans h.range⟩, by simp [Call.onSet, hm]⟩
      rw [hmem, h.member]
      simp only [Call.onSet, Finset.mem_erase]
      constructor
      · rintro ⟨⟨hS, hb⟩, hno⟩
        exact ⟨⟨fun hkk => hno ⟨by rw [← hb, hkk], hkk⟩, hS⟩, hb⟩
      · rintro ⟨⟨hkk, hS⟩, hb⟩
        exact ⟨⟨hS, hb⟩, fun hno => hkk hno.2⟩
  | search k =>
    obtain ⟨res, he, h01, hres⟩ := call_searches src h k
    cases he.symm.trans ho
    refine ⟨h, ?_⟩
    rw [h.member_self] at hres
    simp only [Call.onSet]
    split
    · exact hres.mpr (by assumption)
    · exact h01.resolve_right fun hr => by have := hres.mp hr; contradiction

variable (src) in
/-- With a node that `new_node` can return, a call returns. -/
theorem call_returns (h : c.Holds m S) (hnew : ∀ n, x.new = some n → m.avail n = true) : (c.call src m x).isSome := by
  cases x with
  | insert k new =>
    rcases call_inserts src h k new with ⟨_, he⟩ | ⟨_, p, l₁, l₂, _, he⟩
    · rw [he]
      rfl
    · rw [he, if_pos (hnew new rfl)]
      rfl
  | delete k =>
    rcases call_deletes src h k with ⟨_, he⟩ | ⟨p, l₁, n, l₂, lk, _, _, he⟩ <;> rw [he] <;> rfl
  | search k =>
    obtain ⟨res, he, _⟩ := call_searches src h k
    rw [he]
    rfl

/-- What a `delete` frees was linked, and is not linked after. -/
theorem delete_frees {k : Int} (h : c.Holds m S) (ho : c.call src m (.delete k) = some o) :
    o.freed.Nodup ∧ (∀ n ∈ o.freed, Linked m n) ∧ ∀ n, Linked o.mem n ↔ Linked m n ∧ n ∉ o.freed := by
  rcases call_deletes src h k with ⟨_, he⟩ | ⟨p, l₁, n, l₂, lk, hs, hk, he⟩
  · cases he.symm.trans ho
    simp
  · cases he.symm.trans ho
    obtain ⟨_, _, hn, hl⟩ := h.table.deleted hs hk lk
    refine ⟨by simp, by simpa [Linked] using hn, fun x => ?_⟩
    rw [List.mem_singleton]
    exact hl x

theorem calls_cons (ho : c.calls src m (x :: xs) = some t) :
    ∃ o t', c.call src m x = some o ∧ c.calls src o.mem xs = some t' ∧
      t = ⟨t'.mem, o.res :: t'.results, o.freed ++ t'.freed⟩ := by
  obtain ⟨o, hc, ho⟩ := Option.bind_eq_some_iff.mp ho
  obtain ⟨t', ht, rfl⟩ := Option.map_eq_some_iff.mp ho
  exact ⟨o, t', hc, ht, rfl⟩

/-- Calls on the table are the calls on the set. -/
theorem calls_onSet (h : c.Holds m S) (hx : ∀ x ∈ xs, x.key ∈ Finset.Ico 0 (c.nbkeys : Int))
    (ho : c.calls src m xs = some t) : c.Holds t.mem (callsOnSet S xs).1 ∧ t.results = (callsOnSet S xs).2 := by
  induction xs generalizing m S t with
  | nil =>
    cases ho
    exact ⟨h, rfl⟩
  | cons x xs ih =>
    obtain ⟨o, t', hc, ht, rfl⟩ := calls_cons ho
    obtain ⟨hh, hr⟩ := call_onSet h (hx x (by simp)) hc
    obtain ⟨hh', hr'⟩ := ih hh (fun y hy => hx y (by simp [hy])) ht
    exact ⟨hh', by simp only [callsOnSet, hr, hr']⟩

theorem calls_append (ho : c.calls src m xs = some t) :
    c.calls src m (xs ++ ys) =
      (c.calls src t.mem ys).map fun t' => ⟨t'.mem, t.results ++ t'.results, t.freed ++ t'.freed⟩ := by
  induction xs generalizing m t with
  | nil =>
    cases ho
    simp
  | cons x xs ih =>
    obtain ⟨o, t', hc, ht, rfl⟩ := calls_cons ho
    rw [List.cons_append, calls, hc, Option.bind_some, ih ht, Option.map_map]
    simp [Function.comp_def]

/-- `delete` calls free each node that they unlink once. -/
theorem deletes_free {ks : List Int} (h : c.Holds m S) (hk : ∀ k ∈ ks, k ∈ Finset.Ico 0 (c.nbkeys : Int))
    (ho : c.calls src m (ks.map .delete) = some t) :
    t.freed.Nodup ∧ (∀ n ∈ t.freed, Linked m n) ∧ ∀ n, Linked t.mem n ↔ Linked m n ∧ n ∉ t.freed := by
  induction ks generalizing m S t with
  | nil =>
    cases ho
    simp
  | cons k ks ih =>
    obtain ⟨o, t', hc, ht, rfl⟩ := calls_cons ho
    obtain ⟨hnd, hsub, hl⟩ := delete_frees h hc
    have hh := (call_onSet (x := .delete k) h (hk k (by simp)) hc).1
    obtain ⟨hnd', hsub', hl'⟩ := ih hh (fun y hy => hk y (by simp [hy])) ht
    refine ⟨List.nodup_append.mpr ⟨hnd, hnd', ?_⟩, fun n hn => ?_, fun n => ?_⟩
    · rintro n hn _ hn' rfl
      exact ((hl n).mp (hsub' n hn')).2 hn
    · rcases List.mem_append.mp hn with hn | hn
      · exact hsub n hn
      · exact ((hl n).mp (hsub' n hn)).1
    · rw [hl', hl, List.mem_append]
      tauto

theorem deletes_onSet (S : Finset Int) (ks : List Int) :
    (callsOnSet S (ks.map .delete)).1 = S \ ks.toFinset := by
  induction ks generalizing S with
  | nil => simp [callsOnSet]
  | cons k ks ih =>
    simp only [List.map_cons, callsOnSet, ih, Call.onSet]
    ext x
    simp only [Finset.mem_sdiff, Finset.mem_erase, List.mem_toFinset, List.mem_cons]
    tauto

variable (src) in
theorem deletes_return {ks : List Int} (h : c.Holds m S) (hk : ∀ k ∈ ks, k ∈ Finset.Ico 0 (c.nbkeys : Int)) :
    (c.calls src m (ks.map .delete)).isSome := by
  induction ks generalizing m S with
  | nil => rfl
  | cons k ks ih =>
    obtain ⟨o, ho⟩ := Option.isSome_iff_exists.mp (call_returns src h (show ∀ n, Call.new (.delete k) = some n → m.avail n = true by simp [Call.new]))
    have hh := (call_onSet (x := .delete k) h (hk k (by simp)) ho).1
    obtain ⟨t, ht⟩ := Option.isSome_iff_exists.mp (ih hh fun y hy => hk y (by simp [hy]))
    simp [List.map_cons, calls, ho, ht]

theorem populate_succ (news : Nat → Addr) (n : Nat) : populate news (n + 1) = populate news n ++ [.insert n (news n)] := by
  simp [populate, List.range_succ]

theorem populate_key {news : Nat → Addr} {n : Nat} (hn : n ≤ c.nbkeys) (hx : x ∈ populate news n) :
    x.key ∈ Finset.Ico 0 (c.nbkeys : Int) := by
  obtain ⟨i, hi, rfl⟩ := List.mem_map.mp hx
  have := List.mem_range.mp hi
  simp only [Call.key, Finset.mem_Ico]
  omega

theorem callsOnSet_append (S : Finset Int) (xs ys : List Call) :
    (callsOnSet S (xs ++ ys)).1 = (callsOnSet (callsOnSet S xs).1 ys).1 := by
  induction xs generalizing S with
  | nil => rfl
  | cons x xs ih =>
    simp only [List.cons_append, callsOnSet]
    exact ih _

/-- `hash_init` puts all keys in. -/
theorem populate_onSet (news : Nat → Addr) (n : Nat) : (callsOnSet ∅ (populate news n)).1 = Finset.Ico 0 (n : Int) := by
  induction n with
  | zero => simp [populate, callsOnSet]
  | succ n ih =>
    rw [populate_succ, callsOnSet_append, ih]
    ext k
    simp only [callsOnSet, Call.onSet, Finset.mem_insert, Finset.mem_Ico]
    omega

/-- It returns when `new_node` returns nodes that it can. -/
theorem populate_returns {news : Nat → Addr} {n : Nat} (hn : n ≤ c.nbkeys)
    (hnew : ∀ j < n, ∀ t, c.calls src (.init Int) (populate news j) = some t → t.mem.avail (news j) = true) :
    (c.calls src (.init Int) (populate news n)).isSome := by
  induction n with
  | zero => rfl
  | succ n ih =>
    obtain ⟨t, ht⟩ := Option.isSome_iff_exists.mp (ih (by omega) fun j hj => hnew j (by omega))
    obtain ⟨hh, _⟩ := calls_onSet Holds.init (fun x hx => populate_key (by omega) hx) ht
    have hret : (c.call src t.mem (.insert n (news n))).isSome :=
      call_returns src hh fun k hk => by cases hk; exact hnew n (by omega) t ht
    obtain ⟨o, ho⟩ := Option.isSome_iff_exists.mp hret
    rw [populate_succ, calls_append ht]
    simp [calls, ho]

/-- With no key left, every head is null. -/
theorem Holds.heads_null (h : c.Holds m ∅) (b : Int) : m.heads b = none := by
  rw [Seg.head (h.table.ends b)]
  cases hc : m.chain b with
  | nil => rfl
  | cons n l =>
    have hm := h.table.member_iff.mpr ⟨n, by rw [hc]; simp, rfl⟩
    exact absurd ((h.member b _).mp hm).1 (Finset.notMem_empty _)

theorem hashDelete_empties (h : c.Holds m S) : ∃ t, c.hashDelete src m = some t ∧ (∀ b, t.mem.heads b = none) ∧
    t.freed.Nodup ∧ ∀ n, n ∈ t.freed ↔ Linked m n := by
  have hcalls : c.hashDelete src m = c.calls src m (((List.range c.nbkeys).map Nat.cast).map .delete) := by
    rw [hashDelete, List.map_map]
    rfl
  have hks : ∀ k ∈ (List.range c.nbkeys).map (Nat.cast : Nat → Int), k ∈ Finset.Ico 0 (c.nbkeys : Int) := by
    intro k hk
    obtain ⟨i, hi, rfl⟩ := List.mem_map.mp hk
    have := List.mem_range.mp hi
    simp only [Finset.mem_Ico]
    omega
  rw [hcalls]
  obtain ⟨t, ht⟩ := Option.isSome_iff_exists.mp (deletes_return src h hks)
  obtain ⟨hnd, hsub, hl⟩ := deletes_free h hks ht
  have hend := (calls_onSet h (by simp [Call.key]) ht).1
  have hempty : (callsOnSet S (((List.range c.nbkeys).map Nat.cast).map .delete)).1 = ∅ := by
    rw [deletes_onSet, Finset.sdiff_eq_empty_iff_subset]
    intro k hk
    obtain ⟨h₀, hlt⟩ := Finset.mem_Ico.mp (h.range hk)
    rw [List.mem_toFinset, List.mem_map]
    exact ⟨k.toNat, by rw [List.mem_range]; omega, by omega⟩
  rw [hempty] at hend
  refine ⟨t, ht, hend.heads_null, hnd, fun n => ⟨hsub n, fun hn => ?_⟩⟩
  by_contra hnot
  obtain ⟨b, hb⟩ := (hl n).mpr ⟨hn, hnot⟩
  have hm := hend.table.member_iff.mpr ⟨n, hb, rfl⟩
  exact absurd ((hend.member b _).mp hm).1 (Finset.notMem_empty _)

end Config

/-- The table is a set of keys: after `hash_init` every sequence of calls returns what it returns on the
set of all keys, and `hash_delete` frees each node left exactly once. -/
theorem table_refines_set {nbthreads nbupdaters nbbuckets pbnodes : Nat} {c : Config} (src : Source)
    (hc : setupTest nbthreads nbupdaters nbbuckets pbnodes = some c) (hk : c.nbkeys < 2 ^ 31) :
    (∀ news, (∀ j < c.nbkeys, ∀ t, c.calls src (.init Int) (Config.populate news j) = some t → t.mem.avail (news j) = true) →
      (c.hashInit src news).isSome) ∧
    ∀ news t₀, c.hashInit src news = some t₀ → ∀ xs : List Call, (∀ x ∈ xs, 0 ≤ x.key ∧ x.key < c.nbkeys) →
      ∀ t, c.calls src t₀.mem xs = some t →
        t.results = (callsOnSet (Finset.Ico 0 c.nbkeys) xs).2 ∧ c.WellFormed t.mem ∧
        (∀ x : Call, 0 ≤ x.key → x.key < c.nbkeys → (∀ n, x.new = some n → t.mem.avail n = true) →
          (c.call src t.mem x).isSome) ∧
        ∃ t', c.hashDelete src t.mem = some t' ∧ (∀ b, t'.mem.heads b = none) ∧ t'.freed.Nodup ∧
          ∀ n, n ∈ t'.freed ↔ ∃ b, n ∈ t.mem.chain b := by
  have hb := (setupTest_some hc).2.2.2.2.1
  refine ⟨fun news => Config.populate_returns le_rfl, fun news t₀ h₀ xs hxs t ht => ?_⟩
  obtain ⟨hh₀, _⟩ := Config.calls_onSet Config.Holds.init (fun x hx => Config.populate_key le_rfl hx) h₀
  rw [Config.populate_onSet] at hh₀
  obtain ⟨hh, hr⟩ := Config.calls_onSet hh₀ (fun x hx => Finset.mem_Ico.mpr (hxs x hx)) ht
  exact ⟨hr, hh.wellFormed hk hb, fun x _ _ hnew => Config.call_returns src hh hnew, Config.hashDelete_empties hh⟩

/-- Two buckets, four keys; node 2 is recycled. -/
def fourKeys : Config := ⟨2, 1, 1, 2, 2, 4⟩

theorem table_refines_set_recycled : ∃ t₀ t, fourKeys.hashInit .listSgecos id = some t₀ ∧
    fourKeys.calls .listSgecos t₀.mem [.delete 2, .search 2, .insert 2 2, .insert 2 7, .search 2] = some t ∧
    t.results = [1, 0, 1, 0, 1] ∧ fourKeys.WellFormed t.mem := by
  have hinit : (fourKeys.hashInit .listSgecos id).any fun t₀ =>
      (fourKeys.calls .listSgecos t₀.mem [.delete 2, .search 2, .insert 2 2, .insert 2 7, .search 2]).isSome := by
    decide +kernel
  obtain ⟨t₀, h₀, h⟩ := (Option.any_eq_true _ _).mp hinit
  obtain ⟨t, ht⟩ := Option.isSome_iff_exists.mp h
  have hs := (table_refines_set (c := fourKeys) .listSgecos (show setupTest 2 1 2 2 = _ by decide) (by decide)).2 id t₀ h₀
    [.delete 2, .search 2, .insert 2 2, .insert 2 7, .search 2] (by decide) t ht
  exact ⟨t₀, t, h₀, ht, hs.1.trans (by decide +kernel), hs.2.1⟩

end Gecos.Mrow
