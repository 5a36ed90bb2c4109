import Gecos.Allocation.Allocator
import Gecos.Library.Run

/-! Whether the allocator keeps every node that one thread ever obtained. -/
namespace Gecos.Allocation
open Library

/-- The allocator with its client: the nodes `calloc` ever returned, and those the client holds. -/
structure Client where
  pool : Pool
  obtained : Addr → Bool
  held : Addr → Bool

inductive Call where
  | newNode (fresh : Addr)
  | freeNode (n : Addr)
  deriving DecidableEq

def Client.init : Client := ⟨.init, fun _ => false, fun _ => false⟩

/-- One call. `calloc`, where it is asked, returns a node not obtained before; the client frees
only what it holds. -/
def step (s : Client) : Call → Option Client
  | .newNode fresh =>
    let (pool, n) := s.pool.newNode fresh
    if s.pool.getFree.2.isSome then some { s with pool, held := Function.update s.held n true }
    else if s.obtained fresh then none
    else some ⟨pool, Function.update s.obtained fresh true, Function.update s.held n true⟩
  | .freeNode n =>
    if s.held n then
      some { s with pool := s.pool.freeNode n, held := Function.update s.held n false }
    else none

/-- Where nodes can be: with the client, on the thread's list, or on the global list. -/
inductive Home where
  | client
  | lfl
  | freelist
  deriving DecidableEq

def Client.At (s : Client) (n : Addr) : Home → Prop
  | .client => s.held n = true
  | .lfl => Reach s.pool.mrNext s.pool.lfl n
  | .freelist => Reach s.pool.mrNext s.pool.freelist n

/-- Every node ever obtained is in exactly one place. -/
def Client.Conserves (s : Client) : Prop := ∀ n, s.obtained n = true → ∃! h, s.At n h

/-- The condition on the state before a call: a flush, if it comes, joins the two lists. -/
def Client.Joining (s : Client) : Call → Prop
  | .newNode _ => True
  | .freeNode p => amortFreeOn ≤ s.pool.lcnt + 1 →
    (s.pool.push p).Joins (s.pool.tail p) (p :: chainOf s.pool.mrNext s.pool.lfl)

/-- The steps of the client that meet the condition. -/
def JoiningStep (s : Client) (c : Call) (t : Client) : Prop := step s c = some t ∧ s.Joining c

/-- The two lists hold the nodes that were obtained and are not held. -/
structure Kept (s : Client) (l g : List Addr) : Prop where
  lists : s.pool.Lists l g
  free : ∀ n, (n ∈ l ∨ n ∈ g) ↔ s.obtained n = true ∧ s.held n = false
  held : ∀ n, s.held n = true → s.obtained n = true

variable {s s' : Client} {c : Call} {l g : List Addr} {n p fresh : Addr}

theorem Kept.init : Kept .init [] [] where
  lists := .init
  free n := by simp [Client.init]
  held n h := by simp [Client.init] at h

theorem Kept.conserves (h : Kept s l g) : s.Conserves := by
  intro n hn
  have hlfl : s.At n .lfl ↔ n ∈ l := Chain.reach_iff h.lists.lfl
  have hfree : s.At n .freelist ↔ n ∈ g := Chain.reach_iff h.lists.freelist
  have hcl : s.At n .client ↔ ¬ (n ∈ l ∨ n ∈ g) := by simp [h.free, hn, Client.At]
  have hap := h.lists.apart n
  by_cases hl : n ∈ l
  · refine ⟨.lfl, hlfl.mpr hl, fun x hx => ?_⟩
    cases x <;> grind
  by_cases hg : n ∈ g
  · refine ⟨.freelist, hfree.mpr hg, fun x hx => ?_⟩
    cases x <;> grind
  · refine ⟨.client, hcl.mpr (by simp [hl, hg]), fun x hx => ?_⟩
    cases x <;> grind

private theorem Kept.newNode (h : Kept s l g) (hs : step s (.newNode fresh) = some s') :
    ∃ l g, Kept s' l g := by
  rcases h.lists.getFree with ⟨rfl, rfl, he⟩ | ⟨n, a, l', g', he, hlists, hmr, hcase⟩
  · simp only [step, Pool.newNode, he, Option.isSome_none, Bool.false_eq_true, if_false] at hs
    split at hs <;> cases hs
    refine ⟨[], [], ⟨h.lists.lfl, h.lists.freelist, by simp⟩, fun n => ?_, fun n hn => ?_⟩
    · have := h.free n
      by_cases hnf : n = fresh <;> simp_all [Function.update_of_ne]
    · by_cases hnf : n = fresh
      · simp [hnf]
      · simpa [Function.update_of_ne hnf] using h.held n (by simpa [Function.update_of_ne hnf] using hn)
  · simp only [step, Pool.newNode, he, Option.isSome_some, if_true] at hs
    cases hs
    have hn := h.free n
    refine ⟨l', g', hlists, fun x => ?_, fun x hx => ?_⟩
    · have hx := h.free x
      have hnd := Chain.nodup h.lists.lfl
      have hnd' := Chain.nodup h.lists.freelist
      have hap := h.lists.apart
      by_cases hxn : x = n
      · subst hxn; simp; grind
      · simp [Function.update_of_ne hxn]; grind
    · by_cases hxn : x = n
      · subst hxn; simp; grind
      · exact h.held x (by simpa [Function.update_of_ne hxn] using hx)

/-- A flush that joins the lists keeps every node, and any other one loses some. -/
private theorem Kept.freeNode (h : Kept s l g) (hs : step s (.freeNode p) = some s') :
    (s.Joining (.freeNode p) → ∃ l g, Kept s' l g) ∧ (¬ s.Joining (.freeNode p) → ¬ s'.Conserves) := by
  simp only [step] at hs
  split at hs <;> cases hs
  rename_i hp
  have hobt := h.held p hp
  have hnot : p ∉ l ∧ p ∉ g := by simpa [hp] using h.free p
  have hpush := h.lists.push hnot.1 hnot.2
  have hfree (n : Addr) : (n ∈ p :: l ∨ n ∈ g) ↔
      s.obtained n = true ∧ Function.update s.held p false n = false := by
    by_cases hn : n = p
    · simp [hn, hobt]
    · simp [hn, h.free]
  have hheld (n : Addr) (hn : Function.update s.held p false n = true) : s.obtained n = true := by
    by_cases hnp : n = p
    · exact hnp ▸ hobt
    · exact h.held n (by simpa [Function.update_of_ne hnp] using hn)
  simp only [Client.Joining, chainOf_eq h.lists.lfl]
  by_cases hc : amortFreeOn ≤ s.pool.lcnt + 1
  · simp only [Pool.freeNode, Pool.addFree, Pool.push_lcnt, hc, true_implies]
    refine ⟨fun hj => ?_, fun hj hcons => ?_⟩
    · obtain ⟨g', hlists, hg'⟩ := hpush.flush hj
      exact ⟨[], g', hlists, fun n => by simp [hg', ← hfree], hheld⟩
    · obtain ⟨n, hn, hl, hg⟩ := hpush.flush_drops hj
      obtain ⟨hno, hnh⟩ := (hfree n).mp hn
      obtain ⟨x, hx, _⟩ := hcons n hno
      cases x with
      | client => exact absurd hx (by simp [Client.At, hnh])
      | lfl => exact hl hx
      | freelist => exact hg hx
  · simp only [Pool.freeNode, Pool.addFree, Pool.push_lcnt, hc, false_implies, not_true,
      true_implies, and_true]
    exact ⟨p :: l, g, hpush, hfree, hheld⟩

theorem Kept.step (h : Kept s l g) (hs : step s c = some s') :
    (s.Joining c → ∃ l g, Kept s' l g) ∧ (¬ s.Joining c → ¬ s'.Conserves) := by
  cases c with
  | newNode fresh => exact ⟨fun _ => h.newNode hs, fun hn => (hn trivial).elim⟩
  | freeNode p => exact h.freeNode hs

theorem kept_of_joining {tr : List (Call × Client)} (h : Run JoiningStep .init tr s) : ∃ l g, Kept s l g :=
  h.invariant (P := fun s => ∃ l g, Kept s l g) ⟨[], [], .init⟩
    fun _ _ _ ⟨_, _, hk⟩ hr => (hk.step hr.1).1 hr.2

/-- No node is dropped in a run exactly if every flush of the run joins the two lists. -/
theorem allocator_conserves_iff {tr : List (Call × Client)} (h : Run (Steps step) .init tr s) :
    (∀ t ∈ states .init tr, t.Conserves) ↔ Run JoiningStep .init tr s := by
  induction h with
  | nil =>
    refine ⟨fun _ => .nil, fun _ t ht => ?_⟩
    rw [show t = .init by simpa [states] using ht]
    exact Kept.init.conserves
  | @snoc tr t c u htr hstep ih =>
    rw [states_snoc]
    constructor
    · intro hall
      have hrun := ih.mp fun t ht => hall t (by simp [ht])
      obtain ⟨l, g, hk⟩ := kept_of_joining hrun
      by_cases hj : t.Joining c
      · exact .snoc hrun ⟨hstep, hj⟩
      · exact absurd (hall u (by simp)) ((hk.step hstep).2 hj)
    · intro hrun
      obtain ⟨l, g, hk⟩ := kept_of_joining hrun
      obtain ⟨_, v, hprev, _⟩ := hrun.snoc_inv
      obtain rfl := hprev.end_unique htr
      intro v hv
      rcases List.mem_append.mp hv with hv | hv
      · exact ih.mpr hprev v hv
      · rw [List.mem_singleton.mp hv]
        exact hk.conserves

/-- The local list grows to 100 nodes and is flushed, twice; the next call takes both lists. -/
def joiningCalls : List Call :=
  (List.range' 1 200).map Call.newNode ++ (List.range' 1 200).map Call.freeNode ++ [.newNode 0]

/-- A flush finds the nodes before `p` on the local list, the last of them in `lfl_tail`. -/
def joins (s : Client) : Call → Bool
  | .newNode _ => true
  | .freeNode p =>
    let l := (List.range' (p - 99) 99).reverse
    decide (s.pool.lcnt + 1 < amortFreeOn) ||
      decide (Chain s.pool.mrNext s.pool.lfl l) && decide ((p :: l).getLast? = some (s.pool.tail p))

theorem joining_of_joins (h : joins s c) : s.Joining c := by
  cases c with
  | newNode => trivial
  | freeNode p =>
    intro hle
    simp only [joins, Bool.or_eq_true, Bool.and_eq_true, decide_eq_true_eq] at h
    obtain ⟨hchain, hlast⟩ := h.resolve_left (Nat.not_lt.mpr hle)
    rw [chainOf_eq hchain]
    exact .inl hlast

theorem allocator_conserves_iff_first : ∃ tr s, Run (Steps step) .init tr s ∧ tr.map Prod.fst = joiningCalls ∧
    Chain s.pool.mrNext s.pool.lfl (List.range' 1 199).reverse ∧ s.pool.freelist = none ∧
    ∀ t ∈ states .init tr, t.Conserves := by
  have h : (exec (checked step joins) .init joiningCalls).any fun s =>
      decide (Chain s.pool.mrNext s.pool.lfl (List.range' 1 199).reverse) && decide (s.pool.freelist = none) := by
    decide +kernel
  obtain ⟨s, hs, hp⟩ := (Option.any_eq_true _ _).mp h
  simp only [Bool.and_eq_true, decide_eq_true_eq] at hp
  have hjoin : Run JoiningStep .init _ s := (exec_run hs).mono fun _ _ _ hr => (checked_iff.mp hr).imp_right joining_of_joins
  have hrun := hjoin.mono fun _ _ _ hr => hr.1
  exact ⟨_, s, hrun, execTrace_labels hs, hp.1, hp.2, (allocator_conserves_iff hrun).mpr hjoin⟩

/-- Node 0 is in `lfl_tail` when it is popped, and again in mid-list after 1 and itself were freed;
node 2 then comes and goes until the flush. -/
def leakingCalls : List Call :=
  [Call.newNode 0, .newNode 1, .newNode 2, .freeNode 0, .newNode 3, .freeNode 1, .freeNode 0] ++
    (List.replicate 96 [Call.freeNode 2, .newNode 3]).flatten ++ [Call.freeNode 2]

theorem allocator_drops_node : ∃ s, exec step .init leakingCalls = some s ∧ ¬ s.Conserves := by
  have h : (exec step .init leakingCalls).any fun s => s.obtained 1 && !s.held 1 &&
      s.pool.lfl.isNone && decide (s.pool.freelist = some 2) && decide (s.pool.mrNext 2 = some 0) &&
      decide (s.pool.mrNext 0 = none) := by decide +kernel
  obtain ⟨s, hs, hp⟩ := (Option.any_eq_true _ _).mp h
  refine ⟨s, hs, fun hcons => ?_⟩
  simp only [Bool.and_eq_true, Bool.not_eq_true', Option.isNone_iff_eq_none, decide_eq_true_eq] at hp
  obtain ⟨⟨⟨⟨⟨hobt, hheld⟩, hlfl⟩, hfree⟩, h₂⟩, h₀⟩ := hp
  have hl : Chain s.pool.mrNext s.pool.lfl [] := hlfl
  have hg : Chain s.pool.mrNext s.pool.freelist [2, 0] := ⟨hfree, h₂, h₀⟩
  obtain ⟨x, hx, _⟩ := hcons 1 hobt
  cases x with
  | client => simp [Client.At, hheld] at hx
  | lfl => simpa using (Chain.reach_iff hl).mp hx
  | freelist => simpa using (Chain.reach_iff hg).mp hx

end Gecos.Allocation
