import Mathlib.Algebra.Order.BigOperators.Group.Finset
import Mathlib.Data.Fintype.Basic
import Mathlib.Data.Multiset.Count

/-! Reference counts of linked cells, accounted for: who holds the references that a count
stands for, when one thread links and unlinks cells and all threads acquire and release them.
A cell whose count drops to zero still holds a reference to its successor, which it passes on. -/
namespace Gecos.Library
variable {T α : Type*}

/-- What a cell is: free; in the structure; handed out to the owner and not in it yet; taken out
of it, with the successor still uncounted; waiting outside of it for its references to be dropped;
dropped for the last time by thread `t`, with a reference to its successor; without that. -/
inductive Home (T : Type*) where
  | free
  | linked
  | fresh
  | leaving
  | limbo
  | dying (t : T)
  | spent (t : T)
  deriving DecidableEq

/-- Nobody may have a reference to such a cell. -/
def Home.Zero : Home T → Prop
  | .free | .dying _ | .spent _ => True
  | .linked | .fresh | .leaving | .limbo => False

/-- The structure's own reference to a cell. -/
def Home.link : Home T → Nat
  | .linked => 1
  | .free | .fresh | .leaving | .limbo | .dying _ | .spent _ => 0

/-- Such a cell counts as a reference to its successor. -/
def Home.Points : Home T → Prop
  | .limbo | .dying _ => True
  | _ => False

/-- `limbo` lists the cells that count as references to their successors, in the order in which
they left the structure; `held t` are the references of thread `t`. -/
structure Ledger (T α : Type*) where
  count : α → Nat
  next : α → Option α
  home : α → Home T
  limbo : List α
  held : T → Multiset α

namespace Ledger
variable [DecidableEq T] [DecidableEq α] [Fintype T]

/-- The references to `n` by cells in limbo. -/
def pointers (next : α → Option α) (limbo : List α) (n : α) : Nat := limbo.countP fun x => next x = some n

/-- The references to `n` by threads. -/
def total (held : T → Multiset α) (n : α) : Nat := ∑ t, (held t).count n

/-- The counts are right, for the owner `w` of the structure. -/
structure Balanced (l : Ledger T α) (w : T) : Prop where
  count : ∀ n, l.count n = (l.home n).link + pointers l.next l.limbo n + total l.held n
  limbo : ∀ n, n ∈ l.limbo ↔ (l.home n).Points
  nodup : l.limbo.Nodup
  zero : ∀ n, (l.home n).Zero → l.count n = 0
  live : ∀ n, l.home n = .limbo → l.count n ≠ 0
  fresh : ∀ n, l.home n = .fresh → l.count n = 0 ∨ n ∈ l.held w
  leaving : ∀ n, l.home n = .leaving → n ∈ l.held w
  /-- A cell in limbo points to none that left the structure before. -/
  order : l.limbo.Pairwise fun x y => l.next y ≠ some x
  self : ∀ n ∈ l.limbo, l.next n ≠ some n

/-- Thread `t` gets a reference to `q`. -/
def acquire (l : Ledger T α) (t : T) (q : α) : Ledger T α :=
  { l with
    count := Function.update l.count q (l.count q + 1), held := Function.update l.held t (q ::ₘ l.held t) }

/-- Thread `t` drops a reference to `p`. -/
def release (l : Ledger T α) (t : T) (p : α) : Ledger T α :=
  { l with
    count := Function.update l.count p (l.count p - 1), held := Function.update l.held t ((l.held t).erase p),
    home := if l.count p = 1 then Function.update l.home p (.dying t) else l.home }

/-- The reference that a dying cell holds is passed on to thread `t`. -/
def descend (l : Ledger T α) (t : T) (p : α) : Ledger T α :=
  { l with
    limbo := l.limbo.erase p, home := Function.update l.home p (.spent t),
    held := Function.update l.held t ((l.next p).toList + l.held t) }

/-- A cell changes what it is without that anybody's references change. -/
def rehome (l : Ledger T α) (n : α) (h : Home T) : Ledger T α :=
  { l with home := Function.update l.home n h }

/-- Owner `w` puts `n` into the structure, which then holds the reference that `w` held. -/
def link (l : Ledger T α) (w : T) (n : α) (next : α → Option α) : Ledger T α :=
  { l with
    next, home := Function.update l.home n .linked, held := Function.update l.held w ((l.held w).erase n) }

/-- Owner `w` takes `n` out of the structure, and with it the reference that this held. -/
def unlink (l : Ledger T α) (w : T) (n : α) (next : α → Option α) : Ledger T α :=
  { l with
    next, home := Function.update l.home n .leaving, held := Function.update l.held w (n ::ₘ l.held w) }

/-- The successor of `n` is counted. -/
def settle (l : Ledger T α) (n : α) : Ledger T α :=
  { l with
    count := fun x => l.count x + if l.next n = some x then 1 else 0
    limbo := l.limbo ++ [n], home := Function.update l.home n .limbo }

variable {l : Ledger T α} {w t : T} {n p q : α} {next : α → Option α}

section total
variable (held : T → Multiset α) (t : T)

/-- One thread's references changed. -/
theorem total_update (m : Multiset α) (n : α) :
    total (Function.update held t m) n + (held t).count n = total held n + m.count n := by
  have hrest : ∑ u ∈ Finset.univ.erase t, (Function.update held t m u).count n =
      ∑ u ∈ Finset.univ.erase t, (held u).count n := by
    apply Finset.sum_congr rfl
    intro u hu
    rw [Function.update_of_ne (Finset.ne_of_mem_erase hu)]
  have h₁ := Finset.add_sum_erase Finset.univ (fun u => (Function.update held t m u).count n) (Finset.mem_univ t)
  have h₂ := Finset.add_sum_erase Finset.univ (fun u => (held u).count n) (Finset.mem_univ t)
  simp only [Function.update_self] at h₁
  unfold total
  omega

omit [DecidableEq T] in
theorem count_le_total (n : α) : (held t).count n ≤ total held n :=
  Finset.single_le_sum (f := fun t => (held t).count n) (fun _ _ => Nat.zero_le _) (Finset.mem_univ t)

theorem count_add_le_total {u : T} (hu : u ≠ t) (n : α) : (held t).count n + (held u).count n ≤ total held n := by
  have h := total_update held t 0 n
  have hle := count_le_total (Function.update held t 0) u n
  rw [Multiset.count_zero] at h
  rw [Function.update_of_ne hu] at hle
  omega

end total

omit [DecidableEq T] in
/-- Who holds a reference sees a count above zero. -/
theorem Balanced.pos_of_held (h : l.Balanced w) (hp : p ∈ l.held t) : 0 < l.count p := by
  have h₁ := count_le_total l.held t p
  have h₂ := Multiset.count_pos.mpr hp
  have h₃ := h.count p
  omega

omit [DecidableEq T] [Fintype T] in
/-- What holds of one cell's old and new home alike holds of all homes as before. -/
theorem home_update (home : α → Home T) (n : α) (x : Home T) (P : Home T → Prop) (h : P x ↔ P (home n)) (m : α) :
    P (Function.update home n x m) ↔ P (home m) := by
  by_cases hm : m = n
  · subst hm
    rwa [Function.update_self]
  · rw [Function.update_of_ne hm]

/-- What the home of a cell says about its count and the owner's references. -/
structure Suits (l : Ledger T α) (w : T) (n : α) : Prop where
  zero : (l.home n).Zero → l.count n = 0
  live : l.home n = .limbo → l.count n ≠ 0
  fresh : l.home n = .fresh → l.count n = 0 ∨ n ∈ l.held w
  leaving : l.home n = .leaving → n ∈ l.held w

omit [DecidableEq T] in
theorem Balanced.suits (h : l.Balanced w) (n : α) : l.Suits w n where
  zero := h.zero n
  live := h.live n
  fresh := h.fresh n
  leaving := h.leaving n

omit [DecidableEq T] [DecidableEq α] [Fintype T] in
/-- A cell that keeps its home and its count, and that the owner does not drop. -/
theorem Suits.frame {l' : Ledger T α} (h : l.Suits w n) (hhome : l'.home n = l.home n) (hcount : l'.count n = l.count n)
    (hheld : n ∈ l.held w → n ∈ l'.held w) : l'.Suits w n where
  zero hn := by
    rw [hhome] at hn
    rw [hcount]
    exact h.zero hn
  live hn := by
    rw [hhome] at hn
    rw [hcount]
    exact h.live hn
  fresh hn := by
    rw [hhome] at hn
    rw [hcount]
    exact (h.fresh hn).imp_right hheld
  leaving hn := by
    rw [hhome] at hn
    exact hheld (h.leaving hn)

omit [DecidableEq T] [DecidableEq α] [Fintype T] in
/-- Nothing is said of a cell in the structure. -/
theorem Suits.linked (hn : l.home n = .linked) : l.Suits w n := by
  constructor <;> intro he <;> rw [hn] at he <;> cases he

omit [DecidableEq T] in
theorem Suits.balanced (h : ∀ n, l.Suits w n)
    (count : ∀ n, l.count n = (l.home n).link + pointers l.next l.limbo n + total l.held n)
    (limbo : ∀ n, n ∈ l.limbo ↔ (l.home n).Points) (nodup : l.limbo.Nodup)
    (order : l.limbo.Pairwise fun x y => l.next y ≠ some x) (self : ∀ n ∈ l.limbo, l.next n ≠ some n) :
    l.Balanced w where
  count := count
  limbo := limbo
  nodup := nodup
  zero n := (h n).zero
  live n := (h n).live
  fresh n := (h n).fresh
  leaving n := (h n).leaving
  order := order
  self := self

omit [DecidableEq α] [Fintype T] in
/-- The owner's references grow only. -/
private theorem mem_update (held : T → Multiset α) {m : Multiset α} (hm : n ∈ held w) (hle : ∀ n ∈ held t, n ∈ m) :
    n ∈ Function.update held t m w := by
  by_cases hw : w = t
  · subst hw
    rw [Function.update_self]
    exact hle n hm
  · rwa [Function.update_of_ne hw]

/-- A reference is acquired where there is one already, or by the owner to a new cell. -/
theorem Balanced.acquire (h : l.Balanced w) (t : T) (hq : l.count q ≠ 0 ∨ l.home q = .fresh ∧ t = w) :
    (l.acquire t q).Balanced w := by
  have hheld {n : α} (hm : n ∈ l.held w) : n ∈ (l.acquire t q).held w :=
    mem_update l.held hm fun _ hn => Multiset.mem_cons_of_mem hn
  have hsuits (n : α) : (l.acquire t q).Suits w n := by
    by_cases hn : n = q
    · subst hn
      refine ⟨fun hz => ?_, fun _ => by simp [Ledger.acquire], fun hf => .inr ?_, fun hl => hheld (h.leaving n hl)⟩
      · have hz' := h.zero n hz
        obtain ⟨hf, _⟩ := hq.resolve_left fun hq => hq hz'
        rw [show (l.acquire t n).home n = l.home n from rfl, hf] at hz
        exact hz.elim
      · rcases h.fresh n hf with hz | hm
        · obtain ⟨_, rfl⟩ := hq.resolve_left fun hq => hq hz
          simp [Ledger.acquire]
        · exact hheld hm
    · exact (h.suits n).frame rfl (Function.update_of_ne hn _ _) hheld
  refine Suits.balanced hsuits (fun n => ?_) h.limbo h.nodup h.order h.self
  have hs := total_update l.held t (q ::ₘ l.held t) n
  have hc := h.count n
  rw [Multiset.count_cons] at hs
  change Function.update l.count q (l.count q + 1) n =
    (l.home n).link + pointers l.next l.limbo n + total (Function.update l.held t (q ::ₘ l.held t)) n
  by_cases hn : n = q
  · subst hn
    rw [Function.update_self]
    rw [if_pos rfl] at hs
    omega
  · rw [Function.update_of_ne hn]
    rw [if_neg hn] at hs
    omega

/-- The last reference is dropped to a cell that waits for it. -/
theorem Balanced.last (h : l.Balanced w) (hp : p ∈ l.held t)
    (hw : t = w → l.home p ≠ .fresh ∧ l.home p ≠ .leaving) (hc : l.count p = 1) : l.home p = .limbo := by
  have hone := h.count p
  have hpos := Multiset.count_pos.mpr hp
  have hle := count_le_total l.held t p
  -- the owner keeps a reference to a cell that is on its way in or out
  have howner (hm : p ∈ l.held w) (hne : t ≠ w) : False := by
    have := count_add_le_total l.held w hne p
    have := Multiset.count_pos.mpr hm
    omega
  have hzero (hz : (l.home p).Zero) : False := by
    have := h.zero p hz
    omega
  cases he : l.home p with
  | limbo => rfl
  | free | dying _ | spent _ =>
    rw [he] at hzero
    exact (hzero trivial).elim
  | linked =>
    rw [he] at hone
    simp only [Home.link] at hone
    omega
  | fresh =>
    have hm := (h.fresh p he).resolve_left (by omega)
    exact (howner hm fun ht => (hw ht).1 he).elim
  | leaving => exact (howner (h.leaving p he) fun ht => (hw ht).2 he).elim

theorem Balanced.release (h : l.Balanced w) (hp : p ∈ l.held t)
    (hw : t = w → l.home p ≠ .fresh ∧ l.home p ≠ .leaving) : (l.release t p).Balanced w := by
  have hpos := h.pos_of_held hp
  have hlast := h.last hp hw
  have hhome (n : α) : (l.release t p).home n = l.home n ∨
      n = p ∧ l.home n = .limbo ∧ l.count n = 1 ∧ (l.release t p).home n = .dying t := by
    by_cases hc : l.count p = 1
    · by_cases hn : n = p
      · subst hn
        exact .inr ⟨rfl, hlast hc, hc, by simp [Ledger.release, hc]⟩
      · exact .inl (by simp [Ledger.release, hc, Function.update_of_ne hn])
    · exact .inl (by simp [Ledger.release, hc])
  have hheld (n : α) (hn : n ∈ l.held w) (hne : t = w → n ≠ p) : n ∈ (l.release t p).held w := by
    by_cases ht : w = t
    · subst ht
      simpa [Ledger.release] using (Multiset.mem_erase_of_ne (hne rfl)).mpr hn
    · simpa [Ledger.release, Function.update_of_ne ht] using hn
  have hsuits (n : α) : (l.release t p).Suits w n := by
    rcases hhome n with he | ⟨rfl, _, hc, he⟩
    · by_cases hn : n = p
      · subst hn
        have hcount : (l.release t n).count n = l.count n - 1 := Function.update_self ..
        refine ⟨fun hz => ?_, fun hl hz => ?_, fun hf => ?_, fun hl => ?_⟩
        · have := h.zero n (he ▸ hz)
          omega
        · have hc : l.count n = 1 := by omega
          simp [Ledger.release, hc] at hl
        · have hf := he ▸ hf
          have hm := (h.fresh n hf).resolve_left (by omega)
          exact .inr (hheld n hm fun ht => ((hw ht).1 hf).elim)
        · have hl := he ▸ hl
          exact hheld n (h.leaving n hl) fun ht => ((hw ht).2 hl).elim
      · exact (h.suits n).frame he (Function.update_of_ne hn _ _) fun hm => hheld n hm fun _ => hn
    · have hz : (l.release t n).count n = 0 := by simp [Ledger.release, hc]
      refine ⟨fun _ => hz, fun hm => ?_, fun _ => .inl hz, fun hm => ?_⟩ <;> rw [he] at hm <;> cases hm
  refine Suits.balanced hsuits (fun n => ?_) (fun n => ?_) h.nodup h.order h.self
  · have hs := total_update l.held t ((l.held t).erase p) n
    have hc := h.count n
    have hlink : ((l.release t p).home n).link = (l.home n).link := by
      rcases hhome n with he | ⟨_, he, _, he'⟩
      · rw [he]
      · rw [he, he']; rfl
    rw [hlink]
    change Function.update l.count p (l.count p - 1) n =
      (l.home n).link + pointers l.next l.limbo n + total (Function.update l.held t ((l.held t).erase p)) n
    by_cases hn : n = p
    · subst hn
      rw [Multiset.count_erase_self] at hs
      rw [Function.update_self]
      have := Multiset.count_pos.mpr hp
      omega
    · rw [Multiset.count_erase_of_ne hn] at hs
      rw [Function.update_of_ne hn]
      omega
  · rw [show (l.release t p).limbo = l.limbo from rfl, h.limbo n]
    rcases hhome n with he | ⟨_, he, _, he'⟩
    · rw [he]
    · rw [he, he']; exact Iff.rfl

theorem Balanced.descend (h : l.Balanced w) (hp : l.home p = .dying t) : (l.descend t p).Balanced w := by
  have hmem : p ∈ l.limbo := (h.limbo p).mpr (by rw [hp]; trivial)
  have hhome (n : α) (hn : n ≠ p) : (l.descend t p).home n = l.home n := Function.update_of_ne hn _ _
  have hself : (l.descend t p).home p = .spent t := Function.update_self ..
  have hheld (n : α) (hn : n ∈ l.held w) : n ∈ (l.descend t p).held w :=
    mem_update l.held hn fun n hn => Multiset.mem_add.mpr (.inr hn)
  have hsuits (n : α) : (l.descend t p).Suits w n := by
    by_cases hn : n = p
    · subst hn
      have hz : l.count n = 0 := h.zero n (by rw [hp]; trivial)
      constructor <;> intro he <;> first | exact hz | (rw [hself] at he; cases he)
    · exact (h.suits n).frame (hhome n hn) rfl (hheld n)
  refine Suits.balanced hsuits (fun n => ?_) (fun n => ?_) (h.nodup.erase p)
    (h.order.sublist (List.erase_sublist)) fun n hn => h.self n (List.mem_of_mem_erase hn)
  · have hs := total_update l.held t ((l.next p).toList + l.held t) n
    have hc := h.count n
    have hlink : ((l.descend t p).home n).link = (l.home n).link := by
      by_cases hn : n = p
      · rw [hn, hself, hp]; rfl
      · rw [hhome n hn]
    have hpoint : pointers l.next l.limbo n = pointers l.next (l.limbo.erase p) n + if l.next p = some n then 1 else 0 := by
      unfold pointers
      rw [(List.perm_cons_erase hmem).countP_eq, List.countP_cons]
      simp
    have hpass : Multiset.count n ((l.next p).toList + l.held t : Multiset α) =
        (if l.next p = some n then 1 else 0) + (l.held t).count n := by
      rw [Multiset.count_add, Multiset.coe_count]
      cases hx : l.next p with
      | none => simp
      | some x => simp [List.count_singleton]
    rw [hlink]
    change l.count n = (l.home n).link + pointers l.next (l.limbo.erase p) n +
      total (Function.update l.held t ((l.next p).toList + l.held t)) n
    omega
  · change n ∈ l.limbo.erase p ↔ _
    rw [h.nodup.mem_erase_iff, h.limbo n]
    by_cases hn : n = p
    · subst hn; simp [hself, Home.Points]
    · rw [hhome n hn]; simp [hn]

omit [DecidableEq T] in
/-- A cell that nobody has a reference to is given back, or handed out. -/
theorem Balanced.rehome {x : Home T} (h : l.Balanced w) (hn : l.home n = .free ∨ ∃ t, l.home n = .spent t)
    (hx : x = .free ∨ x = .fresh) : (l.rehome n x).Balanced w := by
  have hzero : l.count n = 0 := by
    apply h.zero n
    rcases hn with hn | ⟨t, hn⟩ <;> rw [hn] <;> trivial
  have hout : (l.home n).link = 0 ∧ ¬ (l.home n).Points := by
    rcases hn with hn | ⟨t, hn⟩ <;> rw [hn] <;> exact ⟨rfl, not_false⟩
  have hself : (l.rehome n x).home n = x := Function.update_self ..
  have hhome (m : α) (hm : m ≠ n) : (l.rehome n x).home m = l.home m := Function.update_of_ne hm _ _
  have hsuits (m : α) : (l.rehome n x).Suits w m := by
    by_cases he : m = n
    · subst he
      refine ⟨fun _ => hzero, fun hm => ?_, fun _ => .inl hzero, fun hm => ?_⟩ <;> rw [hself] at hm <;>
        rcases hx with rfl | rfl <;> cases hm
    · exact (h.suits m).frame (hhome m he) rfl id
  refine Suits.balanced hsuits (fun m => ?_) (fun m => ?_) h.nodup h.order h.self
  · have hc := h.count m
    have hlink : ((l.rehome n x).home m).link = (l.home m).link := by
      by_cases he : m = n
      · rw [he, hself, hout.1]
        rcases hx with rfl | rfl <;> rfl
      · rw [hhome m he]
    rw [hlink]
    exact hc
  · change m ∈ l.limbo ↔ _
    rw [h.limbo m]
    refine (home_update l.home n x Home.Points ⟨fun hp => ?_, fun hp => (hout.2 hp).elim⟩ m).symm
    rcases hx with rfl | rfl <;> exact hp.elim

omit [DecidableEq T] in
/-- The links of cells that do not count are written. -/
theorem Balanced.rewrite (h : l.Balanced w) (hx : ∀ x ∈ l.limbo, next x = l.next x) :
    Balanced { l with next } w := by
  refine ⟨fun n => ?_, h.limbo, h.nodup, h.zero, h.live, h.fresh, h.leaving, ?_, fun n hn => ?_⟩
  · have hp : pointers next l.limbo n = pointers l.next l.limbo n := by
      unfold pointers
      exact List.countP_congr fun x hm => by simp [hx x hm]
    change l.count n = (l.home n).link + pointers next l.limbo n + total l.held n
    rw [hp]
    exact h.count n
  · apply h.order.imp_of_mem
    intro x y _ hy hxy
    change next y ≠ some x
    rwa [hx y hy]
  · change next n ≠ some n
    rw [hx n hn]
    exact h.self n hn

/-- The owner gives a reference to the structure, with the cell. -/
theorem Balanced.link (h : l.Balanced w) (hn : l.home n = .fresh) (hm : n ∈ l.held w)
    (hx : ∀ x ∈ l.limbo, next x = l.next x) : (l.link w n next).Balanced w := by
  replace h := h.rewrite hx
  have hself : (l.link w n next).home n = .linked := Function.update_self ..
  have hhome (m : α) (he : m ≠ n) : (l.link w n next).home m = l.home m := Function.update_of_ne he _ _
  have hheld (m : α) (he : m ≠ n) (hh : m ∈ l.held w) : m ∈ (l.link w n next).held w := by
    simpa [Ledger.link] using (Multiset.mem_erase_of_ne he).mpr hh
  have hsuits (m : α) : (l.link w n next).Suits w m := by
    by_cases he : m = n
    · exact .linked (he ▸ hself)
    · exact (h.suits m).frame (hhome m he) rfl (hheld m he)
  refine Suits.balanced hsuits (fun m => ?_) (fun m => ?_) h.nodup h.order h.self
  · have hs := total_update l.held w ((l.held w).erase n) m
    have hc : l.count m = (l.home m).link + pointers next l.limbo m + total l.held m := h.count m
    change l.count m = ((l.link w n next).home m).link + pointers next l.limbo m +
      total (Function.update l.held w ((l.held w).erase n)) m
    by_cases he : m = n
    · subst he
      rw [hself]
      rw [hn] at hc
      rw [Multiset.count_erase_self] at hs
      have := Multiset.count_pos.mpr hm
      simp only [Home.link] at hc ⊢
      omega
    · rw [hhome m he]
      rw [Multiset.count_erase_of_ne he] at hs
      omega
  · have hpoints := home_update l.home n .linked Home.Points (by rw [hn]; exact Iff.rfl) m
    exact (h.limbo m).trans hpoints.symm

theorem Balanced.unlink (h : l.Balanced w) (hn : l.home n = .linked)
    (hx : ∀ x ∈ l.limbo, next x = l.next x) : (l.unlink w n next).Balanced w := by
  replace h := h.rewrite hx
  have hself : (l.unlink w n next).home n = .leaving := Function.update_self ..
  have hhome (m : α) (he : m ≠ n) : (l.unlink w n next).home m = l.home m := Function.update_of_ne he _ _
  have hheld (m : α) (hh : m ∈ l.held w) : m ∈ (l.unlink w n next).held w :=
    mem_update l.held hh fun _ hm => Multiset.mem_cons_of_mem hm
  have hsuits (m : α) : (l.unlink w n next).Suits w m := by
    by_cases he : m = n
    · subst he
      refine ⟨fun hm => ?_, fun hm => ?_, fun hm => ?_, fun _ => by simp [Ledger.unlink]⟩ <;> rw [hself] at hm <;>
        cases hm
    · exact (h.suits m).frame (hhome m he) rfl (hheld m)
  refine Suits.balanced hsuits (fun m => ?_) (fun m => ?_) h.nodup h.order h.self
  · have hs := total_update l.held w (n ::ₘ l.held w) m
    have hc : l.count m = (l.home m).link + pointers next l.limbo m + total l.held m := h.count m
    change l.count m = ((l.unlink w n next).home m).link + pointers next l.limbo m +
      total (Function.update l.held w (n ::ₘ l.held w)) m
    rw [Multiset.count_cons] at hs
    by_cases he : m = n
    · subst he
      rw [hself]
      rw [hn] at hc
      rw [if_pos rfl] at hs
      simp only [Home.link] at hc ⊢
      omega
    · rw [hhome m he]
      rw [if_neg he] at hs
      omega
  · have hpoints := home_update l.home n .leaving Home.Points (by rw [hn]; exact Iff.rfl) m
    exact (h.limbo m).trans hpoints.symm

omit [DecidableEq T] in
/-- Once the successor is counted, which is still in the structure, the cell is as any other in limbo. -/
theorem Balanced.settle (h : l.Balanced w) (hn : l.home n = .leaving)
    (hnext : ∀ s, l.next n = some s → l.home s = .linked) : (l.settle n).Balanced w := by
  have hself : (l.settle n).home n = .limbo := Function.update_self ..
  have hhome (m : α) (he : m ≠ n) : (l.settle n).home m = l.home m := Function.update_of_ne he _ _
  have hlinked (m : α) (hm : l.next n = some m) : m ≠ n ∧ m ∉ l.limbo := by
    have he := hnext m hm
    refine ⟨?_, fun hl => ?_⟩
    · rintro rfl; rw [hn] at he; cases he
    · have := (h.limbo m).mp hl
      rw [he] at this
      exact this
  have hout : n ∉ l.limbo := by rw [h.limbo, hn]; exact not_false
  have hcount (m : α) : (l.settle n).count m = l.count m + if l.next n = some m then 1 else 0 := rfl
  have hsuits (m : α) : (l.settle n).Suits w m := by
    by_cases he : m = n
    · have hpos := h.pos_of_held (h.leaving n hn)
      subst he
      refine ⟨fun hm => ?_, fun _ => ?_, fun hm => ?_, fun hm => ?_⟩
      · rw [hself] at hm; cases hm
      · rw [hcount]; omega
      · rw [hself] at hm; cases hm
      · rw [hself] at hm; cases hm
    · by_cases hm : l.next n = some m
      · exact .linked ((hhome m he).trans (hnext m hm))
      · exact (h.suits m).frame (hhome m he) (by rw [hcount, if_neg hm, add_zero]) id
  refine Suits.balanced hsuits (fun m => ?_) (fun m => ?_) ?_ ?_ fun m hm => ?_
  · have hc := h.count m
    have hpoint : pointers l.next (l.limbo ++ [n]) m = pointers l.next l.limbo m + if l.next n = some m then 1 else 0 := by
      simp [pointers, List.countP_append, List.countP_singleton]
    have hlink : ((l.settle n).home m).link = (l.home m).link := by
      by_cases he : m = n
      · rw [he, hself, hn]; rfl
      · rw [hhome m he]
    rw [hlink, hcount]
    change _ = (l.home m).link + pointers l.next (l.limbo ++ [n]) m + total l.held m
    omega
  · change m ∈ l.limbo ++ [n] ↔ _
    rw [List.mem_append, h.limbo m, List.mem_singleton]
    by_cases he : m = n
    · rw [he, hself]; simp [Home.Points]
    · rw [hhome m he]; simp [he]
  · change (l.limbo ++ [n]).Nodup
    rw [List.nodup_append]
    exact ⟨h.nodup, by simp, fun x hx y hy hxy => hout (by rw [List.mem_singleton.mp hy] at hxy; exact hxy ▸ hx)⟩
  · change (l.limbo ++ [n]).Pairwise _
    rw [List.pairwise_append]
    refine ⟨h.order, by simp, fun x hx y hy hxy => ?_⟩
    rw [List.mem_singleton.mp hy] at hxy
    exact (hlinked x hxy).2 hx
  · intro hs
    rcases List.mem_append.mp hm with hm | hm
    · exact h.self m hm hs
    · rw [List.mem_singleton.mp hm] at hs
      exact (hlinked n hs).1 rfl

omit [DecidableEq T] in
/-- Where no thread holds a reference or is dropping a cell, no cell waits, and only the structure
counts. -/
theorem Balanced.quiet (h : l.Balanced w) (hheld : ∀ t, l.held t = 0) (hdying : ∀ n t, l.home n ≠ .dying t)
    (n : α) : (l.home n).link = l.count n ∧ ¬ (l.home n).Points ∧ l.home n ≠ .leaving := by
  have htotal (m : α) : total l.held m = 0 := by simp [total, hheld]
  -- the first cell in limbo has nobody to point to it
  have hempty : l.limbo = [] := by
    cases hl : l.limbo with
    | nil => rfl
    | cons x xs =>
      have hx : x ∈ l.limbo := by simp [hl]
      have hhome : l.home x = .limbo := by
        have hp := (h.limbo x).mp hx
        cases he : l.home x with
        | limbo => rfl
        | dying t => exact (hdying x t he).elim
        | free | linked | fresh | leaving | spent _ => rw [he] at hp; exact hp.elim
      have hnone : pointers l.next l.limbo x = 0 := by
        apply List.countP_eq_zero.mpr
        intro y hy
        have ho := h.order
        rw [hl, List.pairwise_cons] at ho
        rw [decide_eq_true_eq]
        rw [hl] at hy
        rcases List.mem_cons.mp hy with rfl | hy
        · exact h.self y hx
        · exact ho.1 y hy
      have hc := h.count x
      rw [hhome, hnone, htotal] at hc
      exact (h.live x hhome hc).elim
  have hc := h.count n
  rw [htotal, hempty] at hc
  refine ⟨?_, fun hp => ?_, fun hl => ?_⟩
  · simpa [pointers] using hc.symm
  · have := (h.limbo n).mpr hp
    simp [hempty] at this
  · have := h.leaving n hl
    simp [hheld] at this

end Ledger
end Gecos.Library
