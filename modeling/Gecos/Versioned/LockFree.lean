import Gecos.Library.LockFree
import Gecos.Versioned.Linearizable
import Gecos.Versioned.SgecosLinearizable

/-! Lock freedom of the readers of list_gecos.c and list_sgecos.c: a search starts over only
because an updater has stored, and once no updater moves every search returns. -/
namespace Gecos
open Library

/-- The updater is about to store to a field of a node, the head of a bucket or the counter. -/
def Writer.Stores {β : Type} : Writer β Bump → Prop
  | .unlink .. | .storeKey .. | .storeNext .. | .link .. | .freeNodeLater _ _ (.store _) => True
  | _ => False

/-- Any other step leaves what the readers compare alone. -/
theorem Writer.step_quiet {β : Type} [DecidableEq β] {m m' : Mem β} {w w' : Writer β Bump}
    (hs : w.step .load m = some (m', w')) (hw : ¬ w.Stores) : m' = m := by
  unfold Writer.step at hs
  split at hs
  all_goals first | contradiction | (cases hs; first | rfl | exact (hw trivial).elim)

theorem Writer.alloc_quiet {β : Type} {m m' : Mem β} {w w' : Writer β Bump} {n : Addr}
    (hs : w.alloc m n = some (m', w')) :
    m'.heads = m.heads ∧ m'.next = m.next ∧ m'.gc = m.gc ∧ m'.locks = m.locks := by
  unfold Writer.alloc at hs
  split at hs
  · split at hs <;> cases hs
    exact ⟨rfl, rfl, rfl, rfl⟩
  · contradiction

/-- From a node at its place in a bucket, at most the whole bucket and the node lie ahead. -/
theorem Mem.Around.ahead {β : Type} {m : Mem β} {b : β} {n : Addr} (h : m.Around b n) (ht : m.Table) :
    ∃ l, Chain m.next (m.next n) l ∧ l.length ≤ (m.chain b).length := by
  obtain ⟨l₁, l₂, hc, hn, _, _⟩ := h
  obtain ⟨l₀, hl₀⟩ : ∃ l₀, m.chain b = l₀ ++ l₂ := by
    rcases hc with hc | hc
    · exact ⟨l₁ ++ [n], by simp [hc]⟩
    · exact ⟨l₁, hc⟩
  obtain ⟨q, hq⟩ := Seg.suffix (hl₀ ▸ ht.ends b)
  refine ⟨l₂, ?_, by simp [hl₀]⟩
  rw [hn, ← Seg.head hq]
  exact hq

namespace ListGecos
variable {β υ ρ : Type} {m : Mem β} {k : Int} {b : β} {l : Locals} {x x' : Searcher β}

/-- The search is back at `retry`. -/
def Searcher.AtRetry : Searcher β → Prop
  | .run .head .. => True
  | _ => False

/-- The search is at the start of the body of its `while` loop. -/
def Searcher.AtBody : Searcher β → Prop
  | .run .curKey .. => True
  | _ => False

def Searcher.Returned : Searcher β → Prop
  | .returned _ => True
  | _ => False

/-- What this attempt has read is still what the memory holds. -/
def Searcher.Fresh (m : Mem β) : Searcher β → Prop
  | .idle | .returned _ => True
  | .run pc _ b l => match pc with
    | .head => True
    | .curGc => m.heads b = some l.cur
    | .headAgain => m.heads b = some l.cur ∧ l.curGc = m.gc l.cur
    | .curKey | .next => l.curGc = m.gc l.cur
    | .nextGc => l.curGc = m.gc l.cur ∧ l.next = m.next l.cur
    | .nextAgain | .curGcAgain => l.curGc = m.gc l.cur ∧ l.next = m.next l.cur ∧ ∀ q ∈ l.next, l.nextGc = m.gc q
    | .prevGcAgain => False

private theorem fresh_loop {p : Ptr} (h : ∀ q ∈ p, l.curGc = m.gc q) : (Searcher.loop k b l p).Fresh m := by
  cases p with
  | none => trivial
  | some q => exact h q rfl

private theorem loop_not_atRetry {p : Ptr} : ¬ (Searcher.loop k b l p).AtRetry := by
  cases p <;> exact id

/-- A search that has read only current values stays so and does not retry. -/
theorem Searcher.Fresh.read (h : x.Fresh m) (hs : x.step .plain m = some x') : x'.Fresh m ∧ ¬ x'.AtRetry := by
  cases x with
  | idle | returned => simp [Searcher.step] at hs
  | run pc k b l =>
    cases pc with
    | head =>
      simp only [Searcher.step] at hs
      split at hs <;> cases hs
      · exact ⟨trivial, id⟩
      · exact ⟨by assumption, id⟩
    | curGc => cases hs; exact ⟨⟨h, rfl⟩, id⟩
    | headAgain =>
      obtain ⟨hh, hg⟩ := h
      simp only [Searcher.step] at hs
      split at hs
      · rename_i hne; exact (hne hh.symm).elim
      · cases hs
        exact ⟨fresh_loop (by simpa using hg), loop_not_atRetry⟩
    | curKey => cases hs; exact ⟨h, id⟩
    | next =>
      simp only [Searcher.step] at hs
      split at hs <;> cases hs
      · rename_i hn; exact ⟨⟨h, hn.symm, by simp⟩, id⟩
      · rename_i hn; exact ⟨⟨h, hn.symm⟩, id⟩
    | nextGc =>
      simp only [Searcher.step] at hs
      split at hs <;> cases hs
      rename_i hn
      exact ⟨⟨h.1, h.2, by simp [hn]⟩, id⟩
    | nextAgain =>
      simp only [Searcher.step] at hs
      split at hs
      · rename_i hne; exact (hne h.2.1).elim
      · cases hs; exact ⟨h, id⟩
    | curGcAgain =>
      simp only [Searcher.step] at hs
      split at hs
      · rename_i hne; exact (hne h.1).elim
      · split at hs <;> cases hs
        · exact ⟨trivial, id⟩
        · exact ⟨fresh_loop h.2.2, loop_not_atRetry⟩
    | prevGcAgain => exact h.elim

theorem Searcher.Fresh.congr {m' : Mem β} (h : x.Fresh m) (hh : m'.heads = m.heads) (hn : m'.next = m.next)
    (hg : m'.gc = m.gc) : x.Fresh m' := by
  cases x with
  | idle | returned => trivial
  | run pc k b l =>
    cases pc with
    | head => trivial
    | prevGcAgain => exact h.elim
    | _ => simpa only [Fresh, hh, hn, hg] using h

theorem Searcher.AtRetry.fresh (h : x.AtRetry) : x.Fresh m := by
  cases x with
  | idle | returned => trivial
  | run pc k b l =>
    cases pc with
    | head => trivial
    | _ => exact h.elim

/-- The search, left alone with the memory as it is, returns after at most `n` iterations. -/
abbrev Ends (m : Mem β) (n : Nat) (x : Searcher β) : Prop :=
  HaltsIn (Searcher.step .plain m) Searcher.AtBody Searcher.Returned n x

variable {n : Nat} {p : Ptr} {c : List Addr}

private theorem ends_curGcAgain (hh : l.curGc ≠ m.gc l.cur → Ends m n (.run .head k b l))
    (hl : l.curGc = m.gc l.cur → l.curKey < k → ∀ l', l'.curGc = l.nextGc → Ends m n (Searcher.loop k b l' l.next)) :
    Ends m n (.run .curGcAgain k b l) := by
  by_cases hg : l.curGc = m.gc l.cur
  · by_cases hk : k ≤ l.curKey
    · refine HaltsIn.step (y := .returned (if l.curKey = k then 1 else 0)) ?_ id (.of_done trivial)
      simp [Searcher.step, hg, hk]
    · have hl := hl hg (by omega) { l with prev := some l.cur, prevGc := l.curGc, curGc := l.nextGc, prevSet := true } rfl
      exact HaltsIn.step (by simp [Searcher.step, hg, hk]) id hl
  · exact HaltsIn.step (by simp [Searcher.step, hg]) id (hh hg)

private theorem ends_nextAgain (hh : l.next ≠ m.next l.cur ∨ l.curGc ≠ m.gc l.cur → Ends m n (.run .head k b l))
    (hl : l.next = m.next l.cur → l.curGc = m.gc l.cur → l.curKey < k → ∀ l', l'.curGc = l.nextGc →
      Ends m n (Searcher.loop k b l' l.next)) : Ends m n (.run .nextAgain k b l) := by
  by_cases hn : l.next = m.next l.cur
  · refine HaltsIn.step (y := .run .curGcAgain k b l) (by simp [Searcher.step, hn]) id ?_
    exact ends_curGcAgain (fun hg => hh (.inr hg)) (hl hn)
  · exact HaltsIn.step (by simp [Searcher.step, hn]) id (hh (.inl hn))

/-- From the load of `cur->next` on, what the attempt reads is what the memory holds. -/
private theorem ends_next (hh : l.curGc ≠ m.gc l.cur → ∀ l', Ends m n (.run .head k b l'))
    (hl : l.curGc = m.gc l.cur → ∀ l', (∀ q ∈ m.next l.cur, l'.curGc = m.gc q) →
      Ends m n (Searcher.loop k b l' (m.next l.cur))) : Ends m n (.run .next k b l) := by
  cases hn : m.next l.cur with
  | none =>
    refine HaltsIn.step (y := .run .nextAgain k b { l with next := none }) (by simp [Searcher.step, hn])
      id (ends_nextAgain (fun h => hh (h.resolve_left (by simp [hn])) _) fun _ hg _ l' _ => ?_)
    simpa [hn] using hl hg l' (by simp [hn])
  | some q =>
    refine HaltsIn.step (y := .run .nextGc k b { l with next := some q }) (by simp [Searcher.step, hn])
      id (HaltsIn.step rfl id ?_)
    refine ends_nextAgain (fun h => hh (h.resolve_left (by simp [hn])) _) fun _ hg _ l' hl' => ?_
    simpa [hn] using hl hg l' (by simpa [hn] using hl')

/-- A walk with current counters goes through the chain ahead, one iteration a node. -/
private theorem ends_walk (hc : Chain m.next p c) (hg : ∀ q ∈ p, l.curGc = m.gc q) :
    Ends m c.length (Searcher.loop k b l p) := by
  induction c generalizing p l with
  | nil =>
    cases hc
    exact .of_done trivial
  | cons a c ih =>
    obtain ⟨rfl, hc⟩ := hc
    have hga : l.curGc = m.gc a := hg a rfl
    refine HaltsIn.enter rfl trivial ?_
    exact ends_next (fun hne => (hne hga).elim) fun _ l' hl' => ih hc hl'

/-- An attempt that starts with the memory as it is needs one iteration a node of the bucket. -/
private theorem ends_head (ht : m.Table) : Ends m (m.chain b).length (.run .head k b l) := by
  have hc := ht.ends b
  cases hh : m.heads b with
  | none => exact HaltsIn.step (y := .returned 0) (by simp [Searcher.step, hh]) id (.of_done trivial)
  | some q =>
    refine HaltsIn.step (y := .run .curGc k b { l with cur := q }) (by simp [Searcher.step, hh])
      id (HaltsIn.step rfl id ?_)
    have hwalk := ends_walk (k := k) (b := b) (l := { l with cur := q, curGc := m.gc q }) (hh ▸ hc) (by simp)
    exact HaltsIn.step (by simp [Searcher.step, hh]) id hwalk

/-- Arriving at a node with a counter that may be out of date costs one iteration more. -/
private theorem ends_arrive (ht : m.Table)
    (hp : ∀ q ∈ p, l.curGc = m.gc q → ∃ c, Chain m.next (m.next q) c ∧ c.length ≤ (m.chain b).length) :
    Ends m ((m.chain b).length + 1) (Searcher.loop k b l p) := by
  cases p with
  | none => exact .of_done trivial
  | some q =>
    refine HaltsIn.enter rfl trivial (ends_next (fun _ l' => ends_head ht) fun hg l' hl' => ?_)
    obtain ⟨c, hc, hlen⟩ := hp q rfl hg
    exact (ends_walk hc hl').mono hlen

/-- The counter of a next node is only read where there is one, and the default search never
steps back. -/
def Searcher.Regular : Searcher β → Prop
  | .run .nextGc _ _ l => l.next ≠ none
  | .run .prevGcAgain _ _ _ => False
  | _ => True

private theorem regular_loop : (Searcher.loop k b l p).Regular := by
  cases p <;> trivial

theorem Searcher.Regular.read (hs : x.step .plain m = some x') : x'.Regular := by
  cases x with
  | idle | returned => simp [Searcher.step] at hs
  | run pc k b l =>
    cases pc with
    | curGc | curKey => cases hs; trivial
    | head | nextGc | nextAgain =>
      simp only [Searcher.step] at hs
      split at hs <;> cases hs <;> trivial
    | next =>
      simp only [Searcher.step] at hs
      split at hs <;> cases hs
      · trivial
      · simp [Regular]
    | headAgain =>
      simp only [Searcher.step] at hs
      split at hs <;> cases hs
      · trivial
      · exact regular_loop
    | curGcAgain =>
      simp only [Searcher.step] at hs
      split at hs
      · cases hs; trivial
      · split at hs <;> cases hs
        · trivial
        · exact regular_loop
    | prevGcAgain =>
      simp only [Searcher.step] at hs
      split at hs
      · contradiction
      · split at hs <;> cases hs
        · exact regular_loop
        · trivial

/-- A reader that knows where it stands returns, even from a node that is free or in another bucket. -/
theorem Knows.ends {υ : Type} {s : Shared β υ} {hist : List (Shared β υ)} (h : Knows hist s k b x)
    (hr : x.Regular) (hw : Writers s.mem s.upd) : Ends s.mem ((s.mem.chain b).length + 1) x := by
  have ht := hw.table
  have hhead (l : Locals) : Ends s.mem ((s.mem.chain b).length + 1) (.run .head k b l) :=
    (ends_head ht).mono (Nat.le_succ _)
  have hahead {n : Addr} {g : Nat} (hh : (view β υ).Held hist s b k n g) (hg : g = s.mem.gc n) :
      ∃ c, Chain s.mem.next (s.mem.next n) c ∧ c.length ≤ (s.mem.chain b).length :=
    (Shared.Live.around (hh.2 hg.symm).1 hw).ahead ht
  cases x with
  | idle => exact h.elim
  | returned res => exact .of_done trivial
  | run pc k' b' l =>
    obtain ⟨rfl, rfl, -, h⟩ := h
    cases pc with
    | head => exact hhead l
    | curGc =>
      refine HaltsIn.step rfl id ?_
      by_cases hc : some l.cur = s.mem.heads b'
      · have hwalk := ends_walk (k := k') (b := b') (l := { l with curGc := s.mem.gc l.cur })
          (hc ▸ ht.ends b') (by simp)
        exact HaltsIn.step (by simp [Searcher.step, hc]) id (hwalk.mono (Nat.le_succ _))
      · exact HaltsIn.step (by simp [Searcher.step, hc]) id (hhead { l with curGc := s.mem.gc l.cur })
    | headAgain =>
      by_cases hc : some l.cur = s.mem.heads b'
      · have harrive := ends_arrive (k := k') (b := b') (l := l) (p := some l.cur) ht fun q hq _ => ?_
        · exact HaltsIn.step (by simp [Searcher.step, hc]) id harrive
        · cases hq
          exact (ht.around (ht.head_some (k := k') hc.symm).1).ahead ht
      · exact HaltsIn.step (by simp [Searcher.step, hc]) id (hhead l)
    | curKey =>
      refine ends_arrive (l := l) (p := some l.cur) ht fun q hq hg => ?_
      cases hq
      exact hahead h hg
    | next =>
      refine ends_next (fun _ => hhead) fun hg l' hl' => ?_
      obtain ⟨c, hc, hlen⟩ := hahead h.1 hg
      exact (ends_walk hc hl').mono (by omega)
    | nextGc =>
      obtain ⟨q, hq⟩ := Option.ne_none_iff_exists'.mp hr
      refine HaltsIn.step (y := .run .nextAgain k' b' { l with nextGc := s.mem.gc q })
        (by simp [Searcher.step, hq]) id ?_
      refine ends_nextAgain (fun _ => hhead _) fun hn hg _ l' hl' => ?_
      obtain ⟨c, hc, hlen⟩ := hahead h.1 hg
      refine (ends_walk (hn ▸ hc) fun x hx => ?_).mono (by omega)
      have hxq : x = q := Option.some.inj (hx.symm.trans hq)
      rw [hl', hxq]
    | nextAgain =>
      refine ends_nextAgain (fun _ => hhead l) fun hn hg _ l' _ => ?_
      obtain ⟨c, hc, hlen⟩ := hahead h.1.1 hg
      refine ends_arrive ht fun q hq _ => ?_
      cases c with
      | nil => cases (hn ▸ hq).symm.trans hc
      | cons a c =>
        cases (hn ▸ hq).symm.trans hc.1
        exact ⟨c, hc.2, by simp at hlen; omega⟩
    | curGcAgain =>
      refine ends_curGcAgain (fun _ => hhead l) fun hg hk l' hl' => ends_arrive ht fun q hq hgq => ?_
      have hheld := h.2 hg.symm hk
      rw [hq] at hheld
      exact hahead hheld (hl'.symm.trans hgq)
    | prevGcAgain => exact hr.elim

/-- Reader `r` goes back to `retry`. -/
def Retries (r : ρ) (_ : State β υ ρ) (a : Act β υ ρ) (t : State β υ ρ) : Prop :=
  a = .read r ∧ (t.rd r).AtRetry

/-- Reader `r` begins an iteration of its `while` loop. -/
def Iterates (r : ρ) (s : State β υ ρ) (a : Act β υ ρ) (_ : State β υ ρ) : Prop :=
  a = .read r ∧ (s.rd r).AtBody

/-- An updater stores. -/
def Stores (s : State β υ ρ) (a : Act β υ ρ) (_ : State β υ ρ) : Prop :=
  ∃ u, a = .update u ∧ (s.shared.upd u).Stores

/-- A step of a reader, `r` itself starting no other call. -/
def Act.Reading (r : ρ) : Act β υ ρ → Prop
  | .read _ => True
  | .call r' _ _ _ => r' ≠ r
  | _ => False

section system
variable [DecidableEq β] [DecidableEq υ] [DecidableEq ρ] {cfg : Locking υ} {s t : State β υ ρ} {r : ρ}
  {a : Act β υ ρ}

omit [DecidableEq υ] [DecidableEq ρ] in
private theorem update_quiet {m m' : Mem β} {w w' : Writer β Bump} (hs : update cfg m w = some (m', w'))
    (hw : ¬ w.Stores) : m'.heads = m.heads ∧ m'.next = m.next ∧ m'.gc = m.gc := by
  unfold update at hs
  split at hs
  case h_1 =>
    split at hs
    · cases hs; exact ⟨rfl, rfl, rfl⟩
    · split at hs <;> cases hs
      exact ⟨rfl, rfl, rfl⟩
  case h_2 => split at hs <;> cases hs <;> exact ⟨rfl, rfl, rfl⟩
  case h_3 => cases hs; exact ⟨rfl, rfl, rfl⟩
  case h_4 => exact (hw trivial).elim
  case h_5 => cases hs; exact ⟨rfl, rfl, rfl⟩
  case h_6 => rw [Writer.step_quiet hs hw]; exact ⟨rfl, rfl, rfl⟩

/-- Only a store of an updater can take away what an attempt has read. -/
private theorem fresh_step (hs : step cfg .plain s a = some t) (hno : ∀ k b l, a ≠ .call r k b l)
    (h : (s.rd r).Fresh s.shared.mem) : ¬ Retries r s a t ∧ ((t.rd r).Fresh t.shared.mem ∨ Stores s a t) := by
  cases a with
  | begin u op k b =>
    obtain ⟨w, _, rfl⟩ := Option.map_eq_some_iff.mp hs
    exact ⟨fun hr => (by cases hr.1), .inl h⟩
  | update u =>
    obtain ⟨mw, hm, rfl⟩ := Option.map_eq_some_iff.mp hs
    refine ⟨fun hr => (by cases hr.1), ?_⟩
    by_cases hw : (s.shared.upd u).Stores
    · exact .inr ⟨u, rfl, hw⟩
    · obtain ⟨hh, hn, hg⟩ := update_quiet hm hw
      exact .inl (h.congr hh hn hg)
  | alloc u n =>
    obtain ⟨mw, hm, rfl⟩ := Option.map_eq_some_iff.mp hs
    obtain ⟨hh, hn, hg, _⟩ := Writer.alloc_quiet hm
    exact ⟨fun hr => (by cases hr.1), .inl (h.congr hh hn hg)⟩
  | call r' k b l =>
    have hne : r ≠ r' := fun he => hno k b l (by rw [he])
    simp only [ListGecos.step] at hs
    split at hs <;> cases hs <;>
      exact ⟨fun hr => (by cases hr.1), .inl (by simpa [Function.update_of_ne hne] using h)⟩
  | read r' =>
    obtain ⟨x, hx, rfl⟩ := Option.map_eq_some_iff.mp hs
    by_cases he : r' = r
    · subst he
      obtain ⟨hf, hn⟩ := h.read hx
      exact ⟨fun hr => hn (by simpa using hr.2), .inl (by simpa using hf)⟩
    · refine ⟨fun hr => he (Act.read.inj hr.1), .inl ?_⟩
      simpa [Function.update_of_ne (Ne.symm he)] using h

/-- From the call on, each retry of a search is charged to a store. -/
theorem charged {tr : List (Act β υ ρ × State β υ ρ)} (hcall : ∃ s₀ k b l, step cfg .plain s₀ (.call r k b l) = some s)
    (hrun : Run (Steps (step cfg .plain)) s tr t) (hno : ∀ e ∈ tr, ∀ k b l, e.1 ≠ .call r k b l) :
    Charged (Retries r) Stores s tr := by
  refine (hrun.guarded hno).charged (fun s => (s.rd r).Fresh s.shared.mem) ?_
    (fun _ _ _ hs h => fresh_step hs.1 hs.2 h) fun t a u _ hr => ⟨hr.2.fresh, ?_⟩
  · obtain ⟨s₀, k, b, l, hcall⟩ := hcall
    simp only [ListGecos.step] at hcall
    split at hcall <;> cases hcall <;> simp [Searcher.Fresh]
  · rintro ⟨v, hv, _⟩
    cases hr.1.symm.trans hv

/-- Every reader knows where it stands. -/
private theorem known_reachable (h : Reachable (Steps (step cfg .plain)) (.init β υ ρ) s) :
    Inv cfg s.shared ∧ ∀ r pc k b l, s.rd r = .run pc k b l →
      (s.rd r).Regular ∧ ∃ hist, s.shared ∈ hist ∧ Knows hist s.shared k b (s.rd r) := by
  refine h.invariant (P := fun s => Inv cfg s.shared ∧ ∀ r pc k b l, s.rd r = .run pc k b l →
      (s.rd r).Regular ∧ ∃ hist, s.shared ∈ hist ∧ Knows hist s.shared k b (s.rd r))
    ⟨.init, fun r pc k b l hr => by simp [State.init] at hr⟩ fun s a t ⟨hinv, hk⟩ hs => ?_
  obtain ⟨hinv', hev⟩ := hinv.step hs
  refine ⟨hinv', fun r pc k b l hr => ?_⟩
  have hkeep (he : t.rd r = s.rd r) : (t.rd r).Regular ∧ ∃ hist, t.shared ∈ hist ∧ Knows hist t.shared k b (t.rd r) := by
    obtain ⟨hreg, hist, _, hkn⟩ := hk r pc k b l (he ▸ hr)
    rw [he]
    exact ⟨hreg, hist ++ [t.shared], by simp, hkn.evolve hev⟩
  cases a with
  | begin | update | alloc =>
    obtain ⟨mw, _, rfl⟩ := Option.map_eq_some_iff.mp hs
    exact hkeep rfl
  | call r' k' b' l' =>
    by_cases he : r = r'
    · subst he
      simp only [Steps, ListGecos.step] at hs
      split at hs <;> cases hs
      all_goals
        simp only [Function.update_self] at hr ⊢
        cases hr
        exact ⟨trivial, [s.shared], by simp, rfl, rfl, by simp, trivial⟩
    · refine hkeep ?_
      simp only [Steps, ListGecos.step] at hs
      split at hs <;> cases hs <;> simp [Function.update_of_ne he]
  | read r' =>
    obtain ⟨x, hx, rfl⟩ := Option.map_eq_some_iff.mp hs
    by_cases he : r = r'
    · subst he
      simp only [Function.update_self] at hr ⊢
      subst hr
      cases hx' : s.rd r with
      | idle | returned => simp [hx', Searcher.step] at hx
      | run pc' k' b' l' =>
        obtain ⟨hreg, hist, hm, hkn⟩ := hk r pc' k' b' l' hx'
        obtain ⟨rfl, rfl, hkn'⟩ := hkn.read hinv.writers hm (by simp) hx
        exact ⟨.read hx, hist, hm, rfl, rfl, hkn'⟩
    · exact hkeep (by simp [Function.update_of_ne he])

/-- A reader's step leaves the memory alone, and moves that reader only. -/
private theorem reading_step (hs : step cfg .plain s a = some t) (ha : a.Reading r) :
    t.shared.mem = s.shared.mem ∧ (a = .read r → (s.rd r).step .plain s.shared.mem = some (t.rd r)) ∧
      (a ≠ .read r → t.rd r = s.rd r) := by
  cases a with
  | begin | update | alloc => exact ha.elim
  | call r' k b l =>
    refine ⟨?_, fun he => (nomatch he), fun _ => ?_⟩ <;> simp only [ListGecos.step] at hs <;>
      split at hs <;> cases hs
    all_goals first | rfl | exact Function.update_of_ne (Ne.symm ha) _ _
  | read r' =>
    obtain ⟨x, hx, rfl⟩ := Option.map_eq_some_iff.mp hs
    refine ⟨rfl, fun he => ?_, fun he => ?_⟩
    · cases he
      simpa using hx
    · exact Function.update_of_ne (fun hr => he (by rw [hr])) _ _

/-- From any reachable state, with no updater moving, a search returns. -/
theorem ends_alone {pc : Pc} {k : Int} {b : β} {l : Locals}
    (h : Reachable (Steps (step cfg .plain)) (.init β υ ρ) s) (hr : s.rd r = .run pc k b l) :
    ∃ N, ∀ tr t, Run (Steps (step cfg .plain)) s tr t → (∀ e ∈ tr, e.1.Reading r) →
      stepCount (fun _ a _ => a = .read r) s tr ≤ N ∧
      stepCount (Iterates r) s tr ≤ (s.shared.mem.chain b).length + 1 ∧
      ((t.rd r).Returned ∨ ∃ u, step cfg .plain t (.read r) = some u) := by
  obtain ⟨hinv, hk⟩ := known_reachable h
  obtain ⟨hreg, hist, _, hkn⟩ := hk r pc k b l hr
  have hdone (m : Mem β) (x : Searcher β) (hx : x.Returned) : x.step .plain m = none := by
    cases x with
    | idle | run => exact hx.elim
    | returned => rfl
  obtain ⟨N, halone⟩ := (hkn.ends hreg hinv.writers).alone
    (R := fun t a u => Steps (step cfg .plain) t a u ∧ a.Reading r)
    (fun t => t.shared.mem) (fun t => t.rd r) (fun a => a = .read r)
    (fun t a u hs => (reading_step hs.1 hs.2).1) (fun t a u hs => (reading_step hs.1 hs.2).2.1)
    (fun t a u hs => (reading_step hs.1 hs.2).2.2) hdone
  refine ⟨N, fun tr t hrun hread => ?_⟩
  obtain ⟨hN, hn, hend⟩ := halone tr t (hrun.guarded hread)
  refine ⟨hN, hn, hend.imp_right fun ⟨y, hy⟩ => ?_⟩
  exact ⟨_, by simp only [ListGecos.step, hy]; rfl⟩

end system
end ListGecos

namespace ListSgecos
variable {β ρ : Type} {m : Mem β} {k : Int} {b : β} {l : Locals} {x x' : Searcher β} {n : Nat} {p : Ptr} {c : List Addr}

/-- The search is back at `retry`. -/
def Searcher.AtRetry : Searcher β → Prop
  | .run .lock .. => True
  | _ => False

/-- The search is at the start of the body of its `while` loop. -/
def Searcher.AtBody : Searcher β → Prop
  | .run .curKey .. => True
  | _ => False

def Searcher.Returned : Searcher β → Prop
  | .returned _ => True
  | _ => False

/-- The counter of the bucket is still what this attempt has read. -/
def Searcher.Fresh (m : Mem β) : Searcher β → Prop
  | .run pc _ b l => pc = .lock ∨ l.lgc = m.locks b
  | _ => True

private theorem fresh_loop (h : l.lgc = m.locks b) :
    (Searcher.loop k b l p).Fresh m ∧ ¬ (Searcher.loop k b l p).AtRetry := by
  cases p with
  | none => exact ⟨trivial, id⟩
  | some q => exact ⟨.inr h, id⟩

theorem Searcher.Fresh.read (h : x.Fresh m) (hs : x.step m = some x') : x'.Fresh m ∧ ¬ x'.AtRetry := by
  cases x with
  | idle | returned => simp [Searcher.step] at hs
  | run pc k b l =>
    cases pc with
    | lock => cases hs; exact ⟨.inr rfl, id⟩
    | head => cases hs; exact fresh_loop (h.resolve_left (by simp))
    | curKey | next => cases hs; exact ⟨.inr (h.resolve_left (by simp)), id⟩
    | lockAgain =>
      have hg := h.resolve_left (by simp)
      simp only [Searcher.step] at hs
      split at hs
      · rename_i hne; exact (hne hg).elim
      · split at hs <;> cases hs
        · exact ⟨trivial, id⟩
        · exact fresh_loop hg

theorem Searcher.AtRetry.fresh (h : x.AtRetry) : x.Fresh m := by
  cases x with
  | idle | returned => trivial
  | run pc k b l =>
    cases pc with
    | lock => exact .inl rfl
    | _ => exact h.elim

theorem Searcher.Fresh.congr {m' : Mem β} (h : x.Fresh m) (hl : m'.locks = m.locks) : x.Fresh m' := by
  cases x with
  | idle | returned => trivial
  | run pc k b l => rw [Fresh, hl]; exact h

/-- The search, left alone with the memory as it is, returns after at most `n` iterations. -/
abbrev Ends (m : Mem β) (n : Nat) (x : Searcher β) : Prop :=
  HaltsIn (Searcher.step m) Searcher.AtBody Searcher.Returned n x

private theorem ends_lockAgain (hh : l.lgc ≠ m.locks b → Ends m n (.run .lock k b l))
    (hl : l.lgc = m.locks b → l.curKey < k → Ends m n (Searcher.loop k b l l.next)) :
    Ends m n (.run .lockAgain k b l) := by
  by_cases hg : l.lgc = m.locks b
  · by_cases hk : k ≤ l.curKey
    · refine HaltsIn.step (y := .returned (if l.curKey = k then 1 else 0)) ?_ id (.of_done trivial)
      simp [Searcher.step, hg, hk]
    · exact HaltsIn.step (by simp [Searcher.step, hg, hk]) id (hl hg (by omega))
  · exact HaltsIn.step (by simp [Searcher.step, hg]) id (hh hg)

private theorem ends_walk (hc : Chain m.next p c) (hg : l.lgc = m.locks b) :
    Ends m c.length (Searcher.loop k b l p) := by
  induction c generalizing p l with
  | nil =>
    cases hc
    exact .of_done trivial
  | cons a c ih =>
    obtain ⟨rfl, hc⟩ := hc
    refine HaltsIn.enter rfl trivial (HaltsIn.step rfl id ?_)
    exact ends_lockAgain (fun hne => (hne hg).elim) fun _ _ => ih hc hg

private theorem ends_lock (ht : m.Table) : Ends m (m.chain b).length (.run .lock k b l) :=
  HaltsIn.step rfl id (HaltsIn.step rfl id (ends_walk (ht.ends b) rfl))

private theorem ends_arrive (ht : m.Table)
    (hp : ∀ q ∈ p, l.lgc = m.locks b → ∃ c, Chain m.next (m.next q) c ∧ c.length ≤ (m.chain b).length) :
    Ends m ((m.chain b).length + 1) (Searcher.loop k b l p) := by
  cases p with
  | none => exact .of_done trivial
  | some q =>
    refine HaltsIn.enter rfl trivial (HaltsIn.step rfl id ?_)
    refine ends_lockAgain (fun _ => ends_lock ht) fun hg _ => ?_
    obtain ⟨c, hc, hlen⟩ := hp q rfl hg
    exact (ends_walk hc hg).mono hlen

/-- A reader that knows where it stands returns, even from a node that is free or in another bucket. -/
theorem Knows.ends {s : Shared β Unit} {hist : List (Shared β Unit)} (h : Knows hist s k b x)
    (hw : Writers s.mem s.upd) : Ends s.mem ((s.mem.chain b).length + 1) x := by
  have ht := hw.table
  have hlock (l : Locals) : Ends s.mem ((s.mem.chain b).length + 1) (.run .lock k b l) :=
    (ends_lock ht).mono (Nat.le_succ _)
  have hahead {n : Addr} {g : Nat} (hh : (view β).Held hist s b k n g) (hg : g = s.mem.locks b) :
      ∃ c, Chain s.mem.next (s.mem.next n) c ∧ c.length ≤ (s.mem.chain b).length :=
    (Shared.Live.around (hh.2 hg.symm).1 hw).ahead ht
  cases x with
  | idle => exact h.elim
  | returned res => exact .of_done trivial
  | run pc k' b' l =>
    obtain ⟨rfl, rfl, h⟩ := h
    cases pc with
    | lock => exact hlock l
    | head =>
      refine HaltsIn.step rfl id (ends_arrive ht fun q hq _ => ?_)
      exact (ht.around (ht.head_some (k := k') hq).1).ahead ht
    | curKey =>
      refine ends_arrive (l := l) (p := some l.cur) ht fun q hq hg => ?_
      cases hq
      exact hahead h hg
    | next =>
      refine HaltsIn.step rfl id (ends_lockAgain (fun _ => hlock _) fun hg _ => ?_)
      obtain ⟨c, hc, hlen⟩ := hahead h.1 hg
      exact (ends_walk hc hg).mono (by omega)
    | lockAgain =>
      refine ends_lockAgain (fun _ => hlock l) fun hg hk => ends_arrive ht fun q hq hgq => ?_
      have hheld := h.2 hg.symm hk
      rw [hq] at hheld
      exact hahead hheld hgq

/-- Reader `r` goes back to `retry`. -/
def Retries (r : ρ) (_ : State β ρ) (a : Act β ρ) (t : State β ρ) : Prop :=
  a = .read r ∧ (t.rd r).AtRetry

/-- Reader `r` begins an iteration of its `while` loop. -/
def Iterates (r : ρ) (s : State β ρ) (a : Act β ρ) (_ : State β ρ) : Prop :=
  a = .read r ∧ (s.rd r).AtBody

/-- The updater stores. -/
def Stores (s : State β ρ) (a : Act β ρ) (_ : State β ρ) : Prop :=
  a = .update ∧ (s.shared.upd ()).Stores

/-- A step of a reader, `r` itself starting no other call. -/
def Act.Reading (r : ρ) : Act β ρ → Prop
  | .read _ => True
  | .call r' _ _ _ => r' ≠ r
  | _ => False

section system
variable [DecidableEq β] [DecidableEq ρ] {s t : State β ρ} {r : ρ} {a : Act β ρ}

omit [DecidableEq ρ] in
private theorem update_quiet {m m' : Mem β} {w w' : Writer β Bump} (hs : update m w = some (m', w'))
    (hw : ¬ w.Stores) : m'.locks = m.locks := by
  unfold update at hs
  split at hs
  case h_1 | h_2 | h_4 => cases hs; rfl
  case h_3 => exact (hw trivial).elim
  case h_5 => rw [Writer.step_quiet hs hw]

/-- Only a store of the updater can take away what an attempt has read. -/
private theorem fresh_step (hs : step s a = some t) (hno : ∀ k b l, a ≠ .call r k b l)
    (h : (s.rd r).Fresh s.shared.mem) : ¬ Retries r s a t ∧ ((t.rd r).Fresh t.shared.mem ∨ Stores s a t) := by
  cases a with
  | begin op k b =>
    obtain ⟨w, _, rfl⟩ := Option.map_eq_some_iff.mp hs
    exact ⟨fun hr => (by cases hr.1), .inl h⟩
  | update =>
    obtain ⟨mw, hm, rfl⟩ := Option.map_eq_some_iff.mp hs
    refine ⟨fun hr => (by cases hr.1), ?_⟩
    by_cases hw : (s.shared.upd ()).Stores
    · exact .inr ⟨rfl, hw⟩
    · exact .inl (h.congr (update_quiet hm hw))
  | alloc n =>
    obtain ⟨mw, hm, rfl⟩ := Option.map_eq_some_iff.mp hs
    exact ⟨fun hr => (by cases hr.1), .inl (h.congr (Writer.alloc_quiet hm).2.2.2)⟩
  | call r' k b l =>
    have hne : r ≠ r' := fun he => hno k b l (by rw [he])
    simp only [ListSgecos.step] at hs
    split at hs <;> cases hs <;>
      exact ⟨fun hr => (by cases hr.1), .inl (by simpa [Function.update_of_ne hne] using h)⟩
  | read r' =>
    obtain ⟨x, hx, rfl⟩ := Option.map_eq_some_iff.mp hs
    by_cases he : r' = r
    · subst he
      obtain ⟨hf, hn⟩ := h.read hx
      exact ⟨fun hr => hn (by simpa using hr.2), .inl (by simpa using hf)⟩
    · refine ⟨fun hr => he (Act.read.inj hr.1), .inl ?_⟩
      simpa [Function.update_of_ne (Ne.symm he)] using h

/-- From the call on, each retry of a search is charged to a store. -/
theorem charged {tr : List (Act β ρ × State β ρ)} (hcall : ∃ s₀ k b l, step s₀ (.call r k b l) = some s)
    (hrun : Run (Steps step) s tr t) (hno : ∀ e ∈ tr, ∀ k b l, e.1 ≠ .call r k b l) :
    Charged (Retries r) Stores s tr := by
  refine (hrun.guarded hno).charged (fun s => (s.rd r).Fresh s.shared.mem) ?_
    (fun _ _ _ hs h => fresh_step hs.1 hs.2 h) fun t a u _ hr => ⟨hr.2.fresh, ?_⟩
  · obtain ⟨s₀, k, b, l, hcall⟩ := hcall
    simp only [ListSgecos.step] at hcall
    split at hcall <;> cases hcall <;> simp [Searcher.Fresh]
  · rintro ⟨hv, _⟩
    cases hr.1.symm.trans hv

/-- Every reader knows where it stands. -/
private theorem known_reachable (h : Reachable (Steps step) (.init β ρ) s) :
    Inv s.shared ∧ ∀ r pc k b l, s.rd r = .run pc k b l →
      ∃ hist, s.shared ∈ hist ∧ Knows hist s.shared k b (s.rd r) := by
  refine h.invariant (P := fun s => Inv s.shared ∧ ∀ r pc k b l, s.rd r = .run pc k b l →
      ∃ hist, s.shared ∈ hist ∧ Knows hist s.shared k b (s.rd r))
    ⟨.init, fun r pc k b l hr => by simp [State.init] at hr⟩ fun s a t ⟨hinv, hk⟩ hs => ?_
  obtain ⟨hinv', hev⟩ := hinv.step hs
  refine ⟨hinv', fun r pc k b l hr => ?_⟩
  have hkeep (he : t.rd r = s.rd r) : ∃ hist, t.shared ∈ hist ∧ Knows hist t.shared k b (t.rd r) := by
    obtain ⟨hist, _, hkn⟩ := hk r pc k b l (he ▸ hr)
    rw [he]
    exact ⟨hist ++ [t.shared], by simp, hkn.evolve hev⟩
  cases a with
  | begin | update | alloc =>
    obtain ⟨mw, _, rfl⟩ := Option.map_eq_some_iff.mp hs
    exact hkeep rfl
  | call r' k' b' l' =>
    by_cases he : r = r'
    · subst he
      simp only [Steps, ListSgecos.step] at hs
      split at hs <;> cases hs
      all_goals
        simp only [Function.update_self] at hr ⊢
        cases hr
        exact ⟨[s.shared], by simp, rfl, rfl, trivial⟩
    · refine hkeep ?_
      simp only [Steps, ListSgecos.step] at hs
      split at hs <;> cases hs <;> simp [Function.update_of_ne he]
  | read r' =>
    obtain ⟨x, hx, rfl⟩ := Option.map_eq_some_iff.mp hs
    by_cases he : r = r'
    · subst he
      simp only [Function.update_self] at hr ⊢
      subst hr
      cases hx' : s.rd r with
      | idle | returned => simp [hx', Searcher.step] at hx
      | run pc' k' b' l' =>
        obtain ⟨hist, hm, hkn⟩ := hk r pc' k' b' l' hx'
        obtain ⟨rfl, rfl, hkn'⟩ := hkn.read hinv.writers hm hx
        exact ⟨hist, hm, rfl, rfl, hkn'⟩
    · exact hkeep (by simp [Function.update_of_ne he])

/-- A reader's step leaves the memory alone, and moves that reader only. -/
private theorem reading_step (hs : step s a = some t) (ha : a.Reading r) :
    t.shared.mem = s.shared.mem ∧ (a = .read r → (s.rd r).step s.shared.mem = some (t.rd r)) ∧
      (a ≠ .read r → t.rd r = s.rd r) := by
  cases a with
  | begin | update | alloc => exact ha.elim
  | call r' k b l =>
    refine ⟨?_, fun he => (nomatch he), fun _ => ?_⟩ <;> simp only [ListSgecos.step] at hs <;>
      split at hs <;> cases hs
    all_goals first | rfl | exact Function.update_of_ne (Ne.symm ha) _ _
  | read r' =>
    obtain ⟨x, hx, rfl⟩ := Option.map_eq_some_iff.mp hs
    refine ⟨rfl, fun he => ?_, fun he => ?_⟩
    · cases he
      simpa using hx
    · exact Function.update_of_ne (fun hr => he (by rw [hr])) _ _

/-- From any reachable state, with the updater not moving, a search returns. -/
theorem ends_alone {pc : Pc} {k : Int} {b : β} {l : Locals}
    (h : Reachable (Steps step) (.init β ρ) s) (hr : s.rd r = .run pc k b l) :
    ∃ N, ∀ tr t, Run (Steps step) s tr t → (∀ e ∈ tr, e.1.Reading r) →
      stepCount (fun _ a _ => a = .read r) s tr ≤ N ∧
      stepCount (Iterates r) s tr ≤ (s.shared.mem.chain b).length + 1 ∧
      ((t.rd r).Returned ∨ ∃ u, step t (.read r) = some u) := by
  obtain ⟨hinv, hk⟩ := known_reachable h
  obtain ⟨hist, _, hkn⟩ := hk r pc k b l hr
  have hdone (m : Mem β) (x : Searcher β) (hx : x.Returned) : x.step m = none := by
    cases x with
    | idle | run => exact hx.elim
    | returned => rfl
  obtain ⟨N, halone⟩ := (hkn.ends hinv.writers).alone (R := fun t a u => Steps step t a u ∧ a.Reading r)
    (fun t => t.shared.mem) (fun t => t.rd r) (fun a => a = .read r)
    (fun t a u hs => (reading_step hs.1 hs.2).1) (fun t a u hs => (reading_step hs.1 hs.2).2.1)
    (fun t a u hs => (reading_step hs.1 hs.2).2.2) hdone
  refine ⟨N, fun tr t hrun hread => ?_⟩
  obtain ⟨hN, hn, hend⟩ := halone tr t (hrun.guarded hread)
  refine ⟨hN, hn, hend.imp_right fun ⟨y, hy⟩ => ?_⟩
  exact ⟨_, by simp only [ListSgecos.step, hy]; rfl⟩

end system
end ListSgecos

/-- The readers of list_gecos.c and of list_sgecos.c are lock-free. In any run from a call on, each
jump to `retry` is charged to an updater's store of its own, made during the attempt that the jump
aborts. From any reachable state, while no updater moves, a search in progress is never stuck, takes
boundedly many steps, and begins at most one iteration more than its bucket has nodes. -/
theorem readers_lock_free {β υ ρ : Type} [DecidableEq β] [DecidableEq υ] [DecidableEq ρ] (cfg : Locking υ) (r : ρ) :
    ((∀ s₀ s t k b l tr, ListGecos.step cfg .plain s₀ (.call r k b l) = some s →
        Run (Steps (ListGecos.step (β := β) cfg .plain)) s tr t → (∀ e ∈ tr, ∀ k b l, e.1 ≠ .call r k b l) →
        Charged (ListGecos.Retries r) ListGecos.Stores s tr ∧
          stepCount (ListGecos.Retries r) s tr ≤ stepCount ListGecos.Stores s tr) ∧
      ∀ s pc k b l, Reachable (Steps (ListGecos.step cfg .plain)) (.init β υ ρ) s → s.rd r = .run pc k b l →
        ∃ N, ∀ tr t, Run (Steps (ListGecos.step cfg .plain)) s tr t → (∀ e ∈ tr, e.1.Reading r) →
          stepCount (fun _ a _ => a = .read r) s tr ≤ N ∧
          stepCount (ListGecos.Iterates r) s tr ≤ (s.shared.mem.chain b).length + 1 ∧
          ((t.rd r).Returned ∨ ∃ u, ListGecos.step cfg .plain t (.read r) = some u)) ∧
    (∀ s₀ s t k b l tr, ListSgecos.step s₀ (.call r k b l) = some s →
        Run (Steps (ListSgecos.step (β := β))) s tr t → (∀ e ∈ tr, ∀ k b l, e.1 ≠ .call r k b l) →
        Charged (ListSgecos.Retries r) ListSgecos.Stores s tr ∧
          stepCount (ListSgecos.Retries r) s tr ≤ stepCount ListSgecos.Stores s tr) ∧
      ∀ s pc k b l, Reachable (Steps ListSgecos.step) (.init β ρ) s → s.rd r = .run pc k b l →
        ∃ N, ∀ tr t, Run (Steps ListSgecos.step) s tr t → (∀ e ∈ tr, e.1.Reading r) →
          stepCount (fun _ a _ => a = .read r) s tr ≤ N ∧
          stepCount (ListSgecos.Iterates r) s tr ≤ (s.shared.mem.chain b).length + 1 ∧
          ((t.rd r).Returned ∨ ∃ u, ListSgecos.step t (.read r) = some u) := by
  refine ⟨⟨fun s₀ s t k b l tr hcall hrun hno => ?_, fun s pc k b l h hr => ListGecos.ends_alone h hr⟩,
    fun s₀ s t k b l tr hcall hrun hno => ?_, fun s pc k b l h hr => ListSgecos.ends_alone h hr⟩
  · have hc := ListGecos.charged ⟨s₀, k, b, l, hcall⟩ hrun hno
    exact ⟨hc, hc.count_le⟩
  · have hc := ListSgecos.charged ⟨s₀, k, b, l, hcall⟩ hrun hno
    exact ⟨hc, hc.count_le⟩

/-- A search whose bucket changes under its first attempt. -/
theorem readers_lock_free_unlinked :
    (∃ (s t : ListGecos.State Unit Unit Unit) (tr : List (ListGecos.Act Unit Unit Unit × _)),
      (t.rd ()).AtRetry ∧ tr.length = 10 ∧ Charged (ListGecos.Retries ()) ListGecos.Stores s tr ∧
      ∃ N, ∀ tr' t', Run (Steps (ListGecos.step .solo .plain)) t tr' t' → (∀ e ∈ tr', e.1.Reading ()) →
        stepCount (fun _ a _ => a = .read ()) t tr' ≤ N) ∧
    ∃ (s t : ListSgecos.State Unit Unit) (tr : List (ListSgecos.Act Unit Unit × _)),
      (t.rd ()).AtRetry ∧ tr.length = 12 ∧ Charged (ListSgecos.Retries ()) ListSgecos.Stores s tr ∧
      ∃ N, ∀ tr' t', Run (Steps ListSgecos.step) t tr' t' → (∀ e ∈ tr', e.1.Reading ()) →
        stepCount (fun _ a _ => a = .read ()) t tr' ≤ N := by
  obtain ⟨⟨hfree, hend⟩, hfree', hend'⟩ := readers_lock_free (β := Unit) (ρ := Unit) Locking.solo ()
  constructor
  · have h : (exec (ListGecos.step .solo .plain) (.init Unit Unit Unit)
        ([ListGecos.Act.begin () .insert 5 (), .update (), .update (), .alloc () 0, .update (), .update (),
          .update (), .update (), .begin () .delete 5 ()] ++ ListGecos.Act.call () 5 () ⟨7, none, none, 0, 0, 0, 0, false⟩ ::
          [ListGecos.Act.read (), .read (), .update (), .update (), .update (), .update (), .update (), .update (),
            .update (), .read ()])).any
        fun t => decide (t.rd () = .run .head 5 () ⟨0, none, none, 0, 0, 0, 0, false⟩) := by decide
    obtain ⟨s₀, s, t, tr, h₀, hcall, hrun, hp, hlen, hin⟩ := exec_around h
    have hr := of_decide_eq_true hp
    have hno (e) (he : e ∈ tr) (k b l) : e.1 ≠ .call () k b l := fun hc => by
      have := hin e he
      simp [hc] at this
    obtain ⟨N, hN⟩ := hend t _ _ _ _ (Run.reachable_append h₀ (.cons hcall hrun)) hr
    exact ⟨s, t, tr, by rw [hr]; trivial, hlen, (hfree s₀ s t _ _ _ tr hcall hrun hno).1, N,
      fun tr' t' hr' hd => (hN tr' t' hr' hd).1⟩
  · have h : (exec ListSgecos.step (.init Unit Unit)
        ([ListSgecos.Act.begin .insert 5 (), .update, .alloc 0, .update, .update, .update, .update,
          .begin .delete 5 ()] ++ ListSgecos.Act.call () 5 () ⟨7, none, 0, 0⟩ ::
          [ListSgecos.Act.read (), .read (), .update, .update, .update, .update, .update, .update, .update,
            .read (), .read (), .read ()])).any
        fun t => decide (t.rd () = .run .lock 5 () ⟨0, none, 0, 5⟩) := by decide
    obtain ⟨s₀, s, t, tr, h₀, hcall, hrun, hp, hlen, hin⟩ := exec_around h
    have hr := of_decide_eq_true hp
    have hno (e) (he : e ∈ tr) (k b l) : e.1 ≠ .call () k b l := fun hc => by
      have := hin e he
      simp [hc] at this
    obtain ⟨N, hN⟩ := hend' t _ _ _ _ (Run.reachable_append h₀ (.cons hcall hrun)) hr
    exact ⟨s, t, tr, by rw [hr]; trivial, hlen, (hfree' s₀ s t _ _ _ tr hcall hrun hno).1, N,
      fun tr' t' hr' hd => (hN tr' t' hr' hd).1⟩

end Gecos
