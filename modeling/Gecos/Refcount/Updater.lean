import Gecos.Library.Run
import Gecos.Refcount.Invariant

/-! Every step of the updater keeps the ledger balanced. -/
namespace Gecos.ListRc
open Library Ledger
variable {β ρ : Type} [Fintype ρ] {s s' : State β ρ} {l l' : Ledger (Option ρ) Addr}
  {m m' : Mem β} {w : Writer β Later} {r : ρ} {n : Addr}

omit [Fintype ρ] in
/-- An updater without a node in hand has no reference either. -/
theorem refs_of_inHand (h : w.inHand = none) : decOf w = none ∧ extraOf w = 0 ∧ freshOf w = none ∧
    leavingOf w = none ∧ ∀ m, LaterFact m w := by
  cases w <;> first | exact ⟨rfl, rfl, rfl, rfl, fun _ => trivial⟩ | cases h

/-- The updater moves on while it has no node in hand. -/
theorem Inv.plain (hi : Inv s l) (hw : Writers s.mem (Function.update s.upd () w))
    (h : (s.upd ()).inHand = none) (h' : w.inHand = none) : Inv (s.put (s.mem, w)) l := by
  obtain ⟨hd, hx, hfresh, hleaving, _⟩ := refs_of_inHand h
  obtain ⟨hd', hx', hfresh', hleaving', hl⟩ := refs_of_inHand h'
  have hown := hi.rep.own
  rw [hd, hx] at hown
  refine hi.writer hi.balanced hi.rep.fits hw ?_ (fun _ _ _ _ h => h) (fun n => ?_) (fun n => ?_) hi.rep.unlinked (hl _)
  · rwa [hd', hx']
  · rw [hfresh', ← hfresh]
    exact hi.rep.fresh n
  · rw [hleaving', ← hleaving]
    exact hi.rep.leaving n

theorem Inv.begin {op : Op} {k : Int} {b : β} (hi : Inv s l) (hs : (s.upd ()).begin op k b = some w) :
    Inv (s.put (s.mem, w)) l := by
  have hready : (s.upd ()).inHand = none ∧ w.inside = none ∧ w.inHand = none ∧ w.Facts s.mem := by
    unfold Writer.begin at hs
    split at hs
    case h_3 => contradiction
    all_goals
      rename_i he
      rw [he]
      cases op <;> cases hs <;> exact ⟨rfl, rfl, rfl, trivial⟩
  obtain ⟨h, hin, hhand, hf⟩ := hready
  exact hi.plain (hi.writers.stay (by simp [hin]) (by simp [hhand]) hf) h hhand

/-- Homes that no `lfrc_refcnt_dec` has. -/
def Outside : Home (Option ρ) → Prop
  | .dying _ | .spent _ => False
  | _ => True

omit [Fintype ρ] in
/-- How the node that is in home `h`, if any, changes when node `n` moves. -/
theorem home_only {h x : Home (Option ρ)} {f f' : Option Addr} (hhome : l'.home = Function.update l.home n x)
    (hold : ∀ y, l.home y = h ↔ f = some y) (hself : x = h ↔ f' = some n)
    (hother : ∀ y ≠ n, f = some y ↔ f' = some y) (y : Addr) : l'.home y = h ↔ f' = some y := by
  rw [hhome]
  by_cases hy : y = n
  · subst hy
    rwa [Function.update_self]
  · rw [Function.update_of_ne hy]
    exact (hold y).trans (hother y hy)

/-- The updater moves node `n` from one home to another, none of them in `lfrc_refcnt_dec`. -/
theorem Inv.transfer {x : Home (Option ρ)} (hi : Inv s l) (hb : l'.Balanced none) (hf : Fits l' m')
    (hw : Writers m' (Function.update s.upd () w)) (hhome : l'.home = Function.update l.home n x)
    (hold : Outside (l.home n)) (hnew : Outside x)
    (hbefore : (decOf (s.upd ())).bind Dec.dying = none ∧ (decOf (s.upd ())).elim [] Dec.spent = [])
    (hafter : (decOf w).bind Dec.dying = none ∧ (decOf w).elim [] Dec.spent = [])
    (hheld : l'.held none = (decOf w).elim 0 Dec.held + extraOf w) (hothers : ∀ u ≠ none, l'.held u = l.held u)
    (hfresh : (x = .fresh ↔ freshOf w = some n) ∧ ∀ y ≠ n, freshOf (s.upd ()) = some y ↔ freshOf w = some y)
    (hleaving : (x = .leaving ↔ leavingOf w = some n) ∧ ∀ y ≠ n, leavingOf (s.upd ()) = some y ↔ leavingOf w = some y)
    {un : Addr → Bool} (hun : ∀ y, un y = true ↔ Out (l'.home y)) (hl : LaterFact m' w) :
    Inv ⟨m', Function.update s.upd () w, s.rd, un⟩ l' := by
  have hown := hi.rep.own
  have hdying (u : Option ρ) (y : Addr) : l'.home y = .dying u ↔ l.home y = .dying u := by
    rw [hhome]
    apply home_update _ _ _ (· = .dying u)
    exact ⟨fun he => by rw [he] at hnew; exact hnew.elim, fun he => by rw [he] at hold; exact hold.elim⟩
  have hspent (u : Option ρ) (y : Addr) : l'.home y = .spent u ↔ l.home y = .spent u := by
    rw [hhome]
    apply home_update _ _ _ (· = .spent u)
    exact ⟨fun he => by rw [he] at hnew; exact hnew.elim, fun he => by rw [he] at hold; exact hold.elim⟩
  refine hi.writer hb hf hw ⟨hheld, fun y => ?_, fun y => ?_, ?_⟩ (fun u hu d e h => ?_)
    (home_only hhome hi.rep.fresh hfresh.1 hfresh.2) (home_only hhome hi.rep.leaving hleaving.1 hleaving.2) hun hl
  · rw [hdying, hown.dying, hbefore.1, hafter.1]
  · rw [hspent, hown.spent, hbefore.2, hafter.2]
  · rw [hafter.2]
    exact List.nodup_nil
  · exact h.other (hothers u hu) (hdying u) (hspent u)

theorem Inv.alloc (hi : Inv s l) (hs : s.alloc n = some s') : Inv s' (l.rehome n .fresh) := by
  unfold State.alloc at hs
  split at hs
  case h_2 => contradiction
  rename_i k b prev cur hu
  split at hs <;> cases hs
  rename_i hav
  have hfree : l.home n = .free := (hi.rep.fits.avail n).mp hav
  have hheld := hi.rep.own.held
  rw [hu] at hheld
  have hw : Writers { s.mem with avail := Function.update s.mem.avail n false }
      (Function.update s.upd () (.handOver k b prev cur n)) := hi.writers.handOut hu hav rfl rfl id
  have hf : Fits (l.rehome n .fresh) { s.mem with avail := Function.update s.mem.avail n false } := by
    refine ⟨hi.rep.fits.count, hi.rep.fits.next, fun y => ?_, fun y => ?_⟩
    · by_cases hy : y = n
      · simp [hy, Ledger.rehome]
      · simpa [Ledger.rehome, Function.update_of_ne hy] using hi.rep.fits.avail y
    · have hl := home_update l.home n .fresh (· = .linked) (by simp [hfree]) y
      exact (hi.rep.fits.linked y).trans hl.symm
  refine hi.transfer (hi.balanced.rehome (.inl hfree) (.inr rfl)) hf hw rfl (by rw [hfree]; trivial) trivial
    (by rw [hu]; exact ⟨rfl, rfl⟩) ⟨rfl, rfl⟩ hheld (fun _ _ => rfl) ⟨by simp [freshOf], fun y hy => ?_⟩
    ⟨by simp [leavingOf], by simp [hu, leavingOf]⟩ (fun y => ?_) trivial
  · simp [hu, freshOf, Ne.symm hy]
  · have ho := home_update l.home n .fresh Out (by rw [hfree]; exact Iff.rfl) y
    exact (hi.rep.unlinked y).trans ho.symm

/-- The updater stays with its new node, which it writes to or not. -/
theorem Inv.keepNew (hi : Inv s l) (hb : l'.Balanced none) (hf : Fits l' m') (hhome : l'.home = l.home)
    (hw : Writers m' (Function.update s.upd () w)) (hnew : freshOf (s.upd ()) = some n) (hnew' : freshOf w = some n)
    (hheld : l'.held none = extraOf w) (hothers : ∀ u ≠ none, l'.held u = l.held u) :
    Inv ⟨m', Function.update s.upd () w, s.rd, s.unlinked⟩ l' := by
  have hown := hi.rep.own
  have hd : decOf (s.upd ()) = none ∧ leavingOf (s.upd ()) = none := by
    cases hu : s.upd () <;> rw [hu] at hnew <;> first | exact ⟨rfl, rfl⟩ | cases hnew
  have hd' : decOf w = none ∧ leavingOf w = none ∧ LaterFact m' w := by
    cases w <;> first | exact ⟨rfl, rfl, trivial⟩ | cases hnew'
  rw [hd.1] at hown
  refine hi.writer hb hf hw ?_ (fun u hu d y h => ?_) (fun y => ?_) (fun y => ?_) (fun y => ?_) hd'.2.2
  · rw [hd'.1]
    exact ⟨by simpa using hheld, by rw [hhome]; exact hown.dying, by rw [hhome]; exact hown.spent, hown.nodup⟩
  · exact h.other (hothers u hu) (fun y => by rw [hhome]) fun y => by rw [hhome]
  · rw [hhome, hi.rep.fresh, hnew, hnew']
  · rw [hhome, hi.rep.leaving, hd.2, hd'.2.1]
  · rw [hhome]
    exact hi.rep.unlinked y

variable [DecidableEq ρ] [DecidableEq β] {k : Int} {b : β} {prev : Link β} {cur : Ptr}

omit [DecidableEq ρ] in
/-- A shared access of list_writer.c. -/
theorem Inv.access (hi : Inv s l) (hs : (s.upd ()).step Later.loadNext s.mem = some (m', w)) :
    Writers m' (Function.update s.upd () w) := hi.writers.step hs

omit [DecidableEq β] in
/-- The fetch-and-add of `init_new_node`. -/
theorem Inv.handOver (hi : Inv s l) (hu : s.upd () = .handOver k b prev cur n) :
    Inv (s.put ({ s.mem with rc := Function.update s.mem.rc n (s.mem.rc n + 1) }, .storeKey k b prev cur n))
      (l.acquire none n) := by
  have hfresh : l.home n = .fresh := (hi.rep.fresh n).mpr (by rw [hu]; rfl)
  have hf := hi.writers.facts ()
  have hheld := hi.rep.own.held
  rw [hu] at hf hheld
  refine hi.keepNew (hi.balanced.acquire none (.inr ⟨hfresh, rfl⟩)) (hi.rep.fits.acquire none n) rfl
    (hi.writers.frame rfl rfl rfl (fun _ hx => .inl hx) (fun b' hb => .inl ?_) (fun x hx => .inl ?_) hf)
    (by rw [hu]; rfl) rfl ?_ fun u hu => Function.update_of_ne hu _ _
  · rw [hu]
    exact hb
  · rw [hu]
    exact hx
  · change Function.update l.held none (n ::ₘ l.held none) none = {n}
    rw [Function.update_self, hheld]
    rfl

omit [DecidableEq ρ] in
theorem Inv.storeKey (hi : Inv s l) (hu : s.upd () = .storeKey k b prev cur n) :
    Inv (s.put ({ s.mem with key := Function.update s.mem.key n k }, .storeNext k b prev cur n)) l := by
  have hheld := hi.rep.own.held
  rw [hu] at hheld
  refine hi.keepNew hi.balanced ⟨hi.rep.fits.count, hi.rep.fits.next, hi.rep.fits.avail, hi.rep.fits.linked⟩ rfl
    (hi.access (by rw [hu]; rfl)) (by rw [hu]; rfl) rfl ?_ fun _ _ => rfl
  rw [hheld]
  rfl

omit [DecidableEq ρ] in
theorem Inv.storeNext (hi : Inv s l) (hu : s.upd () = .storeNext k b prev cur n) :
    Inv (s.put ({ s.mem with next := Function.update s.mem.next n cur }, .link k b prev cur n))
      { l with next := Function.update l.next n cur } := by
  have hheld := hi.rep.own.held
  have hfresh : l.home n = .fresh := (hi.rep.fresh n).mpr (by rw [hu]; rfl)
  have hnew := (hi.writers.fresh () n (by rw [hu]; rfl)).2
  have hch (b' : β) := Mem.chain_eq (m := { s.mem with next := Function.update s.mem.next n cur })
    ((hi.writers.table.ends b').update (hnew b'))
  have hlimbo : ∀ x ∈ l.limbo, Function.update l.next n cur x = l.next x := by
    intro x hx
    apply Function.update_of_ne
    rintro rfl
    have := (hi.balanced.limbo x).mp hx
    rw [hfresh] at this
    exact this
  rw [hu] at hheld
  refine hi.keepNew (hi.balanced.rewrite hlimbo) ⟨hi.rep.fits.count, ?_, hi.rep.fits.avail, fun y => ?_⟩ rfl
    (hi.access (by rw [hu]; rfl)) (by rw [hu]; rfl) rfl ?_ fun _ _ => rfl
  · change Function.update l.next n cur = _
    rw [hi.rep.fits.next]
  · simp only [hch]
    exact hi.rep.fits.linked y
  · change l.held none = _
    rw [hheld]
    rfl

omit [DecidableEq ρ] in
/-- The store through a bucket's link misses the nodes that are not linked. -/
theorem Inv.limbo_next {l₁ l₂ : List Addr} (hi : Inv s l) (hp : s.mem.Place b k prev l₁ l₂) (p : Ptr) :
    ∀ x ∈ l.limbo, (s.mem.store prev p).next x = l.next x := by
  intro x hx
  rw [hp.link, hi.rep.fits.next]
  apply Mem.store_tailLink_next
  intro hm
  have hl := (hi.rep.fits.linked x).mp ⟨b, by simp [hp.split, hm]⟩
  have := (hi.balanced.limbo x).mp hx
  rw [hl] at this
  exact this

/-- The store of `insert` into the bucket. -/
theorem Inv.link (hi : Inv s l) (hu : s.upd () = .link k b prev cur n) :
    Inv (s.put (s.mem.store prev (some n), .wunlock b 1)) (l.link none n (s.mem.store prev (some n)).next) := by
  have hfresh : l.home n = .fresh := (hi.rep.fresh n).mpr (by rw [hu]; rfl)
  have hheld := hi.rep.own.held
  have hfacts := hi.writers.facts ()
  have hw : Writers (s.mem.store prev (some n)) (Function.update s.upd () (.wunlock b 1)) :=
    hi.access (by rw [hu]; rfl)
  rw [hu] at hheld hfacts
  obtain ⟨⟨l₁, l₂, hp, rfl, _⟩, _, hx⟩ := hfacts
  have hnew := (hi.writers.fresh () n (by rw [hu]; rfl)).2
  obtain ⟨_, _, hch, hne⟩ := hi.writers.table.link_chain hp hnew hx
  have hmem (y : Addr) : (∃ b', y ∈ (s.mem.store prev (some n)).chain b') ↔ y = n ∨ ∃ b', y ∈ s.mem.chain b' := by
    constructor
    · rintro ⟨b', hy⟩
      by_cases hb : b' = b
      · subst hb
        rw [hch] at hy
        by_cases hyn : y = n
        · exact .inl hyn
        · exact .inr ⟨b', by rw [hp.split]; simpa [hyn] using hy⟩
      · exact .inr ⟨b', by rwa [hne b' hb] at hy⟩
    · rintro (rfl | ⟨b', hy⟩)
      · exact ⟨b, by simp [hch]⟩
      · by_cases hb : b' = b
        · subst hb
          rw [hp.split] at hy
          exact ⟨b', by rw [hch]; exact (List.mem_append.mp hy).elim (by simp +contextual) (by simp +contextual)⟩
        · exact ⟨b', by rwa [hne b' hb]⟩
  have hf : Fits (l.link none n (s.mem.store prev (some n)).next) (s.mem.store prev (some n)) := by
    refine ⟨by rw [Mem.store_rc]; exact hi.rep.fits.count, rfl, fun y => ?_, fun y => ?_⟩
    · have hh := home_update l.home n .linked (· = .free) (by simp [hfresh]) y
      rw [Mem.store_avail]
      exact (hi.rep.fits.avail y).trans hh.symm
    · rw [hmem, hi.rep.fits.linked]
      by_cases hy : y = n
      · simp [hy, Ledger.link]
      · simp [hy, Ledger.link]
  refine hi.transfer (hi.balanced.link hfresh (by simp [hheld, extraOf]) (hi.limbo_next hp _)) hf hw rfl
    (by rw [hfresh]; trivial) trivial (by rw [hu]; exact ⟨rfl, rfl⟩) ⟨rfl, rfl⟩ ?_ (fun u hu => Function.update_of_ne hu _ _)
    ⟨by simp [freshOf], fun y hy => ?_⟩ ⟨by simp [leavingOf], by simp [hu, leavingOf]⟩ (fun y => ?_) trivial
  · change Function.update l.held none ((l.held none).erase n) none = 0
    simp [hheld, decOf, extraOf]
  · simp [hu, freshOf, Ne.symm hy]
  · have ho := home_update l.home n .linked Out (by rw [hfresh]; exact Iff.rfl) y
    exact (hi.rep.unlinked y).trans ho.symm

/-- The store of `delete` into the bucket, and the nodes that are unlinked from then on. -/
theorem Inv.unlink {cur : Addr} {nx : Ptr} (hi : Inv s l) (hu : s.upd () = .unlink k b prev cur nx) :
    Inv ⟨s.mem.store prev nx, Function.update s.upd () (.freeNodeLater b cur .loadNext), s.rd,
      Function.update s.unlinked cur true⟩ (l.unlink none cur (s.mem.store prev nx).next) := by
  have hheld := hi.rep.own.held
  have hfacts := hi.writers.facts ()
  have hw : Writers (s.mem.store prev nx) (Function.update s.upd () (.freeNodeLater b cur .loadNext)) :=
    hi.access (by rw [hu]; rfl)
  rw [hu] at hheld hfacts
  obtain ⟨⟨l₁, l₂, hp⟩, _, rfl⟩ := hfacts
  obtain ⟨_, _, hcur, hch, hne⟩ := hi.writers.table.unlink_chain hp
  have hlinked : l.home cur = .linked := (hi.rep.fits.linked cur).mp ⟨b, by simp [hp.split]⟩
  have hmem (y : Addr) : (∃ b', y ∈ (s.mem.store prev (s.mem.next cur)).chain b') ↔ y ≠ cur ∧ ∃ b', y ∈ s.mem.chain b' := by
    constructor
    · rintro ⟨b', hy⟩
      by_cases hb : b' = b
      · subst hb
        rw [hch] at hy
        refine ⟨fun he => hcur (he ▸ hy), b', ?_⟩
        rw [hp.split]
        exact (List.mem_append.mp hy).elim (by simp +contextual) (by simp +contextual)
      · rw [hne b' hb] at hy
        exact ⟨fun he => hb (hi.writers.table.apart _ _ cur (he ▸ hy) (by simp [hp.split])), b', hy⟩
    · rintro ⟨hyc, b', hy⟩
      by_cases hb : b' = b
      · subst hb
        rw [hp.split] at hy
        exact ⟨b', by rw [hch]; simpa [hyc] using hy⟩
      · exact ⟨b', by rwa [hne b' hb]⟩
  have hf : Fits (l.unlink none cur (s.mem.store prev (s.mem.next cur)).next) (s.mem.store prev (s.mem.next cur)) := by
    refine ⟨by rw [Mem.store_rc]; exact hi.rep.fits.count, rfl, fun y => ?_, fun y => ?_⟩
    · have hh := home_update l.home cur .leaving (· = .free) (by simp [hlinked]) y
      rw [Mem.store_avail]
      exact (hi.rep.fits.avail y).trans hh.symm
    · rw [hmem, hi.rep.fits.linked]
      by_cases hy : y = cur
      · simp [hy, Ledger.unlink]
      · simp [hy, Ledger.unlink]
  refine hi.transfer (hi.balanced.unlink hlinked (hi.limbo_next hp _)) hf hw rfl (by rw [hlinked]; trivial) trivial
    (by rw [hu]; exact ⟨rfl, rfl⟩) ⟨rfl, rfl⟩ ?_ (fun u hu => Function.update_of_ne hu _ _)
    ⟨by simp [freshOf], by simp [hu, freshOf]⟩ ⟨by simp [leavingOf], fun y hy => ?_⟩ (fun y => ?_) trivial
  · change Function.update l.held none (cur ::ₘ l.held none) none = {cur}
    rw [Function.update_self, hheld]
    rfl
  · simp [hu, leavingOf, Ne.symm hy]
  · change _ ↔ Out (Function.update l.home cur .leaving y)
    by_cases hy : y = cur
    · simp [hy, Out]
    · simpa [Function.update_of_ne hy] using hi.rep.unlinked y

omit [DecidableEq ρ] [DecidableEq β] in
/-- `free_node_later` has counted the successor, which the updater keeps linked meanwhile. -/
theorem Inv.settled {c : Later} (hi : Inv s l) (hu : s.upd () = .freeNodeLater b n c)
    (hc : leavingOf (.freeNodeLater b n c : Writer β Later) = some n) {rc : Addr → Nat} (hrc : (l.settle n).count = rc) :
    Inv (s.put ({ s.mem with rc }, .freeNodeLater b n (.dec (.check [] n)))) (l.settle n) := by
  have hleaving : l.home n = .leaving := (hi.rep.leaving n).mpr (by rw [hu]; exact hc)
  have hw : Writers { s.mem with rc } (Function.update s.upd () (.freeNodeLater b n (.dec (.check [] n)))) :=
    hi.writers.keepHand hu rfl rfl rfl rfl
  have hstart : decOf (s.upd ()) = none ∧ extraOf (s.upd ()) = {n} := by
    rw [hu]
    cases c with
    | loadNext | inc => exact ⟨rfl, rfl⟩
    | dec => cases hc
  have hfacts := hi.writers.facts ()
  have hheld := hi.rep.own.held
  rw [hstart.1, hstart.2] at hheld
  rw [hu] at hfacts
  obtain ⟨l₁, l₂, hch, hnext, _⟩ := hfacts
  have hsucc (x : Addr) (hx : l.next n = some x) : l.home x = .linked := by
    rw [hi.rep.fits.next, hnext] at hx
    have hm := List.mem_of_head? hx
    apply (hi.rep.fits.linked x).mp
    exact ⟨b, by rcases hch with hch | hch <;> simp [hch, hm]⟩
  have hf : Fits (l.settle n) { s.mem with rc } := by
    refine ⟨hrc, hi.rep.fits.next, fun y => ?_, fun y => ?_⟩
    · have hh := home_update l.home n .limbo (· = .free) (by simp [hleaving]) y
      exact (hi.rep.fits.avail y).trans hh.symm
    · have hh := home_update l.home n .limbo (· = .linked) (by simp [hleaving]) y
      exact (hi.rep.fits.linked y).trans hh.symm
  refine hi.transfer (hi.balanced.settle hleaving hsucc) hf hw rfl (by rw [hleaving]; trivial) trivial
    (by rw [hstart.1]; exact ⟨rfl, rfl⟩) ⟨rfl, rfl⟩ ?_ (fun _ _ => rfl) ⟨by simp [freshOf], by simp [hu, freshOf]⟩
    ⟨by simp [leavingOf], fun y hy => ?_⟩ (fun y => ?_) rfl
  · change l.held none = _
    rw [hheld]
    rfl
  · rw [hu, hc]
    simp [leavingOf, Ne.symm hy]
  · have ho := home_update l.home n .limbo Out (by rw [hleaving]; exact Iff.rfl) y
    exact (hi.rep.unlinked y).trans ho.symm

omit [DecidableEq β] in
/-- The node at the bottom stays there until it is freed. -/
theorem step_path {d d' : Dec} (hs : d.step m = some (m', some d')) : d'.path.getLast? = d.path.getLast? := by
  have hpop (stack : List Addr) (p : Addr) (h : Dec.call stack none = some d') :
      d'.path.getLast? = (p :: stack).getLast? := by
    cases stack with
    | nil => cases h
    | cons q stack =>
      cases h
      rw [List.getLast?_cons_cons]
      rfl
  cases d with
  | check stack p =>
    simp only [Dec.step] at hs
    split at hs <;> cases hs
    rfl
  | gcLoad | gcStore =>
    cases hs
    rfl
  | xadd stack p =>
    simp only [Dec.step, Option.some.injEq, Prod.mk.injEq] at hs
    obtain ⟨_, hs⟩ := hs
    split at hs
    · cases hs
      rfl
    · exact hpop stack p hs
  | next stack p =>
    simp only [Dec.step, Option.some.injEq, Prod.mk.injEq] at hs
    obtain ⟨_, hs⟩ := hs
    cases hx : m.next p with
    | none =>
      rw [hx] at hs
      cases hs
      rfl
    | some q =>
      rw [hx] at hs
      cases hs
      exact List.getLast?_cons_cons
  | free stack p =>
    simp only [Dec.step, Option.some.injEq, Prod.mk.injEq] at hs
    exact hpop stack p hs.2

omit [DecidableEq β] in
/-- A step of the updater inside `lfrc_refcnt_dec`. -/
theorem Inv.updaterDec {d : Dec} {d' : Option Dec} (hi : Inv s l) (hu : s.upd () = .freeNodeLater b n (.dec d))
    (hs : d.step s.mem = some (m', d')) :
    ∃ l', Inv ⟨m', Function.update s.upd () ((d'.map Later.dec).elim (.wunlock b 1) (.freeNodeLater b n)), s.rd,
      s.forget (some d)⟩ l' := by
  have hown := hi.rep.own
  have hlater := hi.later
  have hfacts := hi.writers.facts ()
  have hfresh := hi.rep.fresh
  have hleaving := hi.rep.leaving
  rw [hu] at hown hlater hfacts hfresh hleaving
  have hmoving (x : Addr) : l.home x ≠ .fresh ∧ l.home x ≠ .leaving :=
    ⟨fun he => (nomatch (hfresh x).mp he), fun he => (nomatch (hleaving x).mp he)⟩
  obtain ⟨l', hstep⟩ := dec_step hi.balanced hi.rep.fits hown (fun _ => hmoving) hs
  obtain ⟨hk, hn, hh, hav⟩ := dec_mem hs
  generalize hw : (d'.map Later.dec).elim (.wunlock b 1 : Writer β Later) (.freeNodeLater b n) = w
  have hrefs : decOf w = d' ∧ extraOf w = 0 ∧ freshOf w = none ∧ leavingOf w = none ∧ w.Facts s.mem := by
    rw [← hw]
    cases d' with
    | none => exact ⟨rfl, rfl, rfl, rfl, trivial⟩
    | some d' => exact ⟨rfl, rfl, rfl, rfl, hfacts⟩
  have hhand (x : Addr) (hx : w.inHand = some x) : x = n ∧ d' ≠ none := by
    rw [← hw] at hx
    cases d' with
    | none => cases hx
    | some d' => exact ⟨(Option.some.inj hx).symm, nofun⟩
  -- the node that the updater unlinked is freed last of all
  have hlast (p : Addr) (hp : freeing (some d) = some p) : w.inHand ≠ some p := by
    intro hx
    obtain ⟨rfl, hd⟩ := hhand p hx
    cases d <;> cases hp
    rename_i stack
    cases hs
    cases stack with
    | nil => exact hd rfl
    | cons q stack =>
      have hm : p ∈ q :: stack := List.mem_of_getLast? (by simpa [LaterFact, Dec.path] using hlater)
      exact (List.nodup_cons.mp hown.nodup).1 hm
  refine ⟨l', hi.writer hstep.balanced hstep.fits ?_ (by rw [hrefs.1, hrefs.2.1]; exact hstep.holds) hstep.other
    (fun x => ?_) (fun x => ?_) (forget_out hi.rep.unlinked hstep.out) ?_⟩
  · refine hi.writers.frame hk hn hh (fun x hx => ?_) (fun b' hb => .inl ?_) (fun x hx => .inl ?_) hrefs.2.2.2.2
    · cases hf : freeing (some d) with
      | none =>
        rw [hf] at hav
        exact .inl (by simpa [hav] using hx)
      | some p =>
        rw [hf] at hav
        by_cases hxp : x = p
        · subst hxp
          refine .inr ⟨fun b' hb => ?_, fun v hv => (hv rfl).elim, hlast x hf⟩
          have hl := (hi.rep.fits.linked x).mp ⟨b', hb⟩
          have hsp : l.home x = .spent none := by
            rw [hown.spent]
            cases d <;> cases hf
            simp [decOf, Dec.spent]
          rw [hsp] at hl
          cases hl
        · exact .inl (by simpa [hav, Function.update_of_ne hxp] using hx)
    · rw [← hw] at hb
      rw [hu]
      cases d' <;> exact hb
    · rw [(hhand x hx).1, hu]
      rfl
  · rw [hstep.fresh, hfresh, hrefs.2.2.1]
    exact Iff.rfl
  · rw [hstep.leaving, hleaving, hrefs.2.2.2.1]
    exact Iff.rfl
  · rw [← hw]
    cases d' with
    | none => trivial
    | some d' => exact (step_path hs).trans hlater

omit [DecidableEq ρ] in
/-- The accesses of list_writer.c that only read. -/
theorem Inv.search (hi : Inv s l) (hs : (s.upd ()).step .loadNext s.mem = some (m', w)) (h : (s.upd ()).inHand = none)
    (hnot : ∀ k b prev cur nx, s.upd () ≠ .unlink k b prev cur nx) : Inv (s.put (m', w)) l := by
  have hsame : m' = s.mem ∧ w.inHand = none := by
    cases hu : s.upd () with
    | ready | wlock | initNewNode | wunlock | returned => simp [hu, Writer.step] at hs
    | unlink k b prev cur nx => exact (hnot k b prev cur nx hu).elim
    | handOver | freeNodeLater | storeKey | storeNext | link => simp [hu, Writer.inHand] at h
    | emptyTest | loadKey | loadNext =>
      rw [hu] at hs
      cases hs
      refine ⟨rfl, ?_⟩
      first | rfl | split <;> rfl
    | loadHead | advance =>
      rw [hu] at hs
      cases hs
      exact ⟨rfl, Writer.loop_inHand ..⟩
    | loadKeyAgain op k b prev cur =>
      rw [hu] at hs
      cases op <;> cases hs <;> refine ⟨rfl, ?_⟩ <;> split <;> rfl
  obtain ⟨rfl, hhand⟩ := hsame
  exact hi.plain (hi.writers.step hs) h hhand

/-- Every step of the updater. -/
theorem Inv.update (hi : Inv s l) (hs : s.update = some s') : ∃ l', Inv s' l' := by
  cases hu : s.upd () with
  | ready | initNewNode | returned => simp [State.update, hu, Writer.step] at hs
  | emptyTest | loadHead | loadKey | loadKeyAgain | advance | loadNext =>
    simp only [State.update, hu] at hs
    obtain ⟨⟨m', w⟩, hw, rfl⟩ := Option.map_eq_some_iff.mp hs
    exact ⟨l, hi.search (by rw [hu]; exact hw) (by rw [hu]; rfl) (by rw [hu]; simp)⟩
  | wlock op k b =>
    simp only [State.update, hu] at hs
    cases hs
    have hno (v : Unit) : (s.upd v).inside ≠ some b := by
      rw [show v = () from rfl, hu]
      simp [Writer.inside]
    refine ⟨l, hi.plain (hi.writers.frame rfl rfl rfl (fun _ hx => .inl hx) (fun b' hb => .inr ?_) (fun _ he => by cases he) trivial)
      (by rw [hu]; rfl) rfl⟩
    cases hb
    exact hno
  | wunlock b res =>
    simp only [State.update, hu] at hs
    cases hs
    exact ⟨l, hi.plain (hi.writers.stay (fun _ he => by cases he) (fun _ he => by cases he) trivial) (by rw [hu]; rfl) rfl⟩
  | handOver k b prev cur n =>
    simp only [State.update, hu] at hs
    cases hs
    exact ⟨_, hi.handOver hu⟩
  | storeKey k b prev cur n =>
    simp only [State.update, hu] at hs
    cases hs
    exact ⟨_, hi.storeKey hu⟩
  | storeNext k b prev cur n =>
    simp only [State.update, hu] at hs
    cases hs
    exact ⟨_, hi.storeNext hu⟩
  | link k b prev cur n =>
    simp only [State.update, hu] at hs
    cases hs
    exact ⟨_, hi.link hu⟩
  | unlink k b prev cur nx =>
    simp only [State.update, hu] at hs
    cases hs
    exact ⟨_, hi.unlink hu⟩
  | freeNodeLater b n c =>
    simp only [State.update, hu] at hs
    obtain ⟨⟨m', c'⟩, hc, rfl⟩ := Option.map_eq_some_iff.mp hs
    cases c with
    | loadNext =>
      cases hc
      cases hx : s.mem.next n with
      | none =>
        refine ⟨_, hi.settled (c := .loadNext) hu rfl ?_⟩
        funext x
        change l.count x + (if l.next n = some x then 1 else 0) = s.mem.rc x
        rw [hi.rep.fits.next, hi.rep.fits.count, hx]
        rfl
      | some q =>
        have hown := hi.rep.own
        have hfresh := hi.rep.fresh
        have hleaving := hi.rep.leaving
        rw [hu] at hown hfresh hleaving
        exact ⟨l, hi.writer hi.balanced hi.rep.fits (hi.writers.keepHand hu rfl rfl rfl rfl) hown (fun _ _ _ _ h => h)
          hfresh hleaving hi.rep.unlinked hx⟩
    | inc q =>
      cases hc
      have hx : s.mem.next n = some q := by
        have hl := hi.later
        rwa [hu] at hl
      refine ⟨_, hi.settled (c := .inc q) hu rfl ?_⟩
      funext x
      change l.count x + (if l.next n = some x then 1 else 0) = Function.update s.mem.rc q (s.mem.rc q + 1) x
      rw [hi.rep.fits.next, hi.rep.fits.count, hx]
      by_cases hxq : x = q
      · simp [hxq]
      · simp [Function.update_of_ne hxq, Ne.symm hxq]
    | dec d =>
      obtain ⟨⟨m₁, d'⟩, hd, he⟩ := Option.map_eq_some_iff.mp hc
      cases he
      exact hi.updaterDec hu hd

theorem Inv.step {a : Act β ρ} (hi : Inv s l) (hs : ListRc.step s a = some s') : ∃ l', Inv s' l' := by
  cases a with
  | begin op k b =>
    obtain ⟨w, hw, rfl⟩ := Option.map_eq_some_iff.mp hs
    exact ⟨l, hi.begin hw⟩
  | update => exact hi.update hs
  | alloc n => exact ⟨_, hi.alloc hs⟩
  | call r k b =>
    simp only [ListRc.step] at hs
    cases hr : s.rd r with
    | idle | returned =>
      rw [hr] at hs
      cases hs
      exact ⟨l, hi.readerStay (by rw [hr]; rfl) (fun h => by rwa [hr] at h) trivial⟩
    | _ => simp [hr] at hs
  | read r =>
    obtain ⟨⟨m', x'⟩, hx, rfl⟩ := Option.map_eq_some_iff.mp hs
    exact hi.read hx

theorem inv_reachable (hs : Reachable (Steps ListRc.step) (.init β ρ) s) : ∃ l, Inv s l := by
  apply hs.invariant (P := fun s => ∃ l, Inv s l)
  · exact ⟨start ρ, .init⟩
  · rintro s a t ⟨l, hi⟩ hr
    exact hi.step hr

end Gecos.ListRc
