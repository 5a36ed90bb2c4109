import Gecos.Refcount.Updater

/-! When the reference-counting build frees a node, and what it leaves behind. -/
namespace Gecos.ListRc
open Library Ledger
variable {β ρ : Type}

/-- The references of a reader: what `safe_read` returned and it has not dropped yet, what it is
about to return, and what a node that the reader is freeing passed on. -/
def Searcher.refs (x : Searcher β) : Multiset Addr := x.dec.elim 0 Dec.held + x.extra

namespace State

/-- The `lfrc_refcnt_dec` that a thread is in; the updater is thread `none`. -/
def dec (s : State β ρ) : Option ρ → Option Dec
  | none => decOf (s.upd ())
  | some r => (s.rd r).dec

/-- The node that a step passes to `free_node`. -/
def freed (s : State β ρ) : Act β ρ → Option Addr
  | .update => freeing (s.dec none)
  | .read r => freeing (s.dec (some r))
  | _ => none

/-- No operation is in progress. -/
structure Idle (s : State β ρ) : Prop where
  updater : s.upd () = .ready ∨ ∃ res, s.upd () = .returned res
  readers : ∀ r, s.rd r = .idle ∨ ∃ res, s.rd r = .returned res

/-- What `free_node(p)` may rely on: `p` is not linked, no reader has a reference to it, nor has an
unlinked node but those that wait for their own `free_node` after the call for their successor. -/
structure Unused (s : State β ρ) (p : Addr) : Prop where
  linked : ∀ b, ¬ Reach s.mem.next (s.mem.heads b) p
  read : ∀ r, p ∉ (s.rd r).refs
  pointed : ∀ x, s.unlinked x = true → s.mem.next x = some p →
    s.mem.rc x = 0 ∧ ∃ t d, s.dec t = some d ∧ x ∈ d.spent
  inUse : s.mem.avail p = false

/-- What holds in every state. -/
structure Safe (s : State β ρ) : Prop where
  asserts : ∀ t stack p, s.dec t = some (.check stack p) → 0 < s.mem.rc p
  frees : ∀ a p, s.freed a = some p → s.Unused p
  idle : s.Idle → ∀ n, (s.mem.avail n = false → (∃ b, Reach s.mem.next (s.mem.heads b) n) ∧ s.mem.rc n = 1) ∧
    (s.mem.avail n = true → s.mem.rc n = 0)

end State

variable [Fintype ρ] {s s' : State β ρ} {l : Ledger (Option ρ) Addr} {a : Act β ρ} {n p x : Addr} {t : Option ρ} {d : Dec}

omit [Fintype ρ] in
theorem freed_thread (h : s.freed a = some p) : ∃ t, freeing (s.dec t) = some p := by
  cases a with
  | update => exact ⟨none, h⟩
  | read r => exact ⟨some r, h⟩
  | begin | alloc | call => cases h

omit [Fintype ρ] in
theorem spent_of_freeing {d : Option Dec} (h : freeing d = some p) : p ∈ d.elim [] Dec.spent := by
  cases d with
  | none => cases h
  | some d =>
    cases d <;> cases h
    exact List.mem_cons_self

namespace Inv

theorem holds (hi : Inv s l) (t : Option ρ) : ∃ y, Holds l t (s.dec t) y := by
  cases t with
  | none => exact ⟨_, hi.rep.own⟩
  | some r => exact ⟨_, hi.rep.readers r⟩

theorem zero_count (hi : Inv s l) (h : (l.home n).Zero) : s.mem.rc n = 0 := by
  rw [← hi.rep.fits.count]
  exact hi.balanced.zero n h

theorem linked_iff (hi : Inv s l) : (∃ b, Reach s.mem.next (s.mem.heads b) n) ↔ l.home n = .linked := by
  rw [← hi.rep.fits.linked]
  exact exists_congr fun b => Chain.reach_iff (hi.writers.table.ends b)

/-- Who is about to drop a reference has it counted. -/
theorem assert_holds (hi : Inv s l) {stack : List Addr} (h : s.dec t = some (.check stack p)) : 0 < s.mem.rc p := by
  obtain ⟨y, hy⟩ := hi.holds t
  have hheld := hy.held
  rw [h] at hheld
  rw [← hi.rep.fits.count]
  exact hi.balanced.pos_of_held (t := t) (by simp [hheld, Dec.held])

/-- The updater keeps the successor of the node that it has just unlinked in its bucket. -/
theorem leaving_next (hi : Inv s l) (hx : l.home x = .leaving) (hn : s.mem.next x = some p) : l.home p = .linked := by
  have hl := (hi.rep.leaving x).mp hx
  have hf := hi.writers.facts ()
  cases hu : s.upd () with
  | freeNodeLater b cur c =>
    rw [hu] at hl hf
    have hc : cur = x := by
      cases c with
      | loadNext | inc => exact Option.some.inj hl
      | dec => cases hl
    subst hc
    obtain ⟨l₁, l₂, hch, hnext, _⟩ := hf
    rw [hnext] at hn
    have hm := List.mem_of_head? hn
    apply (hi.rep.fits.linked p).mp
    exact ⟨b, by rcases hch with hch | hch <;> simp [hch, hm]⟩
  | _ => simp [hu, leavingOf] at hl

/-- A node that counts as a reference to its successor does so. -/
theorem points_pos (hi : Inv s l) (hx : (l.home x).Points) (hn : s.mem.next x = some p) : 0 < s.mem.rc p := by
  have hpoint : 0 < pointers l.next l.limbo p := by
    apply List.countP_pos_iff.mpr
    refine ⟨x, (hi.balanced.limbo x).mpr hx, ?_⟩
    rw [hi.rep.fits.next, hn]
    simp
  have hc := hi.balanced.count p
  rw [hi.rep.fits.count] at hc
  omega

theorem unused (hi : Inv s l) (h : freeing (s.dec t) = some p) : s.Unused p := by
  obtain ⟨y, hy⟩ := hi.holds t
  have hspent : l.home p = .spent t := (hy.spent p).mpr (spent_of_freeing h)
  have hzero : s.mem.rc p = 0 := hi.zero_count (by rw [hspent]; trivial)
  refine ⟨fun b hb => ?_, fun r hr => ?_, fun x hun hnext => ?_, ?_⟩
  · have := hi.linked_iff.mp ⟨b, hb⟩
    rw [hspent] at this
    cases this
  · have hpos := hi.balanced.pos_of_held (t := some r) (p := p) (by rw [(hi.rep.readers r).held]; exact hr)
    rw [hi.rep.fits.count] at hpos
    omega
  · have hout := (hi.rep.unlinked x).mp hun
    cases hx : l.home x with
    | free | linked | fresh =>
      rw [hx] at hout
      exact hout.elim
    | leaving =>
      have := hi.leaving_next hx hnext
      rw [hspent] at this
      cases this
    | limbo | dying =>
      have := hi.points_pos (by rw [hx]; trivial) hnext
      omega
    | spent u =>
      refine ⟨hi.zero_count (by rw [hx]; trivial), u, ?_⟩
      obtain ⟨z, hz⟩ := hi.holds u
      have hm := (hz.spent x).mp hx
      cases hd : s.dec u with
      | none => simp [hd] at hm
      | some d => exact ⟨d, rfl, by simpa [hd] using hm⟩
  · rw [Bool.eq_false_iff]
    intro hav
    have := (hi.rep.fits.avail p).mp hav
    rw [hspent] at this
    cases this

theorem idle (hi : Inv s l) (h : s.Idle) (n : Addr) :
    (s.mem.avail n = false → (∃ b, Reach s.mem.next (s.mem.heads b) n) ∧ s.mem.rc n = 1) ∧
      (s.mem.avail n = true → s.mem.rc n = 0) := by
  have hown := hi.rep.own
  have hready : decOf (s.upd ()) = none ∧ extraOf (s.upd ()) = 0 ∧ freshOf (s.upd ()) = none := by
    rcases h.updater with hu | ⟨res, hu⟩ <;> rw [hu] <;> exact ⟨rfl, rfl, rfl⟩
  have hnone (t : Option ρ) : Holds l t none 0 := by
    cases t with
    | none => rwa [hready.1, hready.2.1] at hown
    | some r =>
      have hr := hi.rep.readers r
      rcases h.readers r with hu | ⟨res, hu⟩ <;> rw [hu] at hr <;> exact hr
  have hdying (n : Addr) (t : Option ρ) : l.home n ≠ .dying t := fun he => nomatch ((hnone t).dying n).mp he
  obtain ⟨hcount, hpoint, hleaving⟩ := hi.balanced.quiet (fun t => (hnone t).held) hdying n
  rw [hi.rep.fits.count] at hcount
  rw [← hcount]
  refine ⟨fun hav => ?_, fun hav => ?_⟩
  · have hlinked : l.home n = .linked := by
      cases hn : l.home n with
      | linked => rfl
      | free =>
        have := (hi.rep.fits.avail n).mpr hn
        simp [hav] at this
      | fresh =>
        have := (hi.rep.fresh n).mp hn
        simp [hready.2.2] at this
      | leaving => exact (hleaving hn).elim
      | limbo | dying =>
        rw [hn] at hpoint
        exact (hpoint trivial).elim
      | spent t => exact (nomatch ((hnone t).spent n).mp hn)
    rw [hlinked]
    exact ⟨hi.linked_iff.mpr hlinked, rfl⟩
  · rw [(hi.rep.fits.avail n).mp hav]
    rfl

theorem safe (hi : Inv s l) : s.Safe where
  asserts _ _ _ h := hi.assert_holds h
  frees a p h := by
    obtain ⟨t, ht⟩ := freed_thread h
    exact hi.unused ht
  idle h := hi.idle h

end Inv

/-- `lfrc_refcnt_dec` frees exactly the node that it is about to. -/
theorem dec_avail {m m' : Mem β} {d' : Option Dec} (hs : d.step m = some (m', d')) :
    m'.avail p = true ↔ freeing (some d) = some p ∨ m.avail p = true := by
  rw [(dec_mem hs).2.2.2]
  cases freeing (some d) with
  | none => simp
  | some q =>
    by_cases hp : p = q
    · simp [hp]
    · simp [Function.update_of_ne hp, Ne.symm hp]

theorem searcher_avail {m m' : Mem β} {x x' : Searcher β} (hs : x.step m = some (m', x')) :
    m'.avail p = true ↔ freeing x.dec = some p ∨ m.avail p = true := by
  cases x with
  | idle | returned => cases hs
  | load | loadRc | recheck | key | keyAgain =>
    cases hs
    simp [Searcher.dec, freeing]
  | cas =>
    simp only [Searcher.step] at hs
    split at hs <;> cases hs <;> simp [Searcher.dec, freeing]
  | undo k lk d | pass k next d | release res d =>
    obtain ⟨⟨m₁, d'⟩, hd, he⟩ := Option.map_eq_some_iff.mp hs
    cases he
    exact dec_avail hd

section runs
variable [DecidableEq β]

theorem Inv.update_avail (hi : Inv s l) (hs : s.update = some s') :
    s'.mem.avail p = true ↔ freeing (decOf (s.upd ())) = some p ∨ s.mem.avail p = true := by
  have haccess {m' : Mem β} {w' : Writer β Later} (hd : decOf (s.upd ()) = none)
      (hw : (s.upd ()).step .loadNext s.mem = some (m', w')) :
      m'.avail p = true ↔ freeing (decOf (s.upd ())) = some p ∨ s.mem.avail p = true := by
    obtain ⟨_, _, _, _, _, hav, _⟩ := hi.writers.step_keeps hw
    rw [hav, hd]
    simp [freeing]
  cases hu : s.upd () with
  | ready | initNewNode | returned => simp [State.update, hu, Writer.step] at hs
  | emptyTest | loadHead | loadKey | loadKeyAgain | advance | loadNext | storeKey | storeNext | link | unlink =>
    rw [hu] at haccess
    simp only [State.update, hu] at hs
    obtain ⟨⟨m', w⟩, hw, rfl⟩ := Option.map_eq_some_iff.mp hs
    exact haccess rfl hw
  | wlock | wunlock | handOver =>
    simp only [State.update, hu] at hs
    cases hs
    simp [State.put, decOf, freeing]
  | freeNodeLater b n c =>
    simp only [State.update, hu] at hs
    obtain ⟨⟨m', c'⟩, hc, rfl⟩ := Option.map_eq_some_iff.mp hs
    cases c with
    | loadNext | inc =>
      cases hc
      simp [State.put, decOf, freeing]
    | dec d =>
      obtain ⟨⟨m₁, d'⟩, hd, he⟩ := Option.map_eq_some_iff.mp hc
      cases he
      exact dec_avail hd

variable [DecidableEq ρ]

/-- A node is available from its `free_node` to the `new_node` that returns it. -/
theorem Inv.avail (hi : Inv s l) (hs : ListRc.step s a = some s') (ha : a ≠ .alloc p)
    (h : s.freed a = some p ∨ s.mem.avail p = true) : s'.mem.avail p = true := by
  cases a with
  | begin op k b =>
    obtain ⟨w, hw, rfl⟩ := Option.map_eq_some_iff.mp hs
    exact h.resolve_left (fun he => by cases he)
  | update => exact (hi.update_avail hs).mpr h
  | alloc n =>
    have hn : p ≠ n := fun he => ha (by rw [he])
    change s.alloc n = some s' at hs
    unfold State.alloc at hs
    split at hs
    case h_2 => contradiction
    split at hs <;> cases hs
    exact (Function.update_of_ne hn _ _).trans (h.resolve_left (fun he => by cases he))
  | call r k b =>
    simp only [ListRc.step] at hs
    split at hs <;> cases hs <;> exact h.resolve_left (fun he => by cases he)
  | read r =>
    obtain ⟨⟨m', x'⟩, hx, rfl⟩ := Option.map_eq_some_iff.mp hs
    exact (searcher_avail hx).mpr h

theorem avail_run {tr : List (Act β ρ × State β ρ)} (hi : Inv s l) (hav : s.mem.avail p = true)
    (hrun : Run (Steps step) s tr s') (hno : ∀ e ∈ tr, e.1 ≠ .alloc p) :
    (∃ l, Inv s' l) ∧ s'.mem.avail p = true := by
  induction hrun with
  | nil => exact ⟨⟨l, hi⟩, hav⟩
  | @snoc tr t a u _ hr ih =>
    obtain ⟨⟨l', hi'⟩, hav'⟩ := ih fun e he => hno e (by simp [he])
    exact ⟨hi'.step hr, hi'.avail hr (hno (a, u) (by simp)) (.inr hav')⟩

/-- In every state that one updater and the readers reach, assertions hold, a node is freed when
nobody has it any more, and at rest only the linked nodes count; and no node is freed twice
without having been handed out in between. -/
theorem counting_sound (hs : Reachable (Steps step) (.init β ρ) s) :
    s.Safe ∧ ∀ p a s' tr u a', s.freed a = some p → step s a = some s' → Run (Steps step) s' tr u →
      (∀ e ∈ tr, e.1 ≠ .alloc p) → u.freed a' ≠ some p := by
  obtain ⟨l, hi⟩ := inv_reachable hs
  refine ⟨hi.safe, fun p a s' tr u a' hf hstep hrun hno hf' => ?_⟩
  have ha : a ≠ .alloc p := by
    rintro rfl
    cases hf
  obtain ⟨l', hi'⟩ := hi.step hstep
  obtain ⟨⟨l₂, hi₂⟩, hav⟩ := avail_run hi' (hi.avail hstep ha (.inl hf)) hrun hno
  have hused := (hi₂.safe.frees a' p hf').inUse
  simp [hav] at hused

end runs

/-- Two calls of `insert`. -/
abbrev twoInserts : List (Act Unit Unit) :=
  [[.begin .insert 1 (), .update, .update, .alloc 0], List.replicate 5 .update,
    [.begin .insert 2 (), .update, .update, .update, .update, .alloc 1], List.replicate 5 .update].flatten

/-- A reader pauses on the first of two nodes, both are deleted, and the reader's release of the
first goes on to the second. -/
abbrev cascade : List (Act Unit Unit) :=
  [twoInserts, [.call () 1 ()], List.replicate 4 (.read ()), [.begin .delete 1 ()], List.replicate 12 .update,
    [.begin .delete 2 ()], List.replicate 11 .update, List.replicate 12 (.read ())].flatten

theorem counting_sound_cascade : ∃ s : State Unit Unit, s.freed (.read ()) = some 1 ∧ s.Unused 1 := by
  have h : (exec step (.init Unit Unit) cascade).any fun s => decide (s.freed (.read ()) = some 1) := by
    decide +kernel
  obtain ⟨s, hs, hf⟩ := (Option.any_eq_true _ _).mp h
  have hf := of_decide_eq_true hf
  exact ⟨s, hf, (counting_sound ⟨_, exec_run hs⟩).1.frees _ _ hf⟩

/-- The second node is freed first, while the first still points to it. -/
theorem freed_below_unlinked : ∃ s s' : State Unit Unit, Reachable (Steps step) (.init Unit Unit) s ∧
    s.unlinked 0 = true ∧ s.mem.avail 0 = false ∧ s.mem.next 0 = some 1 ∧
    s.freed (.read ()) = some 1 ∧ step s (.read ()) = some s' ∧ s'.unlinked 0 = true ∧ s'.mem.next 0 = some 1 := by
  have h : (exec step (.init Unit Unit) cascade).any fun s =>
      decide (s.unlinked 0 = true ∧ s.mem.avail 0 = false ∧ s.mem.next 0 = some 1 ∧ s.freed (.read ()) = some 1) &&
      (step s (.read ())).any fun s' => decide (s'.unlinked 0 = true ∧ s'.mem.next 0 = some 1) := by
    decide +kernel
  obtain ⟨s, hs, hp⟩ := (Option.any_eq_true _ _).mp h
  rw [Bool.and_eq_true] at hp
  obtain ⟨s', hs', hp'⟩ := (Option.any_eq_true _ _).mp hp.2
  obtain ⟨h₁, h₂, h₃, h₄⟩ := of_decide_eq_true hp.1
  obtain ⟨h₅, h₆⟩ := of_decide_eq_true hp'
  exact ⟨s, s', ⟨_, exec_run hs⟩, h₁, h₂, h₃, h₄, hs', h₅, h₆⟩

end Gecos.ListRc
