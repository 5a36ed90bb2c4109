import Gecos.Rcu.GracePeriod

/-! Safe reclamation in the RCU build, and linearizability of its search. -/
namespace Gecos.ListRcu
open Library
variable {β ρ : Type} {s s' t : State β ρ} {n : Addr} {r : ρ}

/-- What a step leaves alone. -/
abbrev Frame (s s' : State β ρ) : Prop := s.mem.Frame s'.mem (Out s) (Out s')

namespace Inv

section update
variable [DecidableEq β]

/-- An access of list_writer.c. -/
theorem frame_access (h : Inv s) {mw : Mem β × Writer β Unit} (hs : (s.upd ()).step () s.mem = some mw) :
    Frame s (s.put mw) := by
  have hno (x : Addr) : ¬ Leaving (s.upd ()) x := by
    rintro ⟨b, he⟩
    rw [he] at hs
    simp [Writer.step] at hs
  have hpend (x : Addr) (hx : Out s x) : s.pending x = true := hx.resolve_left (hno x)
  apply h.writers.frame_access hs
  · exact fun x hx => (h.pending x (hpend x hx)).2.2
  · exact fun x hx => .inr (hpend x hx)
  · exact fun b x he => .inl ⟨b, by simpa [State.put] using he⟩

theorem frame_update (h : Inv s) (hs : s.update = some s') : Frame s s' := by
  unfold State.update at hs
  split at hs
  case h_1 op k b he | h_2 b res he =>
    cases hs
    refine .still rfl rfl rfl fun x hx => .inl (.inr (hx.resolve_left ?_))
    rintro ⟨b', hl⟩
    rw [he] at hl
    cases hl
  case h_3 b n he =>
    cases hs
    refine .still rfl rfl rfl fun x hx => .inl (.inr ?_)
    rcases hx with ⟨b', hl⟩ | hp
    · rw [he] at hl
      cases hl
      simp
    · change Function.update s.pending n true x = true
      by_cases hxn : x = n
      · simp [hxn]
      · rwa [Function.update_of_ne hxn]
  case h_4 =>
    obtain ⟨mw, hw, rfl⟩ := Option.map_eq_some_iff.mp hs
    exact h.frame_access hw

end update

variable [DecidableEq β] [DecidableEq ρ] [Fintype ρ]

theorem frame {a : Act β ρ} (h : Inv s) (hs : ListRcu.step s a = some s') : Frame s s' := by
  cases a with
  | begin op k b =>
    obtain ⟨w, hw, rfl⟩ := Option.map_eq_some_iff.mp hs
    refine .still rfl rfl rfl fun x hx => .inl (.inr (hx.resolve_left ?_))
    rintro ⟨b', hl⟩
    rw [hl] at hw
    simp [Writer.begin] at hw
  | update => exact h.frame_update hs
  | alloc n =>
    obtain ⟨mw, hw, rfl⟩ := Option.map_eq_some_iff.mp hs
    have hno (x : Addr) : ¬ Leaving (s.upd ()) x := by
      rintro ⟨b', hl⟩
      rw [hl] at hw
      simp [Writer.alloc] at hw
    unfold Writer.alloc at hw
    split at hw
    case h_2 => contradiction
    split at hw <;> cases hw
    exact .still rfl rfl rfl fun x hx => .inl (.inr (hx.resolve_left (hno x)))
  | callback n =>
    change s.callback n = some s' at hs
    unfold State.callback at hs
    split at hs <;> cases hs
    refine .still rfl rfl rfl fun x hx => ?_
    by_cases hxn : x = n
    · exact .inr (by simp [hxn])
    · exact .inl (hx.imp_right fun hp => by simpa [Function.update_of_ne hxn] using hp)
  | call r k b =>
    simp only [ListRcu.step] at hs
    split at hs <;> cases hs <;> exact .still rfl rfl rfl fun x hx => .inl hx
  | read r =>
    obtain ⟨x', hx, rfl⟩ := Option.map_eq_some_iff.mp hs
    exact .still rfl rfl rfl fun x hx => .inl hx

end Inv

theorem Inv.not_pending (h : Inv s) (hg : Guarded s r n) (hl : ¬ s.waits n r = true) : ¬ s.pending n = true := by
  intro hp
  obtain ⟨_, hout, hhand⟩ := h.pending n hp
  rcases hg with ⟨b, hb⟩ | hl' | hw
  · exact hout b hb
  · exact hhand hl'.inHand
  · exact hl hw

section step
variable [DecidableEq β] [DecidableEq ρ] [Fintype ρ] {a : Act β ρ}

theorem pending_step (hs : step s a = some s') (hp : s'.pending n = true) :
    s.pending n = true ∨ Leaving (s.upd ()) n := by
  cases a with
  | begin | alloc =>
    obtain ⟨mw, _, rfl⟩ := Option.map_eq_some_iff.mp hs
    exact .inl hp
  | update =>
    change s.update = some s' at hs
    unfold State.update at hs
    split at hs
    case h_1 | h_2 =>
      cases hs
      exact .inl hp
    case h_3 b x he =>
      cases hs
      by_cases hn : n = x
      · subst hn
        exact .inr ⟨b, he⟩
      · exact .inl (by simpa [State.put, Function.update_of_ne hn] using hp)
    case h_4 =>
      obtain ⟨mw, _, rfl⟩ := Option.map_eq_some_iff.mp hs
      exact .inl hp
  | callback x =>
    change s.callback x = some s' at hs
    unfold State.callback at hs
    split at hs <;> cases hs
    have hn : n ≠ x := by
      rintro rfl
      simp at hp
    exact .inl (by simpa [Function.update_of_ne hn] using hp)
  | call r k b =>
    simp only [step] at hs
    split at hs <;> cases hs <;> exact .inl hp
  | read r =>
    obtain ⟨x, _, rfl⟩ := Option.map_eq_some_iff.mp hs
    exact .inl hp

/-- What lingers for a section lingers until it closes. -/
theorem lingers_step (hs : step s a = some s') (hin : (s.rd r).inSection = true)
    (hin' : (s'.rd r).inSection = true) (hl : Lingers s r n) : Lingers s' r n := by
  cases a with
  | begin op k b =>
    obtain ⟨w, hw, rfl⟩ := Option.map_eq_some_iff.mp hs
    refine hl.imp_left ?_
    rintro ⟨b', he⟩
    rw [he] at hw
    simp [Writer.begin] at hw
  | alloc x =>
    obtain ⟨mw, hw, rfl⟩ := Option.map_eq_some_iff.mp hs
    refine hl.imp_left ?_
    rintro ⟨b', he⟩
    rw [he] at hw
    simp [Writer.alloc] at hw
  | update =>
    change s.update = some s' at hs
    unfold State.update at hs
    split at hs
    case h_3 b x he =>
      cases hs
      right
      change Function.update s.waits x (fun r => (s.rd r).inSection) n r = true
      by_cases hn : n = x
      · subst hn
        simp [hin]
      · rw [Function.update_of_ne hn]
        refine hl.resolve_left ?_
        rintro ⟨b', he'⟩
        rw [he] at he'
        cases he'
        exact hn rfl
    case h_1 | h_2 =>
      rename_i he
      cases hs
      refine hl.imp_left ?_
      rintro ⟨b', he'⟩
      rw [he] at he'
      cases he'
    case h_4 =>
      obtain ⟨mw, hw, rfl⟩ := Option.map_eq_some_iff.mp hs
      refine hl.imp_left ?_
      rintro ⟨b', he⟩
      rw [he] at hw
      simp [Writer.step] at hw
  | callback x =>
    change s.callback x = some s' at hs
    unfold State.callback at hs
    split at hs <;> cases hs
    exact hl
  | call r' k b =>
    simp only [step] at hs
    split at hs <;> cases hs <;> exact hl
  | read r' =>
    obtain ⟨x, _, rfl⟩ := Option.map_eq_some_iff.mp hs
    refine hl.imp_right fun hw => ?_
    by_cases hr : r = r'
    · subst hr
      simpa [hw] using hin'
    · simpa [Function.update_of_ne hr] using hw

/-- What a reader has come to stays guarded until its section closes. -/
theorem Inv.guarded_step (h : Inv s) (hs : ListRcu.step s a = some s') (hin : (s.rd r).inSection = true)
    (hin' : (s'.rd r).inSection = true) (hg : Guarded s r n) : Guarded s' r n := by
  rcases hg with ⟨b, hb⟩ | hl
  · rcases (h.frame hs).linked b n hb with hb' | hl' | hp'
    · exact .inl ⟨b, hb'⟩
    · exact .inr (.inl hl')
    · rcases pending_step hs hp' with hp | hl
      · exact ((h.pending n hp).2.1 b hb).elim
      · exact ((h.out (.inl hl)).2 b hb).elim
  · exact .inr (lingers_step hs hin hin' hl)

/-- `r` has come to `n` in the section it is in, and that section stays open all along `tr`. -/
structure Holds (r : ρ) (n : Addr) (s : State β ρ) (tr : List (Act β ρ × State β ρ)) (t : State β ρ) : Prop where
  start : Reachable (Steps step) (.init β ρ) s
  on : (s.rd r).on = some n
  run : Run (Steps step) s tr t
  stays : ∀ u ∈ states s tr, (u.rd r).inSection = true

theorem Holds.guarded {tr : List (Act β ρ × State β ρ)} (h : Holds r n s tr t) :
    (Inv t ∧ Guarded t r n) ∧ ∀ e ∈ tr, e.1 ≠ .callback n := by
  obtain ⟨h₀, hon, hrun, hst⟩ := h
  have hi := inv_reachable h₀
  induction hrun with
  | nil => exact ⟨⟨hi, hi.on n r hon⟩, by simp⟩
  | @snoc tr t a u htr hr ih =>
    rw [states_snoc] at hst
    obtain ⟨⟨hit, hg⟩, hcb⟩ := ih fun u hu => hst u (by simp [hu])
    have hin := hst t (by simp [htr.end_mem])
    have hin' := hst u (by simp)
    refine ⟨⟨hit.step hr, hit.guarded_step hr hin hin' hg⟩, fun e he => ?_⟩
    rcases List.mem_append.mp he with he | he
    · exact hcb e he
    · obtain rfl := List.mem_singleton.mp he
      rintro rfl
      change t.callback n = some u at hr
      unfold State.callback at hr
      split at hr
      case isFalse => contradiction
      rename_i hc
      exact hit.not_pending hg (by simp [hc.2 r]) hc.1

end step

/-- The table as a reader walks it. -/
abbrev view (β ρ : Type) : Traversal (State β ρ) β Addr Int := Mem.linkedWalk State.mem

/-- What a reader inside `search(k, &heads[b], _)` knows. -/
def Knows (hist : List (State β ρ)) (s : State β ρ) (L : Addr → Prop) (k : Int) (b : β) : Searcher β → Prop
  | .idle => False
  | .lock k' b' | .head k' b' => k' = k ∧ b' = b
  | .key k' cur => k' = k ∧ (view β ρ).At hist s b k L cur
  | .next k' cur => k' = k ∧ (view β ρ).At hist s b k L cur ∧ s.mem.key cur < k
  | .unlock res | .returned res => ∃ m ∈ hist, (res = 1 ↔ m.mem.Member b k)

section knows
variable {hist : List (State β ρ)} {L L' : Addr → Prop} {k : Int} {b : β} {x x' : Searcher β}

theorem Inv.sound (h : Inv s) : (view β ρ).Sound s := Mem.linkedWalk_sound h.writers.table

/-- A guarded node stays linked in its bucket, or lingers. -/
theorem Inv.stays (h : Inv s') (hf : Frame s s') (hL : ∀ x, L x → Lingers s r x) (hi : Inv s)
    (hn : n ∈ s.mem.chain b ∨ L n) (hg : Guarded s' r n) :
    n ∈ s'.mem.chain b ∨ (n ∈ s.mem.chain b ∨ L n) ∧ Lingers s' r n := by
  rcases hg with ⟨b', hb'⟩ | hl
  · rcases hn with hb | hl
    · exact .inl ((hf.linked b n hb).resolve_right fun ho => (h.out ho).2 b' hb')
    · rcases hf.out n (hi.lingers_out (hL n hl)) with ho | hav
      · exact ((h.out ho).2 b' hb').elim
      · rw [h.writers.table.inUse b' n hb'] at hav
        cases hav
  · exact .inr ⟨hn, hl⟩

/-- The trail after a step. -/
theorem Inv.trail (hi : Inv s) (hi' : Inv s') (hf : Frame s s') (hL : ∀ x, L x → Lingers s r x)
    (ht : (view β ρ).Trail hist s b k L) (hm : s ∈ hist) :
    (view β ρ).Trail (hist ++ [s']) s' b k fun x => (x ∈ s.mem.chain b ∨ L x) ∧ Lingers s' r x := by
  refine Mem.Frame.trail hf hi.sound hm ht (fun x hx => hi.lingers_out (hL x hx))
    (fun x hx => ⟨hx.1, (hi'.out (hi'.lingers_out hx.2)).2⟩) fun x q hx hq hreach => ?_
  exact hi'.stays hf hL hi hreach (hi'.lingers_next hx.2 hq)

theorem Knows.evolve (h : Knows hist s L k b x)
    (hkept : ∀ n, x.on = some n → n ∈ s.mem.chain b ∨ L n →
      (n ∈ s'.mem.chain b ∨ L' n) ∧ s'.mem.key n = s.mem.key n) : Knows (hist ++ [s']) s' L' k b x := by
  cases x with
  | idle => exact h
  | lock k' b' | head k' b' => exact h
  | key k' cur =>
    obtain ⟨rfl, h⟩ := h
    exact ⟨rfl, h.evolve (hkept cur rfl h.1).1 (hkept cur rfl h.1).2⟩
  | next k' cur =>
    obtain ⟨rfl, h, hk⟩ := h
    obtain ⟨hk₁, hk₂⟩ := hkept cur rfl h.1
    exact ⟨rfl, h.evolve hk₁ hk₂, by rwa [hk₂]⟩
  | unlock res | returned res =>
    obtain ⟨m, hm, h⟩ := h
    exact ⟨m, by simp [hm], h⟩

theorem knows_loop {p : Ptr} (h : (view β ρ).AtPtr hist s b k L p) : Knows hist s L k b (Searcher.loop k p) := by
  cases p with
  | none =>
    obtain ⟨m, hm, h⟩ := h
    exact ⟨m, hm, iff_of_false (by decide) h⟩
  | some n => exact ⟨rfl, h⟩

/-- What a reader learns by an access of its own. -/
theorem Knows.read (hi : Inv s) (hm : s ∈ hist) (ht : (view β ρ).Trail hist s b k L)
    (h : Knows hist s L k b x) (hs : x.step s.mem = some x') : Knows hist s L k b x' := by
  cases x with
  | idle | returned => cases hs
  | lock k' b' =>
    cases hs
    exact h
  | head k' b' =>
    obtain ⟨rfl, rfl⟩ := h
    cases hs
    exact knows_loop (.first hi.sound hm rfl)
  | key k' cur =>
    obtain ⟨rfl, h⟩ := h
    cases hs
    split
    · obtain ⟨m, hm', hans⟩ := h.answer (by assumption)
      have hres : (if s.mem.key cur = k' then 1 else 0) = 1 ↔ s.mem.key cur = k' := by simp
      exact ⟨m, hm', hres.trans hans⟩
    · exact ⟨rfl, h, by omega⟩
  | next k' cur =>
    obtain ⟨rfl, h, hk⟩ := h
    cases hs
    exact knows_loop (h.advance ht hi.sound hm hk rfl)
  | unlock res =>
    cases hs
    exact h

end knows

variable [DecidableEq β] [DecidableEq ρ] [Fintype ρ]

/-- A completed call of `search(k, &heads[b], _)` by `r` with result `res`; `hist` are the states from
just after the call to just before the return. -/
def Completed (r : ρ) (k : Int) (b : β) (res : Nat) (hist : List (State β ρ)) : Prop :=
  Interval (Steps step) (.init β ρ) (· = .call r k b) (fun a => ∀ k b, a ≠ .call r k b)
    (fun a s => a = .read r ∧ s.rd r = .returned res) hist

omit [DecidableEq ρ] [Fintype ρ] in
theorem update_rd (hs : s.update = some s') : s'.rd = s.rd := by
  unfold State.update at hs
  split at hs
  case h_1 | h_2 | h_3 =>
    cases hs
    rfl
  case h_4 =>
    obtain ⟨_, _, rfl⟩ := Option.map_eq_some_iff.mp hs
    rfl

/-- What a reader knows holds along its call, and right before it returns. -/
theorem search_answers {k : Int} {b : β} {res : Nat} {hist : List (State β ρ)} (h : Completed r k b res hist) :
    ∃ m ∈ hist, (res = 1 ↔ m.mem.Member b k) := by
  obtain ⟨h₀, rfl, hcall, hrun, hone, hret, rfl, hres⟩ := h
  rename_i s₀ s₁ s₂ s₃ tr
  have hi₀ := inv_reachable h₀
  have hknow := hrun.history
    (P := fun hist s => Inv s ∧ s ∈ hist ∧ ∃ L : Addr → Prop, (∀ x, L x → Lingers s r x) ∧
      (view β ρ).Trail hist s b k L ∧ Knows hist s L k b (s.rd r)) ?_ ?_
  · obtain ⟨hi, hm, L, _, ht, hk⟩ := hknow
    obtain ⟨x', hx, rfl⟩ := Option.map_eq_some_iff.mp hret
    have hk' := hk.read hi hm ht hx
    rwa [show x' = .returned res by simpa using hres] at hk'
  · refine ⟨hi₀.step hcall, by simp, fun _ => False, nofun, .empty, ?_⟩
    simp only [Steps, step] at hcall
    split at hcall <;> cases hcall <;> simp [Knows]
  · rintro hist s a s' ⟨hi, hm, L, hL, ht, hk⟩ hr he
    have hi' := hi.step hr
    have hf := hi.frame hr
    have hk' : Knows hist s L k b (s'.rd r) := by
      cases a with
      | begin | alloc =>
        obtain ⟨_, _, rfl⟩ := Option.map_eq_some_iff.mp hr
        exact hk
      | update => rwa [update_rd hr]
      | callback n =>
        change s.callback n = some s' at hr
        unfold State.callback at hr
        split at hr <;> cases hr
        exact hk
      | call r' k' b' =>
        have hne : r ≠ r' := fun he' => hone _ he k' b' (by rw [he'])
        simp only [Steps, step] at hr
        split at hr <;> cases hr <;> simpa [Function.update_of_ne hne] using hk
      | read r' =>
        obtain ⟨x', hx, rfl⟩ := Option.map_eq_some_iff.mp hr
        by_cases hr' : r = r'
        · subst hr'
          simpa using hk.read hi hm ht hx
        · simpa [Function.update_of_ne hr'] using hk
    refine ⟨hi', by simp, _, fun x hx => hx.2, hi.trail hi' hf hL ht hm, hk'.evolve fun n hn hreach => ?_⟩
    exact ⟨hi'.stays hf hL hi hreach (hi'.on n r hn), Mem.Frame.key_same hf (fun x hx => hi.lingers_out (hL x hx)) hreach⟩

/-- The RCU build frees no node under a reader, and its search is linearizable. -/
theorem rcu_search_sound (β ρ : Type) [DecidableEq β] [DecidableEq ρ] [Fintype ρ] :
    (∀ (r : ρ) (n : Addr) (s : State β ρ) tr t, Holds r n s tr t →
      t.mem.avail n = false ∧ ∀ e ∈ tr, e.1 ≠ .callback n) ∧
    ∀ (r : ρ) (k : Int) (b : β) (res : Nat) (hist : List (State β ρ)), Completed r k b res hist →
      ∃ m ∈ hist, (res = 1 ↔ m.mem.Member b k) := by
  refine ⟨fun r n s tr t h => ?_, fun r k b res hist h => search_answers h⟩
  obtain ⟨⟨hi, hg⟩, hcb⟩ := h.guarded
  exact ⟨hi.guarded_inUse hg, hcb⟩

/-- `insert(1)` with node 0. -/
def oneInsert : List (Act Unit Unit) :=
  [.begin .insert 1 (), .update, .update, .alloc 0, .update, .update, .update, .update]

theorem rcu_search_sound_held :
    (∃ (s : State Unit Unit) (tr : _) (t : _), Holds () 0 s tr t ∧ t.pending 0 = true ∧ t.mem.avail 0 = false) ∧
    ∃ hist : List (State Unit Unit), Completed () 1 () 1 hist ∧ ∃ m ∈ hist, (1 = 1 ↔ m.mem.Member () 1) := by
  constructor
  · have h : (exec step (.init Unit Unit) (oneInsert ++ [Act.call () 1 (), .read (), .read ()])).any fun s =>
        decide ((s.rd ()).on = some 0 ∧ (∀ u ∈ states s (execTrace step s (.begin .delete 1 () :: List.replicate 8 .update)),
          (u.rd ()).inSection = true) ∧ (exec step s (.begin .delete 1 () :: List.replicate 8 .update)).any fun t =>
            t.pending 0) := by decide +kernel
    obtain ⟨s, hs, hp⟩ := Option.any_eq_true _ _ |>.mp h
    obtain ⟨hon, hst, hd⟩ := of_decide_eq_true hp
    obtain ⟨t, ht, hpend⟩ := Option.any_eq_true _ _ |>.mp hd
    have hh : Holds () 0 s _ t := ⟨⟨_, exec_run hs⟩, hon, exec_run ht, hst⟩
    exact ⟨s, _, t, hh, hpend, ((rcu_search_sound Unit Unit).1 () 0 s _ t hh).1⟩
  · have h : (exec step (.init Unit Unit) (oneInsert ++
        (Act.call () 1 () :: (List.replicate 3 (Act.read ()) ++ [Act.read ()])))).any fun s => decide (s.rd () = .returned 1) := by
      decide +kernel
    obtain ⟨hist, hc⟩ : ∃ hist : List (State Unit Unit), Completed () 1 () 1 hist :=
      Interval.of_exec h rfl (by simp) fun _ ht => ⟨rfl, of_decide_eq_true ht⟩
    exact ⟨hist, hc, (rcu_search_sound Unit Unit).2 () 1 () 1 hist hc⟩

end Gecos.ListRcu
