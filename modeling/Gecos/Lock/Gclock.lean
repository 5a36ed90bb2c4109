import Gecos.Library.Traversal
import Gecos.Lock.Invariant
import Gecos.Table.Walk

/-! Linearizability of the search of list_lock.c under GCLOCK: what a reader went through counts
only if the version is the same at the end. -/
namespace Gecos.ListLock
open Library
variable {β υ ρ : Type} {B : Build υ} {s s' : State β υ ρ} {b : β} {n : Addr} {u : υ}

/-- Linked in `b`, or unlinked from it with the version not incremented yet. -/
def Live (s : State β υ ρ) (b : β) (n : Addr) : Prop :=
  n ∈ s.mem.chain b ∨ ∃ u, (s.upd u).writer = .freeNodeLater b n ()

/-- The table as a reader walks it, with the version of the bucket as the stamp. -/
abbrev view (B : Build υ) (β ρ : Type) : Traversal (State β υ ρ) β Addr Int :=
  Mem.walk State.mem (fun s b _ => B.version (s.mem.locks b)) Live

theorem Inv.sound [DecidableEq β] (h : Inv B s) : (view B β ρ).Sound s := by
  apply Mem.walk_sound State.mem _ Live h.writers.table
  · exact fun b n hn => .inl hn
  · rintro b n (hn | ⟨u, hu⟩)
    · exact h.writers.table.around hn
    · have hf := h.writers.facts u
      rwa [hu] at hf

section evolve
variable [DecidableEq β] [DecidableEq υ] {m' : Mem β} {x' : Updater β} {t g : Option β} {took gave : υ → β → Nat}
  {rd : ρ → Searcher β}

omit [DecidableEq β] [DecidableEq υ] in
/-- A version is the word or, without `ONE_WRITER`, its half. -/
theorem version_enter (hB : B.macros = .gclock) {w w' : Nat} (hm : B.marks → w % 2 = 0 ∧ w' = w + 1)
    (hn : ¬ B.marks → w' = w) : B.version w' = B.version w := by
  by_cases hk : B.marks
  · have ho : B.oneWriter = false := hk.resolve_left (by simp [hB])
    have := hm hk
    simp only [Build.version, hB, ho, Nat.shiftRight_eq_div_pow]
    omega
  · rw [hn hk]

omit [DecidableEq β] [DecidableEq υ] in
theorem version_leave (hB : B.macros = .gclock) {w : Nat} (hm : B.marks → w % 2 = 1) :
    B.version (w + 1) = B.version w + 1 := by
  cases ho : B.oneWriter with
  | true => simp [Build.version, hB, ho]
  | false =>
    have := hm (.inr ho)
    simp only [Build.version, hB, ho, Nat.shiftRight_eq_div_pow]
    omega

omit [DecidableEq β] in
/-- Nodes that stay live while the version is the same. -/
theorem Live.put (h : Live s b n)
    (hc : n ∈ s.mem.chain b → n ∈ m'.chain b ∨ x'.writer = .freeNodeLater b n ())
    (hu : (s.upd u).writer = .freeNodeLater b n () → x'.writer = .freeNodeLater b n ()) :
    Live ⟨m', Function.update s.upd u x', rd, took, gave⟩ b n := by
  rcases h with h | ⟨v, hv⟩
  · rcases hc h with h | hx
    · exact .inl h
    · exact .inr ⟨u, by simpa using hx⟩
  · by_cases hne : v = u
    · subst hne
      exact .inr ⟨v, by simpa using hu hv⟩
    · exact .inr ⟨v, by simpa [Function.update_of_ne hne] using hv⟩

/-- A move of an updater leaves a reader's knowledge intact. -/
theorem Inv.evolves (h : Inv B s) (hB : B.macros = .gclock) (hm : Moves B s.mem (s.upd u) m' x' t g) :
    (view B β ρ).Evolves s ⟨m', Function.update s.upd u x', rd, took, gave⟩ := by
  cases hm with
  | access w m' w' hx hw =>
    have hw' : (s.upd u).writer.step () s.mem = some (m', w') := by rw [hx]; exact hw
    obtain ⟨hkey, hch, _, _, hlk, _⟩ := h.writers.step_keeps (u := u) hw'
    have hnot (b : β) (n : Addr) : (s.upd u).writer ≠ .freeNodeLater b n () := by
      intro he
      rw [he] at hw'
      simp [Writer.step] at hw'
    intro b n
    refine ⟨le_of_eq (congrArg B.version (congrFun hlk b)).symm, fun hl _ => ⟨?_, hkey n fun hin => ?_⟩⟩
    · exact hl.put (fun hn => (hch b n hn).imp_right fun he => he) fun hu => (hnot b n hu).elim
    · rcases hl with hl | ⟨v, hv⟩
      · exact (h.writers.fresh u n hin).2 b hl
      · have he := h.writers.alone v u n (by rw [hv]; rfl) hin
        exact hnot b n (he ▸ hv)
  | rest x' hx => exact fun b n => ⟨le_rfl, fun hl _ => ⟨hl.put .inl fun hu => hx.trans hu, rfl⟩⟩
  | enter op k b' w x' hx hx' _ _ hmk hno =>
    intro b n
    have hst : B.version (Function.update s.mem.locks b' w b) = B.version (s.mem.locks b) := by
      by_cases hb : b = b'
      · subst hb
        simpa using version_enter hB hmk hno
      · rw [Function.update_of_ne hb]
    exact ⟨le_of_eq hst.symm, fun hl _ => ⟨hl.put .inl fun hu => (by cases hx.symm.trans hu), rfl⟩⟩
  | leave b' e hx =>
    have hin : (s.upd u).inside = some b' := by
      refine (congrArg Writer.inside hx).trans ?_
      cases e <;> rfl
    have hv := version_leave hB fun hk => (h.word hk b').mpr ⟨u, hin⟩
    intro b n
    by_cases hb : b = b'
    · subst hb
      have hst : B.version (Function.update s.mem.locks b (s.mem.locks b + 1) b) = B.version (s.mem.locks b) + 1 := by
        simpa using hv
      refine ⟨by simp only [Mem.walk]; omega, fun _ he => ?_⟩
      simp only [Mem.walk] at he
      omega
    · have hst : Function.update s.mem.locks b' (s.mem.locks b' + 1) b = s.mem.locks b := Function.update_of_ne hb _ _
      refine ⟨le_of_eq (congrArg B.version hst).symm, fun hl _ => ⟨hl.put .inl fun hu => ?_, rfl⟩⟩
      exact (hb (Option.some.inj ((congrArg Writer.inside hu).symm.trans hin))).elim
  | freeInside b' x hx _ hk =>
    rw [hB] at hk
    cases hk
  | free x hx =>
    have hno (b : β) (n : Addr) : (s.upd u).writer ≠ .freeNodeLater b n () := by
      rw [hx]
      intro he
      cases he
    exact fun b n => ⟨le_rfl, fun hl _ => ⟨hl.put .inl fun hu => (hno b n hu).elim, rfl⟩⟩

variable [DecidableEq ρ]

theorem Inv.evolves_step {a : Act β υ ρ} (h : Inv B s) (hB : B.macros = .gclock) (hs : ListLock.step B s a = some s') :
    (view B β ρ).Evolves s s' := by
  cases a with
  | begin v op k b =>
    obtain ⟨x', hx, rfl⟩ := Option.map_eq_some_iff.mp hs
    exact fun b n => ⟨le_rfl, fun hl _ => ⟨hl.put .inl fun hu => (begin_outside hx b n hu).elim, rfl⟩⟩
  | update v =>
    obtain ⟨⟨m', x'⟩, hx, rfl⟩ := Option.map_eq_some_iff.mp hs
    exact h.evolves hB (h.moves hx)
  | alloc v n =>
    obtain ⟨⟨m', x'⟩, hx, rfl⟩ := Option.map_eq_some_iff.mp hs
    obtain ⟨hno, hk, hn, hh, hlk⟩ := alloc_outside hx
    refine fun b n => ⟨le_of_eq (congrArg B.version (congrFun hlk b)).symm, fun hl _ => ⟨hl.put (fun hm => .inl ?_)
      fun hu => (hno b n hu).elim, congrFun hk n⟩⟩
    simpa [Mem.chain, hn, hh] using hm
  | call r k b =>
    simp only [ListLock.step] at hs
    split at hs <;> cases hs <;> exact fun b n => ⟨le_rfl, fun hl _ => ⟨hl, rfl⟩⟩
  | read r =>
    obtain ⟨x, _, rfl⟩ := Option.map_eq_some_iff.mp hs
    exact fun b n => ⟨le_rfl, fun hl _ => ⟨hl, rfl⟩⟩

end evolve

/-- What a reader inside `search(k, &heads[b], &locks[b])` knows: all of it counts only while the
version is the one it saved. -/
def Knows (B : Build υ) (hist : List (State β υ ρ)) (s : State β υ ρ) (k : Int) (b : β) : Searcher β → Prop
  | .idle => False
  | .rlock k' b' => k' = k ∧ b' = b
  | .head k' b' v => (k' = k ∧ b' = b) ∧ v ≤ B.version (s.mem.locks b)
  | .validate k' b' v cur | .key k' b' v cur => (k' = k ∧ b' = b) ∧ (view B β ρ).Held hist s b k cur v
  | .next k' b' v cur => (k' = k ∧ b' = b) ∧ (view B β ρ).Held hist s b k cur v ∧
    (B.version (s.mem.locks b) = v → s.mem.key cur < k)
  | .validateCur k' b' v cur => (k' = k ∧ b' = b) ∧ v ≤ B.version (s.mem.locks b) ∧
    (B.version (s.mem.locks b) = v → (view B β ρ).HeldPtr hist s b k v cur)
  | .runlock k' b' v res => (k' = k ∧ b' = b) ∧ v ≤ B.version (s.mem.locks b) ∧
    (B.version (s.mem.locks b) = v → ∃ m ∈ hist, (res = 1 ↔ m.mem.Member b k))
  | .returned res => ∃ m ∈ hist, (res = 1 ↔ m.mem.Member b k)

section knows
variable {hist : List (State β υ ρ)} {k : Int} {v : Nat} {x x' : Searcher β}

/-- A version that is still the one saved was so before the step. -/
theorem version_back (he : (view B β ρ).Evolves s s') (hv : v ≤ B.version (s.mem.locks b))
    (h : B.version (s'.mem.locks b) = v) : B.version (s.mem.locks b) = v :=
  le_antisymm (le_trans (he b 0).1 (le_of_eq h)) hv

theorem Knows.evolve (h : Knows B hist s k b x) (he : (view B β ρ).Evolves s s') : Knows B (hist ++ [s']) s' k b x := by
  cases x with
  | idle | rlock => exact h
  | head k' b' v => exact ⟨h.1, le_trans h.2 (he b 0).1⟩
  | validate k' b' v cur | key k' b' v cur => exact ⟨h.1, h.2.evolve he⟩
  | next k' b' v cur =>
    obtain ⟨hkb, hh, hk⟩ := h
    refine ⟨hkb, hh.evolve he, fun hv => ?_⟩
    have hv' := version_back he hh.1 hv
    have hkey := ((he b cur).2 (hh.2 hv').1 (hv.trans hv'.symm)).2
    exact lt_of_eq_of_lt hkey (hk hv')
  | validateCur k' b' v cur =>
    obtain ⟨hkb, hle, hp⟩ := h
    exact ⟨hkb, le_trans hle (he b 0).1, fun hv => (hp (version_back he hle hv)).evolve he⟩
  | runlock k' b' v res =>
    obtain ⟨hkb, hle, hr⟩ := h
    refine ⟨hkb, le_trans hle (he b 0).1, fun hv => ?_⟩
    obtain ⟨m, hm, h⟩ := hr (version_back he hle hv)
    exact ⟨m, by simp [hm], h⟩
  | returned res =>
    obtain ⟨m, hm, h⟩ := h
    exact ⟨m, by simp [hm], h⟩

theorem knows_loop {p : Ptr} (hle : v ≤ B.version (s.mem.locks b))
    (h : B.version (s.mem.locks b) = v → (view B β ρ).HeldPtr hist s b k v p) :
    Knows B hist s k b (Searcher.loop B k b v p) := by
  cases p with
  | none =>
    refine ⟨⟨rfl, rfl⟩, hle, fun hv => ?_⟩
    obtain ⟨m, hm, h⟩ := h hv
    exact ⟨m, hm, iff_of_false (by decide) h⟩
  | some n =>
    have hh : (view B β ρ).Held hist s b k n v := ⟨hle, fun hv => (h hv).2 hv⟩
    cases hval : B.validates with
    | true =>
      simp only [Searcher.loop, hval, if_true]
      exact ⟨⟨rfl, rfl⟩, hh⟩
    | false =>
      simp only [Searcher.loop, hval]
      exact ⟨⟨rfl, rfl⟩, hh⟩

theorem knows_validated {y : Searcher β} (h : B.version (s.mem.locks b) = v → Knows B hist s k b y) :
    Knows B hist s k b (Searcher.validated B s.mem k b v y) := by
  unfold Searcher.validated
  split
  · exact ⟨rfl, rfl⟩
  · rename_i hv
    exact h (not_not.mp hv).symm

/-- What a reader learns by an access of its own. -/
theorem Knows.read (hs : (view B β ρ).Sound s) (hm : s ∈ hist) (hB : B.macros = .gclock) (h : Knows B hist s k b x)
    (hx : x.step B s.mem = some x') : Knows B hist s k b x' := by
  cases x with
  | idle | returned => cases hx
  | rlock k' b' =>
    obtain ⟨rfl, rfl⟩ := h
    simp only [Searcher.step, hB, reduceCtorEq, false_and, if_false, Option.some.injEq] at hx
    subst hx
    exact ⟨⟨rfl, rfl⟩, le_rfl⟩
  | head k' b' v =>
    obtain ⟨⟨rfl, rfl⟩, hle⟩ := h
    cases hx
    refine knows_loop hle fun hv => ?_
    cases hh : s.mem.heads b' with
    | none => exact ⟨s, hm, hs.first_none b' k' hh⟩
    | some n => exact .first hs hm hh hle
  | validate k' b' v cur =>
    obtain ⟨⟨rfl, rfl⟩, hh⟩ := h
    cases hx
    exact knows_validated fun _ => ⟨⟨rfl, rfl⟩, hh⟩
  | key k' b' v cur =>
    obtain ⟨⟨rfl, rfl⟩, hh⟩ := h
    cases hx
    split
    · rename_i hk
      refine ⟨⟨rfl, rfl⟩, hh.1, fun hv => ?_⟩
      obtain ⟨m, hm', hans⟩ := hh.answer hv hk
      have hres : (if s.mem.key cur = k' then 1 else 0) = 1 ↔ s.mem.key cur = k' := by simp
      exact ⟨m, hm', hres.trans hans⟩
    · exact ⟨⟨rfl, rfl⟩, hh, fun _ => by omega⟩
  | next k' b' v cur =>
    obtain ⟨⟨rfl, rfl⟩, hh, hk⟩ := h
    have hp : B.version (s.mem.locks b') = v → (view B β ρ).HeldPtr hist s b' k' v (s.mem.next cur) := fun hv =>
      .advance hs hm (hh.2 hv).1 (hk hv) rfl fun _ _ => le_of_eq hv.symm
    cases hx
    split
    · exact ⟨⟨rfl, rfl⟩, hh.1, hp⟩
    · exact knows_loop hh.1 hp
  | validateCur k' b' v cur =>
    obtain ⟨⟨rfl, rfl⟩, hle, hp⟩ := h
    cases hx
    exact knows_validated fun _ => knows_loop hle hp
  | runlock k' b' v res =>
    obtain ⟨⟨rfl, rfl⟩, hle, hr⟩ := h
    cases hx
    exact knows_validated hr

end knows

variable [DecidableEq β] [DecidableEq υ] [DecidableEq ρ]

/-- What a reader knows holds along its call, and right before it returns. -/
theorem gclock_answers {r : ρ} {k : Int} {res : Nat} {hist : List (State β υ ρ)} (hB : B.macros = .gclock)
    (h : Completed B r k b res hist) : ∃ m ∈ hist, (res = 1 ↔ m.mem.Member b k) := by
  obtain ⟨h₀, rfl, hcall, hrun, hone, hret, rfl, hres⟩ := h
  rename_i s₀ s₁ s₂ s₃ tr
  have hi₁ := (inv_reachable h₀).step hcall
  have hknow := hrun.history (P := fun hist s => Inv B s ∧ s ∈ hist ∧ Knows B hist s k b (s.rd r)) ?_ ?_
  · obtain ⟨hi, hm, hk⟩ := hknow
    obtain ⟨x', hx, rfl⟩ := Option.map_eq_some_iff.mp hret
    have hk' := hk.read hi.sound hm hB hx
    rwa [show x' = .returned res by simpa using hres] at hk'
  · refine ⟨hi₁, by simp, ?_⟩
    simp only [Steps, step] at hcall
    split at hcall <;> cases hcall <;> simp [Knows]
  · rintro hist s a s' ⟨hi, hm, hk⟩ hr he
    have hev := hi.evolves_step hB hr
    refine ⟨hi.step hr, by simp, ?_⟩
    cases a with
    | begin | update | alloc =>
      obtain ⟨_, _, rfl⟩ := Option.map_eq_some_iff.mp hr
      exact hk.evolve hev
    | call r' k' b' =>
      have hne : r ≠ r' := fun he' => hone _ he k' b' (by rw [he'])
      simp only [Steps, step] at hr
      split at hr <;> cases hr <;> simpa [Function.update_of_ne hne] using hk.evolve hev
    | read r' =>
      obtain ⟨x', hx, rfl⟩ := Option.map_eq_some_iff.mp hr
      by_cases hr' : r = r'
      · subst hr'
        simpa using (hk.read hi.sound hm hB hx).evolve hev
      · simpa [Function.update_of_ne hr'] using hk.evolve hev

/-- GCLOCK: a bucket has at most one updater inside, and the search is linearizable. -/
theorem gclock_sound (hB : B.macros = .gclock) :
    (∀ s : State β υ ρ, Reachable (Steps (step B)) (.init β υ ρ) s →
      ∀ b u v, (s.upd u).inside = some b → (s.upd v).inside = some b → u = v) ∧
    ∀ (r : ρ) (k : Int) (b : β) (res : Nat) (hist : List (State β υ ρ)), Completed B r k b res hist →
      ∃ m ∈ hist, (res = 1 ↔ m.mem.Member b k) :=
  ⟨fun _ h b u v => (inv_reachable h).writers.serial u v b, fun _ _ _ _ _ h => gclock_answers hB h⟩

theorem gclock_sound_contended : (∃ s : State Unit Bool Unit, (s.upd true).inside = some () ∧
      ∀ v, (s.upd v).inside = some () → true = v) ∧
    ∃ hist : List (State Unit Bool Unit), Completed ⟨.gclock, false, false, nofun⟩ () 1 () 1 hist ∧
      ∃ m ∈ hist, (1 = 1 ↔ m.mem.Member () 1) := by
  constructor
  · have h : (exec (step ⟨.gclock, false, false, nofun⟩) (.init Unit Bool Unit) contended).any fun s =>
        decide ((s.upd true).inside = some ()) := by decide +kernel
    obtain ⟨s, hs, hin⟩ := (Option.any_eq_true _ _).mp h
    have hin := of_decide_eq_true hin
    exact ⟨s, hin, fun v => (gclock_sound rfl).1 s ⟨_, exec_run hs⟩ () true v hin⟩
  · have h : (exec (step ⟨.gclock, false, false, nofun⟩) (.init Unit Bool Unit) ((contended ++ [Act.update true, .alloc true 0,
        .update true, .update true, .update true]) ++ (Act.call () 1 () :: (List.replicate 3 (Act.read ()) ++ [Act.read ()])))).any
        fun s => decide (s.rd () = .returned 1) := by decide +kernel
    obtain ⟨hist, hc⟩ : ∃ hist, Completed ⟨.gclock, false, false, nofun⟩ () 1 () 1 hist :=
      Interval.of_exec h rfl (by simp) fun _ ht => ⟨rfl, of_decide_eq_true ht⟩
    exact ⟨hist, hc, (gclock_sound rfl).2 () 1 () 1 hist hc⟩

end Gecos.ListLock
