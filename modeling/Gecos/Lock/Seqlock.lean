import Gecos.Lock.Invariant
import Gecos.Table.Walk

/-! SEQLOCK: while the word of a bucket is even and the same, nobody changes the bucket, so that
the search of list_lock.c answers from a snapshot. -/
namespace Gecos.ListLock
open Library
variable {β υ ρ : Type} {B : Build υ} {s s' : State β υ ρ} {b : β} {k : Int} {n : Addr} {u : υ}

section frozen
variable [DecidableEq β] {m' : Mem β} {x' : Updater β} {t g : Option β}

omit [DecidableEq β] in
theorem agree_same {m m' : Mem β} (hk : m'.key = m.key) (hn : m'.next = m.next) (hh : m'.heads = m.heads) (b : β) :
    m.Agree m' b :=
  ⟨by simp [Mem.chain, hn, hh], fun n _ => congrFun hk n, fun n _ => congrFun hn n⟩

/-- A bucket whose word is even stays as it is. -/
theorem Inv.moves_agree (h : Inv B s) (hB : B.macros = .seqlock) (hm : Moves B s.mem (s.upd u) m' x' t g)
    (hev : s.mem.locks b % 2 = 0) : s.mem.Agree m' b := by
  cases hm with
  | access w m' w' hx hw =>
    have hw' : (s.upd u).writer.step () s.mem = some (m', w') := by rw [hx]; exact hw
    apply h.writers.step_agree (u := u) hw'
    intro hin
    have := (h.word (.inl hB) b).mpr ⟨u, hin⟩
    omega
  | rest | enter | leave | freeInside | free => apply agree_same <;> rfl

theorem Inv.moves_grow (h : Inv B s) (hB : B.macros = .seqlock) (hm : Moves B s.mem (s.upd u) m' x' t g) :
    s.mem.locks b ≤ m'.locks b := by
  rcases h.moves_lock hm with ⟨_, _, _, hlk⟩ | ⟨b', w, _, _, _, _, hlk, hmk, _⟩ | ⟨b', _, _, _, _, hlk⟩
  · rw [hlk]
  · rw [hlk]
    by_cases hb : b = b'
    · subst hb
      have := hmk (.inl hB)
      rw [Function.update_self]
      omega
    · rw [Function.update_of_ne hb]
  · rw [hlk]
    by_cases hb : b = b'
    · subst hb
      rw [Function.update_self]
      omega
    · rw [Function.update_of_ne hb]

variable [DecidableEq υ] [DecidableEq ρ]

/-- Across a step the word does not go back, and an even one guards the bucket. -/
theorem Inv.guards {a : Act β υ ρ} (h : Inv B s) (hB : B.macros = .seqlock) (hs : ListLock.step B s a = some s') :
    s.mem.locks b ≤ s'.mem.locks b ∧ (s.mem.locks b % 2 = 0 → s.mem.Agree s'.mem b) := by
  cases a with
  | begin v op k b =>
    obtain ⟨x', _, rfl⟩ := Option.map_eq_some_iff.mp hs
    exact ⟨le_rfl, fun _ => agree_same rfl rfl rfl _⟩
  | update v =>
    obtain ⟨⟨m', x'⟩, hx, rfl⟩ := Option.map_eq_some_iff.mp hs
    exact ⟨h.moves_grow hB (h.moves hx), h.moves_agree hB (h.moves hx)⟩
  | alloc v n =>
    obtain ⟨⟨m', x'⟩, hx, rfl⟩ := Option.map_eq_some_iff.mp hs
    obtain ⟨_, hk, hn, hh, hlk⟩ := alloc_outside hx
    exact ⟨le_of_eq (congrFun hlk _).symm, fun _ => agree_same hk hn hh _⟩
  | call r k b =>
    simp only [ListLock.step] at hs
    split at hs <;> cases hs <;> exact ⟨le_rfl, fun _ => agree_same rfl rfl rfl _⟩
  | read r =>
    obtain ⟨x, _, rfl⟩ := Option.map_eq_some_iff.mp hs
    exact ⟨le_rfl, fun _ => agree_same rfl rfl rfl _⟩

end frozen

/-- `P` in every state since the reader last was at `lock_rlock`, that state included. -/
def Since (r : ρ) (k : Int) (b : β) (hist : List (State β υ ρ)) (P : State β υ ρ → Prop) : Prop :=
  ∃ pre s₁ suf, hist = pre ++ s₁ :: suf ∧ s₁.rd r = .rlock k b ∧ (∀ t ∈ suf, t.rd r ≠ .rlock k b) ∧
    ∀ t ∈ s₁ :: suf, P t

/-- The reader saved the even word `v`; while it is still the word, no key came or went since. -/
def Window (hist : List (State β υ ρ)) (s : State β υ ρ) (r : ρ) (k : Int) (b : β) (v : Nat) : Prop :=
  v % 2 = 0 ∧ v ≤ s.mem.locks b ∧
    Since r k b hist fun t => s.mem.locks b = v → (t.mem.Member b k ↔ s.mem.Member b k)

/-- What a reader inside `search(k, &heads[b], &locks[b])` knows: the place it has come to counts
only while the word is the one it saved. -/
def Kept (hist : List (State β υ ρ)) (s : State β υ ρ) (r : ρ) (k : Int) (b : β) : Searcher β → Prop
  | .idle => False
  | .rlock k' b' => k' = k ∧ b' = b
  | .head k' b' v => (k' = k ∧ b' = b) ∧ Window hist s r k b v
  | .validate k' b' v cur | .key k' b' v cur => (k' = k ∧ b' = b) ∧ Window hist s r k b v ∧
    (s.mem.locks b = v → ∃ prev l₁ l₂, s.mem.Place b k prev l₁ (cur :: l₂))
  | .next k' b' v cur => (k' = k ∧ b' = b) ∧ Window hist s r k b v ∧
    (s.mem.locks b = v → (∃ prev l₁ l₂, s.mem.Place b k prev l₁ (cur :: l₂)) ∧ s.mem.key cur < k)
  | .validateCur k' b' v cur => (k' = k ∧ b' = b) ∧ Window hist s r k b v ∧
    (s.mem.locks b = v → ∃ prev l₁ l₂, s.mem.Place b k prev l₁ l₂ ∧ cur = l₂.head?)
  | .runlock k' b' v res => (k' = k ∧ b' = b) ∧ Window hist s r k b v ∧
    (s.mem.locks b = v → (res = 1 ↔ s.mem.Member b k))
  | .returned res => Since r k b hist fun t => res = 1 ↔ t.mem.Member b k

section kept
variable {hist : List (State β υ ρ)} {r : ρ} {v : Nat} {x x' : Searcher β}

theorem Since.snoc {P Q : State β υ ρ → Prop} (h : Since r k b hist P) (hr : s'.rd r ≠ .rlock k b)
    (hPQ : ∀ t, P t → Q t) (hQ : Q s') : Since r k b (hist ++ [s']) Q := by
  obtain ⟨pre, s₁, suf, rfl, h₁, hsuf, hP⟩ := h
  refine ⟨pre, s₁, suf ++ [s'], by simp, h₁, fun t ht => ?_, fun t ht => ?_⟩
  · rcases List.mem_append.mp ht with ht | ht
    · exact hsuf t ht
    · rwa [List.mem_singleton.mp ht]
  · rw [← List.cons_append] at ht
    rcases List.mem_append.mp ht with ht | ht
    · exact hPQ t (hP t ht)
    · rwa [List.mem_singleton.mp ht]

/-- What a step must not do to the bucket that a reader is in. -/
structure Guards (s s' : State β υ ρ) (b : β) : Prop where
  grow : s.mem.locks b ≤ s'.mem.locks b
  agree : s.mem.locks b % 2 = 0 → s.mem.Agree s'.mem b
  table : s.mem.Table
  table' : s'.mem.Table

theorem Window.back (h : Window hist s r k b v) (hg : Guards s s' b) (hv : s'.mem.locks b = v) :
    s.mem.locks b = v ∧ s.mem.Agree s'.mem b := by
  have he : s.mem.locks b = v := le_antisymm (le_trans hg.grow (le_of_eq hv)) h.2.1
  exact ⟨he, hg.agree (by rw [he]; exact h.1)⟩

theorem Window.evolve (h : Window hist s r k b v) (hg : Guards s s' b) (hr : s'.rd r ≠ .rlock k b) :
    Window (hist ++ [s']) s' r k b v := by
  refine ⟨h.1, le_trans h.2.1 hg.grow, h.2.2.snoc hr (fun t ht hv => ?_) fun _ => Iff.rfl⟩
  obtain ⟨he, ha⟩ := h.back hg hv
  exact (ht he).trans (ha.member hg.table hg.table').symm

theorem Kept.evolve (h : Kept hist s r k b x) (hg : Guards s s' b) (hr : s'.rd r = x) (hx : ∀ res, x ≠ .returned res) :
    Kept (hist ++ [s']) s' r k b x := by
  cases x with
  | idle | rlock => exact h
  | head k' b' v => exact ⟨h.1, h.2.evolve hg (by simp [hr])⟩
  | validate k' b' v cur | key k' b' v cur =>
    obtain ⟨hkb, hw, hp⟩ := h
    refine ⟨hkb, hw.evolve hg (by simp [hr]), fun hv => ?_⟩
    obtain ⟨he, ha⟩ := hw.back hg hv
    obtain ⟨prev, l₁, l₂, hp⟩ := hp he
    exact ⟨prev, l₁, l₂, hp.agree ha⟩
  | next k' b' v cur =>
    obtain ⟨hkb, hw, hp⟩ := h
    refine ⟨hkb, hw.evolve hg (by simp [hr]), fun hv => ?_⟩
    obtain ⟨he, ha⟩ := hw.back hg hv
    obtain ⟨⟨prev, l₁, l₂, hp⟩, hk⟩ := hp he
    refine ⟨⟨prev, l₁, l₂, hp.agree ha⟩, ?_⟩
    rwa [ha.key cur (by simp [hp.split])]
  | validateCur k' b' v cur =>
    obtain ⟨hkb, hw, hp⟩ := h
    refine ⟨hkb, hw.evolve hg (by simp [hr]), fun hv => ?_⟩
    obtain ⟨he, ha⟩ := hw.back hg hv
    obtain ⟨prev, l₁, l₂, hp, hc⟩ := hp he
    exact ⟨prev, l₁, l₂, hp.agree ha, hc⟩
  | runlock k' b' v res =>
    obtain ⟨hkb, hw, hres⟩ := h
    refine ⟨hkb, hw.evolve hg (by simp [hr]), fun hv => ?_⟩
    obtain ⟨he, ha⟩ := hw.back hg hv
    exact (hres he).trans (ha.member hg.table hg.table').symm
  | returned res => exact (hx res rfl).elim

theorem kept_loop {p : Ptr} (ht : s.mem.Table) (hw : Window hist s r k b v)
    (h : s.mem.locks b = v → ∃ prev l₁ l₂, s.mem.Place b k prev l₁ l₂ ∧ p = l₂.head?) :
    Kept hist s r k b (Searcher.loop B k b v p) := by
  cases p with
  | none =>
    refine ⟨⟨rfl, rfl⟩, hw, fun hv => iff_of_false (by decide) fun hm => ?_⟩
    obtain ⟨prev, l₁, l₂, hp, hn⟩ := h hv
    obtain ⟨n, hn', hk⟩ := ht.member_iff.mp hm
    rw [hp.split, List.head?_eq_none_iff.mp hn.symm, List.append_nil] at hn'
    have := hp.below n hn'
    omega
  | some n =>
    have hp : s.mem.locks b = v → ∃ prev l₁ l₂, s.mem.Place b k prev l₁ (n :: l₂) := fun hv => by
      obtain ⟨prev, l₁, l₂, hp, hn⟩ := h hv
      obtain ⟨l₃, rfl⟩ := List.head?_eq_some_iff.mp hn.symm
      exact ⟨prev, l₁, l₃, hp⟩
    cases hval : B.validates with
    | true =>
      simp only [Searcher.loop, hval, if_true]
      exact ⟨⟨rfl, rfl⟩, hw, hp⟩
    | false =>
      simp only [Searcher.loop, hval]
      exact ⟨⟨rfl, rfl⟩, hw, hp⟩

theorem kept_validated {y : Searcher β} (hB : B.macros = .seqlock) (h : s.mem.locks b = v → Kept hist s r k b y) :
    Kept hist s r k b (Searcher.validated B s.mem k b v y) := by
  have hver : B.version (s.mem.locks b) = s.mem.locks b := by simp [Build.version, hB]
  unfold Searcher.validated
  rw [hver]
  split
  · exact ⟨rfl, rfl⟩
  · rename_i hv
    exact h (not_not.mp hv).symm

/-- What a reader learns by an access of its own. -/
theorem Kept.read (ht : s.mem.Table) (hm : ∃ pre, hist = pre ++ [s]) (hB : B.macros = .seqlock) (hr : s.rd r = x)
    (h : Kept hist s r k b x) (hx : x.step B s.mem = some x') : Kept hist s r k b x' := by
  cases x with
  | idle | returned => cases hx
  | rlock k' b' =>
    obtain ⟨rfl, rfl⟩ := h
    simp only [Searcher.step, hB, true_and, Option.some.injEq] at hx
    subst hx
    split
    · exact ⟨rfl, rfl⟩
    · rename_i hodd
      obtain ⟨pre, rfl⟩ := hm
      have hver : B.version (s.mem.locks b') = s.mem.locks b' := by simp [Build.version, hB]
      rw [hver]
      refine ⟨⟨rfl, rfl⟩, by omega, le_rfl, pre, s, [], rfl, hr, by simp, fun t ht _ => ?_⟩
      rw [List.mem_singleton.mp ht]
  | head k' b' v =>
    obtain ⟨⟨rfl, rfl⟩, hw⟩ := h
    cases hx
    refine kept_loop ht hw fun _ => ?_
    exact ⟨_, [], s.mem.chain b', Mem.Table.start_place k' b', Seg.head (ht.ends b')⟩
  | validate k' b' v cur =>
    obtain ⟨⟨rfl, rfl⟩, h⟩ := h
    cases hx
    exact kept_validated hB fun _ => ⟨⟨rfl, rfl⟩, h⟩
  | key k' b' v cur =>
    obtain ⟨⟨rfl, rfl⟩, hw, hp⟩ := h
    cases hx
    split
    · rename_i hk
      refine ⟨⟨rfl, rfl⟩, hw, fun hv => ?_⟩
      obtain ⟨prev, l₁, l₂, hp⟩ := hp hv
      have hres : (if s.mem.key cur = k' then 1 else 0) = 1 ↔ s.mem.key cur = k' := by simp
      exact hres.trans (ht.settles hp.split hp.below hk)
    · exact ⟨⟨rfl, rfl⟩, hw, fun hv => ⟨hp hv, by omega⟩⟩
  | next k' b' v cur =>
    obtain ⟨⟨rfl, rfl⟩, hw, hp⟩ := h
    have hnext : s.mem.locks b' = v → ∃ prev l₁ l₂, s.mem.Place b' k' prev l₁ l₂ ∧ s.mem.next cur = l₂.head? :=
      fun hv => by
        obtain ⟨⟨prev, l₁, l₂, hp⟩, hk⟩ := hp hv
        exact ⟨_, _, l₂, hp.advance hk, ht.next_eq hp.split⟩
    cases hx
    split
    · exact ⟨⟨rfl, rfl⟩, hw, hnext⟩
    · exact kept_loop ht hw hnext
  | validateCur k' b' v cur =>
    obtain ⟨⟨rfl, rfl⟩, hw, hp⟩ := h
    cases hx
    exact kept_validated hB fun _ => kept_loop ht hw hp
  | runlock k' b' v res =>
    obtain ⟨⟨rfl, rfl⟩, hw, hres⟩ := h
    cases hx
    refine kept_validated hB fun hv => ?_
    obtain ⟨pre, s₁, suf, hh, h₁, hsuf, hP⟩ := hw.2.2
    exact ⟨pre, s₁, suf, hh, h₁, hsuf, fun t ht => (hres hv).trans (hP t ht hv).symm⟩

end kept

variable [DecidableEq β] [DecidableEq υ] [DecidableEq ρ]

theorem Inv.step_guards {a : Act β υ ρ} (h : Inv B s) (hB : B.macros = .seqlock) (hs : ListLock.step B s a = some s')
    (b : β) : Guards s s' b :=
  ⟨(h.guards hB hs).1, (h.guards hB hs).2, h.writers.table, (h.step hs).writers.table⟩

/-- The answer of a call was right all the time since its last `lock_rlock`. -/
theorem seqlock_answers {r : ρ} {res : Nat} {hist : List (State β υ ρ)} (hB : B.macros = .seqlock)
    (h : Completed B r k b res hist) : Since r k b hist fun t => res = 1 ↔ t.mem.Member b k := by
  obtain ⟨h₀, rfl, hcall, hrun, hone, hret, rfl, hres⟩ := h
  rename_i s₀ s₁ s₂ s₃ tr
  have hi₁ := (inv_reachable h₀).step hcall
  have hknow := hrun.history (P := fun hist s => Inv B s ∧ (∃ pre, hist = pre ++ [s]) ∧
    ((∃ res, s.rd r = .returned res) ∨ Kept hist s r k b (s.rd r))) ?_ ?_
  · obtain ⟨hi, hm, hk⟩ := hknow
    obtain ⟨x', hx, rfl⟩ := Option.map_eq_some_iff.mp hret
    rcases hk with ⟨res', hr⟩ | hk
    · rw [hr] at hx
      cases hx
    · have hk' := hk.read hi.writers.table hm hB rfl hx
      rwa [show x' = .returned res by simpa using hres] at hk'
  · refine ⟨hi₁, ⟨[], rfl⟩, .inr ?_⟩
    simp only [Steps, step] at hcall
    split at hcall <;> cases hcall <;> simp [Kept]
  · rintro hist s a s' ⟨hi, hm, hk⟩ hr he
    have hg := hi.step_guards hB hr b
    have hcases : s'.rd r = s.rd r ∨ ∃ x', (s.rd r).step B s.mem = some x' ∧ s'.rd r = x' := by
      cases a with
      | begin | update | alloc =>
        obtain ⟨_, _, rfl⟩ := Option.map_eq_some_iff.mp hr
        exact .inl rfl
      | call r' k' b' =>
        have hne : r ≠ r' := fun he' => hone _ he k' b' (by rw [he'])
        simp only [Steps, step] at hr
        split at hr <;> cases hr <;> exact .inl (Function.update_of_ne hne _ _)
      | read r' =>
        obtain ⟨x', hx, rfl⟩ := Option.map_eq_some_iff.mp hr
        by_cases hr' : r = r'
        · subst hr'
          exact .inr ⟨x', hx, Function.update_self ..⟩
        · exact .inl (Function.update_of_ne hr' _ _)
    have hk' : (∃ res, s'.rd r = .returned res) ∨ Kept hist s r k b (s'.rd r) := by
      rcases hcases with hsame | ⟨x', hx, hx'⟩
      · rwa [hsame]
      · rcases hk with ⟨res', hr'⟩ | hk
        · rw [hr'] at hx
          cases hx
        · rw [hx']
          exact .inr (hk.read hi.writers.table hm hB rfl hx)
    refine ⟨hi.step hr, ⟨hist, rfl⟩, ?_⟩
    by_cases hret : ∃ res, s'.rd r = .returned res
    · exact .inl hret
    · exact .inr ((hk'.resolve_left hret).evolve hg rfl fun res hx => hret ⟨res, hx⟩)

/-- SEQLOCK: the word of a bucket is odd exactly while one updater, and no other, is inside; each updater
releases the lock as often as it takes it; and a search answers what was so all the time since its
last `lock_rlock`. -/
theorem seqlock_sound (hB : B.macros = .seqlock) :
    (∀ s : State β υ ρ, Reachable (Steps (step B)) (.init β υ ρ) s →
      (∀ b, (s.mem.locks b % 2 = 1 ↔ ∃ u, (s.upd u).inside = some b) ∧
        ∀ u v, (s.upd u).inside = some b → (s.upd v).inside = some b → u = v) ∧
      ∀ u b, s.took u b = s.gave u b + if (s.upd u).inside = some b then 1 else 0) ∧
    ∀ (r : ρ) (k : Int) (b : β) (res : Nat) (hist : List (State β υ ρ)), Completed B r k b res hist →
      Since r k b hist fun t => res = 1 ↔ t.mem.Member b k := by
  refine ⟨fun s h => ?_, fun r k b res hist h => seqlock_answers hB h⟩
  have hi := inv_reachable h
  exact ⟨fun b => ⟨hi.word (.inl hB) b, fun u v => hi.writers.serial u v b⟩, hi.balance⟩

theorem seqlock_sound_contended : (∃ s : State Unit Bool Unit, s.mem.locks () % 2 = 1 ∧
      (∃ u, (s.upd u).inside = some ()) ∧ s.took true () = s.gave true () + 1) ∧
    ∃ hist : List (State Unit Bool Unit), Completed ⟨.seqlock, false, true, nofun⟩ () 1 () 1 hist ∧
      Since () 1 () hist fun t => 1 = 1 ↔ t.mem.Member () 1 := by
  constructor
  · have h : (exec (step ⟨.seqlock, false, true, nofun⟩) (.init Unit Bool Unit) contended).any fun s =>
        decide (s.mem.locks () % 2 = 1 ∧ (s.upd true).inside = some ()) := by decide +kernel
    obtain ⟨s, hs, hd⟩ := (Option.any_eq_true _ _).mp h
    obtain ⟨hodd, hin⟩ := of_decide_eq_true hd
    have hsound := (seqlock_sound rfl).1 s ⟨_, exec_run hs⟩
    have hbal := hsound.2 true ()
    rw [if_pos hin] at hbal
    exact ⟨s, hodd, (hsound.1 ()).1.mp hodd, hbal⟩
  · have h : (exec (step ⟨.seqlock, false, true, nofun⟩) (.init Unit Bool Unit) ((contended ++ [Act.update true, .alloc true 0,
        .update true, .update true, .update true]) ++ (Act.call () 1 () :: ([Act.read (), .read (), .update true] ++
          List.replicate 4 (Act.read ()) ++ [Act.read ()])))).any fun s => decide (s.rd () = .returned 1) := by decide +kernel
    obtain ⟨hist, hc⟩ : ∃ hist, Completed ⟨.seqlock, false, true, nofun⟩ () 1 () 1 hist :=
      Interval.of_exec h rfl (by simp) fun _ ht => ⟨rfl, of_decide_eq_true ht⟩
    exact ⟨hist, hc, (seqlock_sound rfl).2 () 1 () 1 hist hc⟩

end Gecos.ListLock
