import Gecos.Versioned.Search

/-! The updaters of list_gecos.c keep the table, and never disturb what a reader holds. -/
namespace Gecos.ListGecos
open Library
variable {β υ ρ : Type} {cfg : Locking υ} {s : Shared β υ} {u : υ}

/-- The readers validate against the counter of the node. -/
def gcOf (m : Mem β) (_ : β) (n : Addr) : Nat := m.gc n

abbrev view (β υ : Type) : Traversal (Shared β υ) β Addr Int := Shared.view gcOf

structure Inv (cfg : Locking υ) (s : Shared β υ) : Prop where
  writers : Writers s.mem s.upd
  locked : cfg.oneWriter = false → ∀ u b, (s.upd u).inside = some b → s.mem.locks b ≠ 0
  counter : ∀ u b n g, s.upd u = .freeNodeLater b n (.store g) → s.mem.gc n = g

theorem Inv.init : Inv cfg (.init β υ) where
  writers := .init
  locked _ _ _ h := by simp [Shared.init, Writer.inside] at h
  counter _ _ _ _ h := by simp [Shared.init] at h

variable [DecidableEq υ]

private theorem inv_put (h : Inv cfg s) {m' : Mem β} {w' : Writer β Bump}
    (hw : Writers m' (Function.update s.upd u w'))
    (hl : cfg.oneWriter = false → ∀ b, w'.inside = some b → m'.locks b ≠ 0)
    (hlo : cfg.oneWriter = false → ∀ v ≠ u, ∀ b, (s.upd v).inside = some b → m'.locks b ≠ 0)
    (hc : ∀ b n g, w' = .freeNodeLater b n (.store g) → m'.gc n = g)
    (hco : ∀ v ≠ u, ∀ n, (s.upd v).inHand = some n → m'.gc n = s.mem.gc n) :
    Inv cfg (s.put u (m', w')) := by
  refine ⟨hw, fun ho v b hv => ?_, fun v b n g hv => ?_⟩
  · by_cases e : v = u
    · subst e; exact hl ho b (by simpa [Shared.put] using hv)
    · exact hlo ho v e b (by simpa [Shared.put, Function.update_of_ne e] using hv)
  · by_cases e : v = u
    · subst e; exact hc b n g (by simpa [Shared.put] using hv)
    · have hv' : s.upd v = .freeNodeLater b n (.store g) := by
        simpa [Shared.put, Function.update_of_ne e] using hv
      exact (hco v e n (by rw [hv']; rfl)).trans (h.counter v b n g hv')

/-- Steps of an updater inside its critical section that touch neither locks nor counters. -/
private theorem inv_inside (h : Inv cfg s) {m' : Mem β} {w' : Writer β Bump}
    (hw : Writers m' (Function.update s.upd u w')) (hlk : m'.locks = s.mem.locks)
    (hgc : m'.gc = s.mem.gc) (hin : ∀ b, w'.inside = some b → (s.upd u).inside = some b)
    (hc : ∀ b n g, w' = .freeNodeLater b n (.store g) → m'.gc n = g) :
    Inv cfg (s.put u (m', w')) :=
  inv_put h hw (fun ho b hb => by rw [hlk]; exact h.locked ho u b (hin b hb))
    (fun ho v _ b hv => by rw [hlk]; exact h.locked ho v b hv) hc fun _ _ _ _ => by rw [hgc]

theorem Inv.begin (h : Inv cfg s) {op : Op} {k : Int} {b : β} {w : Writer β Bump}
    (hs : (s.upd u).begin op k b = some w) :
    Inv cfg (s.put u (s.mem, w)) ∧ (view β υ).Evolves s (s.put u (s.mem, w)) := by
  have hready : (∀ b n r, s.upd u ≠ .freeNodeLater b n r) ∧ w.inside = none ∧ w.inHand = none ∧
      w.Facts s.mem := by
    unfold Writer.begin at hs
    split at hs
    all_goals try contradiction
    all_goals cases op <;> cases hs <;> rename_i he <;> simp [he, Writer.inside, Writer.inHand, Writer.Facts]
  obtain ⟨hno, hin, hhand, hf⟩ := hready
  refine ⟨inv_inside h (h.writers.stay (by simp [hin]) (by simp [hhand]) hf) rfl rfl (by simp [hin]) ?_, ?_⟩
  · rintro b n g rfl
    simp [Writer.inHand] at hhand
  · exact Shared.evolves_frame rfl rfl rfl (fun _ _ => le_rfl) fun b n r hr => (hno b n r hr).elim

theorem Inv.alloc (h : Inv cfg s) {n : Addr} {mw : Mem β × Writer β Bump}
    (hs : (s.upd u).alloc s.mem n = some mw) :
    Inv cfg (s.put u mw) ∧ (view β υ).Evolves s (s.put u mw) := by
  unfold Writer.alloc at hs
  split at hs
  case h_2 => contradiction
  rename_i k b prev cur he
  split at hs
  case isFalse => contradiction
  rename_i hav
  cases hs
  refine ⟨inv_inside h (h.writers.handOut he hav rfl rfl id) rfl rfl (fun b' hb => ?_) (by simp), ?_⟩
  · rw [he]; exact hb
  · exact Shared.evolves_frame rfl rfl rfl (fun _ _ => le_rfl) fun b n r hr => by simp [he] at hr

variable [DecidableEq β]

/-- Every step of an updater keeps the invariant and the readers' knowledge. -/
theorem Inv.update (h : Inv cfg s) {mw : Mem β × Writer β Bump}
    (hs : update cfg s.mem (s.upd u) = some mw) :
    Inv cfg (s.put u mw) ∧ (view β υ).Evolves s (s.put u mw) := by
  unfold ListGecos.update at hs
  split at hs
  case h_1 op k b he =>
    split at hs
    · rename_i ho
      cases hs
      have hno (v : υ) : (s.upd v).inside ≠ some b := by
        rw [cfg.single ho v u, he]; simp [Writer.inside]
      refine ⟨inv_put h (h.writers.frame rfl rfl rfl (fun _ hx => .inl hx) (fun b' hb => .inr ?_)
        (by simp [Writer.inHand]) trivial) (by simp [ho]) (by simp [ho]) (by simp) fun _ _ _ _ => rfl, ?_⟩
      · cases hb; exact hno
      · exact Shared.evolves_frame rfl rfl rfl (fun _ _ => le_rfl) fun b n r hr => by simp [he] at hr
    · split at hs
      case isFalse => contradiction
      rename_i ho hfree
      cases hs
      have hno (v : υ) : (s.upd v).inside ≠ some b :=
        fun hv => h.locked (by simpa using ho) v b hv hfree
      refine ⟨inv_put h (h.writers.frame rfl rfl rfl (fun _ hx => .inl hx) (fun b' hb => .inr ?_)
        (by simp [Writer.inHand]) trivial) (fun _ b' hb => ?_) (fun ho' v _ b' hv => ?_) (by simp)
        fun _ _ _ _ => rfl, ?_⟩
      · cases hb; exact hno
      · cases hb; simp
      · have hbb : b' ≠ b := fun hb => hno v (hb ▸ hv)
        simpa [Function.update_of_ne hbb] using h.locked ho' v b' hv
      · exact Shared.evolves_frame rfl rfl rfl (fun _ _ => le_rfl) fun b n r hr => by simp [he] at hr
  case h_2 b res he =>
    have hstay : ∀ m' : Mem β, m'.key = s.mem.key → m'.next = s.mem.next → m'.heads = s.mem.heads →
        m'.avail = s.mem.avail → Writers m' (Function.update s.upd u (.returned res)) :=
      fun m' hk hn hh hav => h.writers.frame hk hn hh (fun x hx => .inl (by rwa [hav] at hx))
        (by simp [Writer.inside]) (by simp [Writer.inHand]) trivial
    split at hs <;> cases hs
    · rename_i ho
      refine ⟨inv_put h (hstay _ rfl rfl rfl rfl) (by simp [ho]) (by simp [ho]) (by simp)
        fun _ _ _ _ => rfl, ?_⟩
      exact Shared.evolves_frame rfl rfl rfl (fun _ _ => le_rfl) fun b n r hr => by simp [he] at hr
    · refine ⟨inv_put h (hstay _ rfl rfl rfl rfl) (by simp [Writer.inside]) (fun ho v hv b' hb => ?_)
        (by simp) fun _ _ _ _ => rfl, ?_⟩
      · have hbb : b' ≠ b := fun hbb => hv (h.writers.serial v u b (hbb ▸ hb) (by rw [he]; rfl))
        simpa [Function.update_of_ne hbb] using h.locked ho v b' hb
      · exact Shared.evolves_frame rfl rfl rfl (fun _ _ => le_rfl) fun b n r hr => by simp [he] at hr
  case h_3 b n he =>
    cases hs
    refine ⟨inv_inside h (h.writers.keepHand he rfl rfl rfl rfl) rfl rfl (fun b' hb => by rw [he]; exact hb)
      (by rintro b' n' g ⟨⟩; rfl), ?_⟩
    refine Shared.evolves_frame rfl rfl rfl (fun _ _ => le_rfl) fun b' n' r hr _ _ => ?_
    rw [he] at hr
    cases hr
    exact ⟨_, rfl, by simp⟩
  case h_4 b n g he =>
    cases hs
    have hg := h.counter u b n g he
    refine ⟨inv_put h (h.writers.keepHand he rfl rfl rfl rfl)
      (fun ho b' hb => h.locked ho u b' (by rw [he]; exact hb)) (fun ho v _ b' hb => h.locked ho v b' hb)
      (by simp) (fun v hv x hx => Function.update_of_ne (fun hxn => ?_) _ _), ?_⟩
    · exact hv (h.writers.alone v u n (hxn ▸ hx) (by rw [he]; rfl))
    · refine Shared.evolves_frame rfl rfl rfl (fun b' x => ?_) fun b' n' r hr _ hst => ?_
      · by_cases hx : x = n
        · subst hx; simp [gcOf, hg]
        · simp [gcOf, Function.update_of_ne hx]
      · rw [he] at hr
        cases hr
        simp [gcOf, hg] at hst
  case h_5 b n he =>
    cases hs
    refine ⟨inv_inside h (h.writers.giveUp he rfl rfl rfl rfl) rfl rfl
      (fun b' hb => by rw [he]; exact hb) (by simp), ?_⟩
    · refine Shared.evolves_frame rfl rfl rfl (fun _ _ => le_rfl) fun b' n' r hr hne _ => ?_
      rw [he] at hr
      cases hr
      exact (hne rfl).elim
  case h_6 =>
    obtain ⟨m', w'⟩ := mw
    obtain ⟨_, _, hgc, _, hlk, _⟩ := h.writers.step_keeps hs
    obtain ⟨hin, hstart⟩ := Writer.step_bounds hs
    refine ⟨inv_inside h (h.writers.step hs) hlk hgc hin fun b n g hw => ?_, ?_⟩
    · cases hstart b n _ hw
    · exact Shared.evolves_step h.writers hs fun b n => by simp [gcOf, hgc]

end Gecos.ListGecos
