import Gecos.Table.WriterInvariant

/-! Every step of list_writer.c keeps the table invariant, and what readers may rely on across it. -/
namespace Gecos
open Library
variable {β ρ υ : Type} {m m' : Mem β} {b : β} {k : Int} {op : Op} {prev : Link β} {cur : Addr}
  {l₁ l₂ : List Addr} {start : ρ}

namespace Writer

@[simp] theorem loop_inside (op : Op) (k : Int) (b : β) (prev : Link β) (p : Ptr) :
    (loop op k b prev p : Writer β ρ).inside = some b := by
  cases p <;> cases op <;> rfl

@[simp] theorem loop_inHand (op : Op) (k : Int) (b : β) (prev : Link β) (p : Ptr) :
    (loop op k b prev p : Writer β ρ).inHand = none := by
  cases p <;> cases op <;> rfl

theorem loop_facts (h : m.Place b k prev l₁ l₂) :
    (loop op k b prev l₂.head? : Writer β ρ).Facts m := by
  cases l₂ with
  | cons c l₂ => exact ⟨l₁, l₂, h⟩
  | nil =>
    cases op with
    | insert => exact ⟨l₁, [], h, rfl, by simp⟩
    | delete => trivial

end Writer

namespace Mem

theorem Table.start_place (k : Int) (b : β) : m.Place b k (.head b) [] (m.chain b) :=
  ⟨rfl, rfl, by simp⟩

theorem Place.advance (h : m.Place b k prev l₁ (cur :: l₂)) (hk : m.key cur < k) :
    m.Place b k (.next cur) (l₁ ++ [cur]) l₂ where
  split := by rw [h.split]; simp
  link := by simp
  below x hx := by
    rcases List.mem_append.mp hx with hx | hx
    · exact h.below x hx
    · rw [List.mem_singleton.mp hx]; exact hk

/-- The first node that is not smaller separates the bucket. -/
theorem Table.slot (ht : m.Table) (h : m.Place b k prev l₁ (cur :: l₂)) (hk : k < m.key cur) :
    m.Slot b k prev (some cur) := by
  refine ⟨l₁, cur :: l₂, h, rfl, fun x hx => ?_⟩
  rcases List.mem_cons.mp hx with rfl | hx
  · exact hk
  · exact lt_trans hk ((ht.below_above h.split).2 x hx)

theorem Table.sorted_link (ht : m.Table) (hp : m.Place b k prev l₁ l₂) (hk : ∀ x ∈ l₂, k < m.key x)
    (hkey : m.key cur = k) : (l₁ ++ cur :: l₂).Pairwise (m.key · < m.key ·) := by
  have hs := ht.sorted b
  rw [hp.split, List.pairwise_append] at hs
  refine List.pairwise_append.mpr ⟨hs.1, List.pairwise_cons.mpr ⟨fun x hx => ?_, hs.2.1⟩, fun x hx y hy => ?_⟩
  · rw [hkey]
    exact hk x hx
  · rcases List.mem_cons.mp hy with rfl | hy
    · rw [hkey]
      exact hp.below _ hx
    · exact hs.2.2 x hx y hy

end Mem

section store
variable [DecidableEq β]

/-- An access of list_writer.c is outside the lock macros, and enters `free_node_later` at its start. -/
theorem Writer.step_bounds {w w' : Writer β ρ} (hs : w.step start m = some (m', w')) :
    (∀ b, w'.inside = some b → w.inside = some b) ∧
      ∀ b n r, w' = .freeNodeLater b n r → r = start := by
  cases w with
  | ready | wlock | freeNodeLater | initNewNode | handOver | wunlock | returned =>
    simp [Writer.step] at hs
  | emptyTest k b =>
    cases hs
    split <;> simp [Writer.inside]
  | loadHead op k b | advance op k b cur =>
    cases hs
    refine ⟨fun b' hb => by rwa [Writer.loop_inside] at hb, fun b' n r he => ?_⟩
    cases (Writer.loop_inHand ..).symm.trans (congrArg Writer.inHand he)
  | loadKey op k b prev cur =>
    cases hs
    split <;> simp [Writer.inside]
  | loadKeyAgain op k b prev cur =>
    cases op <;> cases hs <;> split <;> simp [Writer.inside]
  | loadNext | unlink | storeKey | storeNext | link => cases hs; simp_all [Writer.inside]

/-- An access neither enters nor leaves a bucket. -/
theorem Writer.step_inside {w w' : Writer β ρ} (hs : w.step start m = some (m', w')) : w'.inside = w.inside := by
  cases w with
  | ready | wlock | freeNodeLater | initNewNode | handOver | wunlock | returned =>
    simp [Writer.step] at hs
  | emptyTest | loadKey =>
    cases hs
    split <;> rfl
  | loadHead | advance =>
    cases hs
    exact Writer.loop_inside ..
  | loadKeyAgain op k b prev cur =>
    cases op <;> cases hs <;> split <;> rfl
  | loadNext | unlink | storeKey | storeNext | link =>
    cases hs
    rfl

/-- The bucket whose links the next access of an updater changes. -/
def Writer.relinks : Writer β ρ → Option β
  | .link _ b _ _ _ | .unlink _ b _ _ _ => some b
  | _ => none

omit [DecidableEq β] in
theorem Writer.inside_of_relinks {w : Writer β ρ} (h : w.relinks = some b) : w.inside = some b := by
  cases w with
  | link | unlink => exact h
  | _ => cases h

/-- Only an unlink leads into `free_node_later`. -/
theorem Writer.step_unlinks {w : Writer β ρ} {n : Addr} {r : ρ} (hs : w.step start m = some (m', .freeNodeLater b n r)) :
    ∃ k prev nx, w = .unlink k b prev n nx := by
  cases w with
  | unlink k b prev cur nx =>
    cases hs
    exact ⟨k, prev, nx, rfl⟩
  | loadHead op k b | advance op k b cur =>
    simp only [Writer.step, Option.some.injEq, Prod.mk.injEq] at hs
    cases (Writer.loop_inHand ..).symm.trans (congrArg Writer.inHand hs.2)
  | loadKeyAgain op k b prev cur =>
    cases op <;> simp only [Writer.step, Option.some.injEq, Prod.mk.injEq] at hs <;> split at hs <;> cases hs.2
  | emptyTest | loadKey =>
    simp only [Writer.step, Option.some.injEq, Prod.mk.injEq] at hs
    split at hs <;> cases hs.2
  | _ => simp [Writer.step] at hs

theorem Mem.store_tailLink_next {p : Ptr} {x : Addr} (hx : x ∉ l₁) :
    (m.store (Mem.tailLink b l₁) p).next x = m.next x := by
  rcases List.eq_nil_or_concat l₁ with rfl | ⟨l, a, rfl⟩
  · rfl
  · simp only [List.concat_eq_append, Mem.tailLink_concat, Mem.store]
    exact Function.update_of_ne (fun he => hx (by simp [he])) _ _

/-- The store of `delete` takes exactly `cur` out of its bucket. -/
theorem Mem.Table.unlink_chain (ht : m.Table) (h : m.Place b k prev l₁ (cur :: l₂)) :
    Chain m.next (m.next cur) l₂ ∧ (∀ x ∈ l₁, x ∉ l₂) ∧ cur ∉ l₁ ++ l₂ ∧
      (m.store prev (m.next cur)).chain b = l₁ ++ l₂ ∧
      ∀ b' ≠ b, (m.store prev (m.next cur)).chain b' = m.chain b' := by
  have hc := ht.ends b
  rw [h.split] at hc
  obtain ⟨r, _, hr⟩ := seg_append.mp hc
  have hn := hc.nodup
  rw [List.nodup_append, List.nodup_cons] at hn
  have hd : ∀ x ∈ l₁, x ∉ l₂ := fun x hx hx' => hn.2.2 x hx x (by simp [hx']) rfl
  refine ⟨hr.2, hd, fun hx => ?_, ?_, fun b' hb => ?_⟩
  · rcases List.mem_append.mp hx with hx | hx
    · exact hn.2.2 cur hx cur (by simp) rfl
    · exact hn.2.1.1 hx
  · rw [h.link]; exact ht.store_chain h.split hr.2 hd
  · rw [h.link]; exact ht.store_chain_ne h.split hr.2 hd hb

/-- The store of `insert` puts exactly the new node into its bucket. -/
theorem Mem.Table.link_chain (ht : m.Table) {new : Addr} (h : m.Place b k prev l₁ l₂)
    (hnew : ∀ b, new ∉ m.chain b) (hx : m.next new = l₂.head?) :
    Chain m.next (some new) (new :: l₂) ∧ (∀ x ∈ l₁, x ∉ new :: l₂) ∧
      (m.store prev (some new)).chain b = l₁ ++ new :: l₂ ∧
      ∀ b' ≠ b, (m.store prev (some new)).chain b' = m.chain b' := by
  have hc := ht.ends b
  rw [h.split] at hc
  obtain ⟨r, _, hr⟩ := seg_append.mp hc
  have h₃ : Chain m.next (some new) (new :: l₂) := ⟨rfl, by rw [hx, ← Seg.head hr]; exact hr⟩
  have hn := hc.nodup
  rw [List.nodup_append] at hn
  have hd : ∀ x ∈ l₁, x ∉ new :: l₂ := by
    intro x hx' hm
    rcases List.mem_cons.mp hm with rfl | hm
    · exact hnew b (by simp [h.split, hx'])
    · exact hn.2.2 x hx' x hm rfl
  refine ⟨h₃, hd, ?_, fun b' hb => ?_⟩
  · rw [h.link]; exact ht.store_chain h.split h₃ hd
  · rw [h.link]; exact ht.store_chain_ne h.split h₃ hd hb

variable [DecidableEq υ] {upd : υ → Writer β ρ} {u : υ} {w' : Writer β ρ}

private theorem writers_unlink (h : Writers m upd) {nx : Ptr}
    (hw : upd u = .unlink k b prev cur nx) :
    Writers (m.store prev nx) (Function.update upd u (.freeNodeLater b cur start)) := by
  have hf := h.facts u
  rw [hw] at hf
  obtain ⟨⟨l₁, l₂, hp⟩, hk, rfl⟩ := hf
  obtain ⟨h₃, hd, hcur, hch, _⟩ := h.table.unlink_chain hp
  have hkey := h.table.below_above hp.split
  have hs := h.table.sorted b
  rw [hp.split] at hs
  have haround : (m.store prev (m.next cur)).Around b cur := by
    refine ⟨l₁, l₂, .inr hch, ?_, by simpa using hkey.1, by simpa using hkey.2⟩
    rw [hp.link, Mem.store_tailLink_next fun hx => hcur (by simp [hx])]
    exact h.table.next_eq hp.split
  rw [hp.link] at haround ⊢
  refine h.store (by rw [hw]; rfl) hp.split h₃ hd (hs.sublist (by simp)) (fun x hx => ?_) ?_ ?_ haround
  · exact .inl (by simp [hp.split, hx])
  · rintro b' ⟨⟩; rfl
  · rintro n ⟨⟩; exact ⟨by simp [hp.split], hcur⟩

private theorem writers_link (h : Writers m upd) {p : Ptr} {new : Addr}
    (hw : upd u = .link k b prev p new) :
    Writers (m.store prev (some new)) (Function.update upd u (.wunlock b 1)) := by
  have hf := h.facts u
  rw [hw] at hf
  obtain ⟨⟨l₁, l₂, hp, rfl, hab⟩, hkey, hnx⟩ := hf
  have hnew := h.fresh u new (by rw [hw]; rfl)
  obtain ⟨h₃, hd, _⟩ := h.table.link_chain hp hnew.2 hnx
  have hs := h.table.sorted_link hp hab hkey
  rw [hp.link]
  refine h.store (by rw [hw]; rfl) hp.split h₃ hd hs (fun x hx => ?_) ?_ ?_ trivial
  · rcases List.mem_cons.mp hx with rfl | hx
    · exact .inr (by rw [hw]; rfl)
    · exact .inl (by simp [hp.split, hx])
  · rintro b' ⟨⟩; rfl
  · rintro n ⟨⟩

/-- Each shared access of `insert` and `delete` keeps the invariant. -/
theorem Writers.step (h : Writers m upd) (hs : (upd u).step start m = some (m', w')) :
    Writers m' (Function.update upd u w') := by
  have hf := h.facts u
  cases hw : upd u with
  | ready | wlock | freeNodeLater | initNewNode | handOver | wunlock | returned =>
    simp [hw, Writer.step] at hs
  | emptyTest k b =>
    rw [hw] at hs
    cases hs
    split <;> exact h.stay (by simp [Writer.inside]) (by simp [Writer.inHand]) trivial
  | loadHead op k b =>
    rw [hw] at hs
    cases hs
    refine h.stay (fun b' hb => by rw [hw]; rwa [Writer.loop_inside] at hb) (by simp) ?_
    rw [Seg.head (h.table.ends b)]
    exact Writer.loop_facts (Mem.Table.start_place k b)
  | loadKey op k b prev cur =>
    rw [hw] at hs hf
    cases hs
    split
    · exact h.stay (by simp [hw, Writer.inside]) (by simp [Writer.inHand]) ⟨hf, by assumption⟩
    · obtain ⟨l₁, l₂, hp⟩ := hf
      exact h.stay (by simp [hw, Writer.inside]) (by simp [Writer.inHand])
        ⟨⟨prev, l₁, l₂, hp⟩, by omega⟩
  | loadKeyAgain op k b prev cur =>
    rw [hw] at hs hf
    obtain ⟨⟨l₁, l₂, hp⟩, hk⟩ := hf
    cases op <;> cases hs <;> split
    · exact h.stay (by simp [hw, Writer.inside]) (by simp [Writer.inHand]) trivial
    · exact h.stay (by simp [hw, Writer.inside]) (by simp [Writer.inHand])
        (h.table.slot hp (by omega))
    · exact h.stay (by simp [hw, Writer.inside]) (by simp [Writer.inHand]) trivial
    · exact h.stay (by simp [hw, Writer.inside]) (by simp [Writer.inHand])
        ⟨⟨l₁, l₂, hp⟩, by omega⟩
  | advance op k b cur =>
    rw [hw] at hs hf
    obtain ⟨⟨prev, l₁, l₂, hp⟩, hk⟩ := hf
    cases hs
    refine h.stay (fun b' hb => by rw [hw]; rwa [Writer.loop_inside] at hb) (by simp) ?_
    rw [h.table.next_eq hp.split]
    exact Writer.loop_facts (hp.advance hk)
  | loadNext k b prev cur =>
    rw [hw] at hs hf
    cases hs
    exact h.stay (by simp [hw, Writer.inside]) (by simp [Writer.inHand]) ⟨hf.1, hf.2, rfl⟩
  | unlink k b prev cur nx =>
    rw [hw] at hs
    cases hs
    exact writers_unlink h hw
  | storeKey k b prev cur new =>
    rw [hw] at hs hf
    cases hs
    refine h.private_write (n := new) (by simp [hw, Writer.inHand]) rfl rfl
      (fun x hx => Function.update_of_ne hx _ _) (fun _ _ => rfl) (by simp [hw, Writer.inside])
      (by simp [hw, Writer.inHand]) fun hag => ⟨Mem.Slot.agree hf (hag b), by simp⟩
  | storeNext k b prev cur new =>
    rw [hw] at hs hf
    cases hs
    refine h.private_write (n := new) (by simp [hw, Writer.inHand]) rfl rfl
      (fun _ _ => rfl) (fun x hx => Function.update_of_ne hx _ _) (by simp [hw, Writer.inside])
      (by simp [hw, Writer.inHand]) fun hag => ⟨Mem.Slot.agree hf.1 (hag b), hf.2, by simp⟩
  | link k b prev cur new =>
    rw [hw] at hs
    cases hs
    exact writers_link h hw

omit [DecidableEq υ] in
/-- What one access changes: only a node in hand gets a new key, only an unlink, after which the
updater holds the node, takes a node out of its bucket, and only a node in hand is linked. -/
theorem Writers.step_keeps (h : Writers m upd) (hs : (upd u).step start m = some (m', w')) :
    (∀ n, (upd u).inHand ≠ some n → m'.key n = m.key n) ∧
    (∀ b, ∀ n ∈ m.chain b, n ∈ m'.chain b ∨ w' = .freeNodeLater b n start) ∧
    m'.gc = m.gc ∧ m'.rc = m.rc ∧ m'.locks = m.locks ∧ m'.avail = m.avail ∧
    ∀ n, (∃ b, n ∈ m'.chain b) ∨ w'.inHand = some n → (∃ b, n ∈ m.chain b) ∨ (upd u).inHand = some n := by
  have hf := h.facts u
  cases hw : upd u with
  | ready | wlock | freeNodeLater | initNewNode | handOver | wunlock | returned =>
    simp [hw, Writer.step] at hs
  | emptyTest k b | loadKey op k b prev cur | loadNext k b prev cur =>
    rw [hw] at hs
    cases hs
    refine ⟨fun _ _ => rfl, fun _ _ hn => .inl hn, rfl, rfl, rfl, rfl, fun n hn => hn.imp_right ?_⟩
    first | split <;> simp [Writer.inHand] | simp [Writer.inHand]
  | loadHead op k b | advance op k b cur =>
    rw [hw] at hs
    cases hs
    exact ⟨fun _ _ => rfl, fun _ _ hn => .inl hn, rfl, rfl, rfl, rfl, fun n hn => hn.imp_right (by simp)⟩
  | loadKeyAgain op k b prev cur =>
    rw [hw] at hs
    cases op <;> cases hs <;>
      refine ⟨fun _ _ => rfl, fun _ _ hn => .inl hn, rfl, rfl, rfl, rfl, fun n hn => hn.imp_right ?_⟩ <;>
      split <;> simp [Writer.inHand]
  | unlink k b prev cur nx =>
    rw [hw] at hs hf
    obtain ⟨⟨l₁, l₂, hp⟩, hk, rfl⟩ := hf
    cases hs
    obtain ⟨_, _, _, hch, hne⟩ := h.table.unlink_chain hp
    refine ⟨by simp, fun b' n hn => ?_, by simp, by simp, by simp, by simp, fun n hn => .inl ?_⟩
    · by_cases hb : b' = b
      · subst hb
        rw [hch]
        rw [hp.split] at hn
        by_cases hc : n = cur
        · exact .inr (by rw [hc])
        · exact .inl (by simpa [hc] using hn)
      · rw [hne b' hb]; exact .inl hn
    · rcases hn with ⟨b', hn⟩ | hn
      · by_cases hb : b' = b
        · subst hb
          rw [hch] at hn
          exact ⟨b', by rw [hp.split]; exact (List.mem_append.mp hn).elim (by simp +contextual) (by simp +contextual)⟩
        · exact ⟨b', hne b' hb ▸ hn⟩
      · rw [show n = cur by simpa [Writer.inHand] using hn.symm]
        exact ⟨b, by simp [hp.split]⟩
  | storeKey k b prev cur new =>
    rw [hw] at hs
    cases hs
    refine ⟨fun n hn => Function.update_of_ne (fun he => hn (by simp [Writer.inHand, he])) _ _,
      fun _ _ hn => .inl hn, rfl, rfl, rfl, rfl, fun _ hn => hn⟩
  | storeNext k b prev cur new =>
    rw [hw] at hs
    cases hs
    have hnew := (h.fresh u new (by rw [hw]; rfl)).2
    have hch (b' : β) := Mem.chain_eq (m := { m with next := Function.update m.next new cur })
      ((h.table.ends b').update (hnew b'))
    refine ⟨fun _ _ => rfl, fun b' n hn => .inl ?_, rfl, rfl, rfl, rfl, fun n hn => hn.imp_left ?_⟩
    · rwa [hch]
    · rintro ⟨b', hn⟩
      exact ⟨b', by rwa [hch] at hn⟩
  | link k b prev p new =>
    rw [hw] at hs hf
    obtain ⟨⟨l₁, l₂, hp, rfl, _⟩, _, hx⟩ := hf
    cases hs
    obtain ⟨_, _, hch, hne⟩ := h.table.link_chain hp (h.fresh u new (by rw [hw]; rfl)).2 hx
    refine ⟨by simp, fun b' n hn => .inl ?_, by simp, by simp, by simp, by simp, fun n hn => ?_⟩
    · by_cases hb : b' = b
      · subst hb
        rw [hch]
        rw [hp.split] at hn
        rcases List.mem_append.mp hn with hn | hn <;> simp [hn]
      · rwa [hne b' hb]
    · obtain ⟨b', hm⟩ := hn.resolve_right (by simp [Writer.inHand])
      by_cases hb : b' = b
      · subst hb
        rw [hch] at hm
        by_cases hnew : n = new
        · exact .inr (by rw [hnew]; rfl)
        · exact .inl ⟨b', by rw [hp.split]; simpa [hnew] using hm⟩
      · exact .inl ⟨b', hne b' hb ▸ hm⟩

omit [DecidableEq υ] in
/-- A node that is not in hand keeps its link, unless it stays linked. -/
theorem Writers.step_next (h : Writers m upd) (hs : (upd u).step start m = some (m', w')) {n : Addr}
    (hn : (upd u).inHand ≠ some n) (hout : ∀ b, n ∉ m'.chain b) : m'.next n = m.next n := by
  have hf := h.facts u
  cases hw : upd u with
  | ready | wlock | freeNodeLater | initNewNode | handOver | wunlock | returned =>
    simp [hw, Writer.step] at hs
  | emptyTest | loadKey | loadNext | loadHead | advance | storeKey =>
    rw [hw] at hs
    cases hs
    rfl
  | loadKeyAgain op k b prev cur =>
    rw [hw] at hs
    cases op <;> cases hs <;> rfl
  | storeNext k b prev cur new =>
    rw [hw] at hs hn
    cases hs
    exact Function.update_of_ne (fun he => hn (by simp [Writer.inHand, he])) _ _
  | unlink k b prev cur nx =>
    rw [hw] at hs hf
    obtain ⟨⟨l₁, l₂, hp⟩, _, rfl⟩ := hf
    cases hs
    obtain ⟨_, _, _, hch, _⟩ := h.table.unlink_chain hp
    rw [hp.link]
    apply Mem.store_tailLink_next
    intro hm
    exact hout b (by simp [hch, hm])
  | link k b prev p new =>
    rw [hw] at hs hf
    obtain ⟨⟨l₁, l₂, hp, rfl, _⟩, _, hx⟩ := hf
    cases hs
    obtain ⟨_, _, hch, _⟩ := h.table.link_chain hp (h.fresh u new (by rw [hw]; rfl)).2 hx
    rw [hp.link]
    apply Mem.store_tailLink_next
    intro hm
    exact hout b (by simp [hch, hm])

omit [DecidableEq υ] in
/-- An access leaves alone every bucket that it does not relink. -/
theorem Writers.step_agree_of_relinks (h : Writers m upd) (hs : (upd u).step start m = some (m', w')) {b : β}
    (hb : (upd u).relinks ≠ some b) : m.Agree m' b := by
  have hf := h.facts u
  cases hw : upd u with
  | ready | wlock | freeNodeLater | initNewNode | handOver | wunlock | returned =>
    simp [hw, Writer.step] at hs
  | emptyTest | loadKey | loadNext | loadHead | advance =>
    rw [hw] at hs
    cases hs
    exact ⟨rfl, fun _ _ => rfl, fun _ _ => rfl⟩
  | loadKeyAgain op k b' prev cur =>
    rw [hw] at hs
    cases op <;> cases hs <;> exact ⟨rfl, fun _ _ => rfl, fun _ _ => rfl⟩
  | storeKey k b' prev cur new =>
    have hnew := (h.fresh u new (by rw [hw]; rfl)).2
    rw [hw] at hs
    cases hs
    refine ⟨rfl, fun n hn => ?_, fun _ _ => rfl⟩
    exact Function.update_of_ne (ne_of_mem_of_not_mem hn (hnew b)) _ _
  | storeNext k b' prev cur new =>
    have hnew := (h.fresh u new (by rw [hw]; rfl)).2
    rw [hw] at hs
    cases hs
    refine ⟨Mem.chain_eq ((h.table.ends b).update (hnew b)), fun _ _ => rfl, fun n hn => ?_⟩
    exact Function.update_of_ne (ne_of_mem_of_not_mem hn (hnew b)) _ _
  | unlink k b' prev cur nx =>
    rw [hw] at hs hf hb
    obtain ⟨⟨l₁, l₂, hp⟩, _, rfl⟩ := hf
    cases hs
    have hne : b ≠ b' := fun he => hb (by rw [he]; rfl)
    obtain ⟨_, _, _, _, hch⟩ := h.table.unlink_chain hp
    refine ⟨hch b hne, fun _ _ => by rw [Mem.store_key], fun n hn => ?_⟩
    rw [hp.link]
    apply Mem.store_tailLink_next
    exact fun hm => hne (h.table.apart b b' n hn (by simp [hp.split, hm]))
  | link k b' prev p new =>
    have hnew := (h.fresh u new (by rw [hw]; rfl)).2
    rw [hw] at hs hf hb
    obtain ⟨⟨l₁, l₂, hp, rfl, _⟩, _, hx⟩ := hf
    cases hs
    have hne : b ≠ b' := fun he => hb (by rw [he]; rfl)
    obtain ⟨_, _, _, hch⟩ := h.table.link_chain hp hnew hx
    refine ⟨hch b hne, fun _ _ => by rw [Mem.store_key], fun n hn => ?_⟩
    rw [hp.link]
    apply Mem.store_tailLink_next
    exact fun hm => hne (h.table.apart b b' n hn (by simp [hp.split, hm]))

omit [DecidableEq υ] in
/-- An access leaves alone every bucket that the updater is not inside. -/
theorem Writers.step_agree (h : Writers m upd) (hs : (upd u).step start m = some (m', w')) {b : β}
    (hb : (upd u).inside ≠ some b) : m.Agree m' b := by
  apply h.step_agree_of_relinks hs
  intro hr
  exact hb (Writer.inside_of_relinks hr)

end store
end Gecos
