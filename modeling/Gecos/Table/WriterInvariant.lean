import Gecos.Table.Writer

/-! What serialised updaters keep true of the table, and what each of their steps does. -/
namespace Gecos
open Library
variable {β ρ υ : Type} {m m' : Mem β} {upd upd' : υ → Writer β ρ} {u : υ} {w w' : Writer β ρ}
  {start : ρ}

/-- The table is well formed, at most one updater is inside each bucket, nodes in hand are
neither linked nor available nor shared, and every updater's locals are right. -/
structure Writers (m : Mem β) (upd : υ → Writer β ρ) : Prop where
  table : m.Table
  serial : ∀ u v b, (upd u).inside = some b → (upd v).inside = some b → u = v
  fresh : ∀ u n, (upd u).inHand = some n → m.avail n = false ∧ ∀ b, n ∉ m.chain b
  alone : ∀ u v n, (upd u).inHand = some n → (upd v).inHand = some n → u = v
  facts : ∀ u, (upd u).Facts m

theorem Writers.init : Writers (Mem.init β) fun _ : υ => (.ready : Writer β ρ) where
  table := .init
  serial _ _ _ h := by simp [Writer.inside] at h
  fresh _ _ h := by simp [Writer.inHand] at h
  alone _ _ _ h := by simp [Writer.inHand] at h
  facts _ := trivial

namespace Writers

/-- A node becomes available that no bucket and no updater has. -/
theorem reclaim {n : Addr} (h : Writers m upd) (hch : ∀ b, n ∉ m.chain b)
    (hhand : ∀ u, (upd u).inHand ≠ some n) :
    Writers { m with avail := Function.update m.avail n true } upd := by
  have huse (x : Addr) (hx : x ≠ n) : Function.update m.avail n true x = m.avail x :=
    Function.update_of_ne hx _ _
  refine ⟨⟨h.table.ends, h.table.sorted, h.table.apart, fun b x hx => ?_⟩, h.serial,
    fun u x hx => ⟨?_, (h.fresh u x hx).2⟩, h.alone, fun u => ?_⟩
  · exact (huse x (ne_of_mem_of_not_mem hx (hch b))).trans (h.table.inUse b x hx)
  · refine (huse x ?_).trans (h.fresh u x hx).1
    rintro rfl
    exact hhand u hx
  · exact (h.facts u).agree (fun b _ => ⟨rfl, fun _ _ => rfl, fun _ _ => rfl⟩) fun _ _ => ⟨rfl, rfl⟩

variable [DecidableEq υ]

/-- The general rule: updater `u` moves to `w'` while the memory changes to `m'`. -/
theorem move (h : Writers m upd) (ht : m'.Table)
    (hin : ∀ b, w'.inside = some b →
      (upd u).inside = some b ∨ ∀ v, (upd v).inside ≠ some b)
    (hown : ∀ n, w'.inHand = some n → (m'.avail n = false ∧ ∀ b, n ∉ m'.chain b) ∧
      ∀ v ≠ u, (upd v).inHand ≠ some n)
    (hother : ∀ v ≠ u, ∀ n, (upd v).inHand = some n → (m'.avail n = false ∧ ∀ b, n ∉ m'.chain b) ∧
      m'.key n = m.key n ∧ m'.next n = m.next n)
    (hagree : ∀ v ≠ u, ∀ b, (upd v).inside = some b → m.Agree m' b)
    (hf : w'.Facts m') : Writers m' (Function.update upd u w') := by
  constructor
  · exact ht
  · intro v₁ v₂ b h₁ h₂
    by_cases e₁ : v₁ = u <;> by_cases e₂ : v₂ = u
    · rw [e₁, e₂]
    · subst e₁
      rw [Function.update_self] at h₁
      rw [Function.update_of_ne e₂] at h₂
      exact (hin b h₁).elim (fun h₁ => h.serial _ _ b h₁ h₂) fun hv => (hv v₂ h₂).elim
    · subst e₂
      rw [Function.update_self] at h₂
      rw [Function.update_of_ne e₁] at h₁
      exact (hin b h₂).elim (fun h₂ => h.serial _ _ b h₁ h₂) fun hv => (hv v₁ h₁).elim
    · rw [Function.update_of_ne e₁] at h₁
      rw [Function.update_of_ne e₂] at h₂
      exact h.serial _ _ b h₁ h₂
  · intro v n hv
    by_cases e : v = u
    · subst e; rw [Function.update_self] at hv; exact (hown n hv).1
    · rw [Function.update_of_ne e] at hv; exact (hother v e n hv).1
  · intro v₁ v₂ n h₁ h₂
    by_cases e₁ : v₁ = u <;> by_cases e₂ : v₂ = u
    · rw [e₁, e₂]
    · subst e₁
      rw [Function.update_self] at h₁
      rw [Function.update_of_ne e₂] at h₂
      exact ((hown n h₁).2 v₂ e₂ h₂).elim
    · subst e₂
      rw [Function.update_self] at h₂
      rw [Function.update_of_ne e₁] at h₁
      exact ((hown n h₂).2 v₁ e₁ h₁).elim
    · rw [Function.update_of_ne e₁] at h₁
      rw [Function.update_of_ne e₂] at h₂
      exact h.alone _ _ n h₁ h₂
  · intro v
    by_cases e : v = u
    · subst e; rw [Function.update_self]; exact hf
    · rw [Function.update_of_ne e]
      exact (h.facts v).agree (hagree v e) fun n hn => (hother v e n hn).2

/-- Steps that leave links and keys alone, and free no node that is linked or in another hand. -/
theorem frame (h : Writers m upd) (hk : m'.key = m.key) (hn : m'.next = m.next)
    (hh : m'.heads = m.heads)
    (hav : ∀ n, m'.avail n = true → m.avail n = true ∨
      (∀ b, n ∉ m.chain b) ∧ (∀ v ≠ u, (upd v).inHand ≠ some n) ∧ w'.inHand ≠ some n)
    (hin : ∀ b, w'.inside = some b → (upd u).inside = some b ∨ ∀ v, (upd v).inside ≠ some b)
    (hown : ∀ n, w'.inHand = some n → (upd u).inHand = some n ∨
      m'.avail n = false ∧ (∀ b, n ∉ m.chain b) ∧ ∀ v ≠ u, (upd v).inHand ≠ some n)
    (hf : w'.Facts m) : Writers m' (Function.update upd u w') := by
  have hc (b : β) : m'.chain b = m.chain b := by simp [Mem.chain, hn, hh]
  have hag (b : β) : m.Agree m' b := ⟨hc b, fun n _ => by rw [hk], fun n _ => by rw [hn]⟩
  have huse (n : Addr) (hm : m.avail n = false)
      (hnot : ¬((∀ b, n ∉ m.chain b) ∧ (∀ v ≠ u, (upd v).inHand ≠ some n) ∧ w'.inHand ≠ some n)) :
      m'.avail n = false := by
    by_contra hne
    rcases hav n (by simpa using hne) with hm' | hm'
    · simp [hm] at hm'
    · exact hnot hm'
  refine h.move ⟨fun b => ?_, fun b => ?_, fun b b' n => ?_, fun b n hb => ?_⟩ hin ?_ ?_
    (fun _ _ b _ => hag b) (hf.agree (fun b _ => hag b) fun n _ => by simp [hk, hn])
  · rw [hc, hn, hh]; exact h.table.ends b
  · rw [hc, hk]; exact h.table.sorted b
  · rw [hc, hc]; exact h.table.apart b b' n
  · rw [hc] at hb
    exact huse n (h.table.inUse b n hb) fun hnot => hnot.1 b hb
  · intro n hw
    rcases hown n hw with hu | ⟨ha, hch, hv⟩
    · refine ⟨⟨huse n (h.fresh u n hu).1 fun hnot => hnot.2.2 hw, fun b => ?_⟩,
        fun v hvu hv => hvu (h.alone v u n hv hu)⟩
      rw [hc]; exact (h.fresh u n hu).2 b
    · exact ⟨⟨ha, fun b => by rw [hc]; exact hch b⟩, hv⟩
  · intro v hv n hn'
    refine ⟨⟨huse n (h.fresh v n hn').1 fun hnot => hnot.2.1 v hv hn', fun b => ?_⟩, by rw [hk],
      by rw [hn]⟩
    rw [hc]; exact (h.fresh v n hn').2 b

/-- A step of the updater's own that leaves the memory alone. -/
theorem stay (h : Writers m upd) (hin : ∀ b, w'.inside = some b → (upd u).inside = some b)
    (hown : ∀ n, w'.inHand = some n → (upd u).inHand = some n) (hf : w'.Facts m) :
    Writers m (Function.update upd u w') :=
  h.frame rfl rfl rfl (fun _ hn => .inl hn) (fun b hb => .inl (hin b hb))
    (fun n hn => .inl (hown n hn)) hf

/-- A step between the unlinking of a node and its `free_node`, inside `free_node_later`. -/
theorem keepHand {b : β} {n : Addr} {r r' : ρ} (h : Writers m upd)
    (he : upd u = .freeNodeLater b n r) (hk : m'.key = m.key) (hn : m'.next = m.next)
    (hh : m'.heads = m.heads) (hav : m'.avail = m.avail) :
    Writers m' (Function.update upd u (.freeNodeLater b n r')) := by
  have hf := h.facts u
  rw [he] at hf
  apply h.frame hk hn hh
  · exact fun x hx => .inl (by rwa [hav] at hx)
  · exact fun b' hb => .inl (by rw [he]; exact hb)
  · exact fun x hx => .inl (by rw [he]; exact hx)
  · exact hf

/-- `free_node` of the unlinked node, as the last act of `free_node_later`. -/
theorem giveUp {b : β} {n : Addr} {r : ρ} (h : Writers m upd) (he : upd u = .freeNodeLater b n r)
    (hk : m'.key = m.key) (hn : m'.next = m.next) (hh : m'.heads = m.heads)
    (hav : m'.avail = Function.update m.avail n true) :
    Writers m' (Function.update upd u (.wunlock b 1)) := by
  have hhand : (upd u).inHand = some n := by rw [he]; rfl
  have hother : ∀ v ≠ u, (upd v).inHand ≠ some n := fun v hv hvn => hv (h.alone v u n hvn hhand)
  apply h.frame hk hn hh
  · intro x hx
    by_cases hxn : x = n
    · subst hxn
      exact .inr ⟨(h.fresh u x hhand).2, hother, by simp [Writer.inHand]⟩
    · exact .inl (by simpa [hav, Function.update_of_ne hxn] using hx)
  · exact fun b' hb => .inl (by rw [he]; exact hb)
  · simp [Writer.inHand]
  · trivial

/-- `init_new_node` hands out a node that was available. -/
theorem handOut {k : Int} {b : β} {prev : Link β} {cur : Ptr} {n : Addr} (h : Writers m upd)
    (he : upd u = .initNewNode k b prev cur) (hn : m.avail n = true) (hin : w'.inside = some b)
    (hhand : w'.inHand = some n) (hf : m.Slot b k prev cur → w'.Facts m) :
    Writers { m with avail := Function.update m.avail n false } (Function.update upd u w') := by
  have hslot := h.facts u
  rw [he] at hslot
  refine h.frame rfl rfl rfl (fun x hx => ?_) (fun b' hb => .inl ?_) (fun x hx => .inr ?_) (hf hslot)
  · by_cases hxn : x = n
    · simp [hxn] at hx
    · exact .inl (by simpa [Function.update_of_ne hxn] using hx)
  · rw [he, show b' = b by simpa [hin] using hb.symm]
    rfl
  · rw [show x = n by simpa [hhand] using hx.symm]
    refine ⟨by simp, fun b hb => ?_, fun v _ hv => ?_⟩
    · simp [h.table.inUse b n hb] at hn
    · simp [(h.fresh v n hv).1] at hn

/-- Writing a field of a node in hand, that nobody else can see. -/
theorem private_write (h : Writers m upd) {n : Addr} (hn : (upd u).inHand = some n)
    (hh : m'.heads = m.heads) (hav : m'.avail = m.avail)
    (hk : ∀ x, x ≠ n → m'.key x = m.key x) (hx : ∀ x, x ≠ n → m'.next x = m.next x)
    (hin : ∀ b, w'.inside = some b → (upd u).inside = some b)
    (hown : ∀ n, w'.inHand = some n → (upd u).inHand = some n)
    (hf : (∀ b, m.Agree m' b) → w'.Facts m') : Writers m' (Function.update upd u w') := by
  obtain ⟨ht, hag⟩ := h.table.write_off (h.fresh u n hn).2 hh hk hx fun x _ => by rw [hav]
  refine h.move ht (fun b hb => .inl (hin b hb)) (fun x hw => ?_) (fun v hv x hw => ?_)
    (fun _ _ b _ => hag b) (hf hag)
  · refine ⟨⟨by rw [hav]; exact (h.fresh u x (hown x hw)).1, fun b => ?_⟩,
      fun v hv hvx => hv (h.alone v u x hvx (hown x hw))⟩
    rw [(hag b).chain]; exact (h.fresh u x (hown x hw)).2 b
  · have hxn : x ≠ n := fun he => hv (h.alone v u n (he ▸ hw) hn)
    refine ⟨⟨by rw [hav]; exact (h.fresh v x hw).1, fun b => ?_⟩, hk x hxn, hx x hxn⟩
    rw [(hag b).chain]; exact (h.fresh v x hw).2 b

section store
variable [DecidableEq β] {b : β} {p : Ptr} {l₁ l₂ l₃ : List Addr} {prev : Link β}

/-- Storing through a link of the bucket the updater is inside, by which that bucket
becomes `l₁ ++ l₃`. -/
theorem store (h : Writers m upd) (hub : (upd u).inside = some b) (hp : m.chain b = l₁ ++ l₂)
    (h₃ : Chain m.next p l₃) (hd : ∀ x ∈ l₁, x ∉ l₃)
    (hs : (l₁ ++ l₃).Pairwise (m.key · < m.key ·))
    (hnew : ∀ x ∈ l₃, x ∈ m.chain b ∨ (upd u).inHand = some x)
    (hin : ∀ b', w'.inside = some b' → b' = b)
    (hown : ∀ n, w'.inHand = some n → n ∈ m.chain b ∧ n ∉ l₁ ++ l₃)
    (hf : w'.Facts (m.store (Mem.tailLink b l₁) p)) :
    Writers (m.store (Mem.tailLink b l₁) p) (Function.update upd u w') := by
  have hc := h.table.store_chain hp h₃ hd
  have hne (b' : β) (hb : b' ≠ b) := h.table.store_chain_ne hp h₃ hd hb
  have hfree : ∀ x ∈ l₁ ++ l₃, m.avail x = false ∧ ∀ b' ≠ b, x ∉ m.chain b' := by
    intro x hx
    have hx' : x ∈ m.chain b ∨ (upd u).inHand = some x :=
      (List.mem_append.mp hx).elim (fun hx => .inl (by simp [hp, hx])) (hnew x)
    rcases hx' with hx' | hx'
    · exact ⟨h.table.inUse b x hx', fun b' hb hb' => hb (h.table.apart _ _ x hb' hx')⟩
    · exact ⟨(h.fresh u x hx').1, fun b' _ => (h.fresh u x hx').2 b'⟩
  have hnext (x : Addr) (hx : x ∉ m.chain b) : (m.store (Mem.tailLink b l₁) p).next x = m.next x := by
    rcases List.eq_nil_or_concat l₁ with rfl | ⟨l, a, rfl⟩
    · rfl
    · simp only [List.concat_eq_append, Mem.tailLink_concat, Mem.store]
      exact Function.update_of_ne (fun he => hx (by simp [hp, he])) _ _
  refine h.move (h.table.store hp h₃ hd hs (fun x hx => (hfree x (by simp [hx])).1)
    fun b' hb x hx => (hfree x (by simp [hx])).2 b' hb) (fun b' hb => .inl ?_) (fun n hn => ?_)
    (fun v hv n hn => ?_) (fun v hv b' hb => ?_) hf
  · rw [hin b' hb]; exact hub
  · obtain ⟨hnb, hn₁⟩ := hown n hn
    refine ⟨⟨by rw [Mem.store_avail]; exact h.table.inUse b n hnb, fun b' => ?_⟩,
      fun v _ hv => (h.fresh v n hv).2 b hnb⟩
    by_cases hb : b' = b
    · rw [hb, hc]; exact hn₁
    · rw [hne b' hb]; exact fun hb' => hb (h.table.apart _ _ n hb' hnb)
  · refine ⟨⟨by rw [Mem.store_avail]; exact (h.fresh v n hn).1, fun b' => ?_⟩, by rw [Mem.store_key],
      hnext n ((h.fresh v n hn).2 b)⟩
    by_cases hb : b' = b
    · rw [hb, hc]
      intro hx
      rcases List.mem_append.mp hx with hx | hx
      · exact (h.fresh v n hn).2 b (by simp [hp, hx])
      · exact (hnew n hx).elim ((h.fresh v n hn).2 b) fun hu => hv (h.alone v u n hn hu)
    · rw [hne b' hb]; exact (h.fresh v n hn).2 b'
  · have hbb : b' ≠ b := fun he => hv (h.serial v u b (he ▸ hb) hub)
    exact ⟨hne b' hbb, fun n _ => by rw [Mem.store_key], fun n hn =>
      hnext n fun hx => hbb (h.table.apart _ _ n hn hx)⟩

end store

end Writers
end Gecos
