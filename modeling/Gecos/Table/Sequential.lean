import Gecos.Table.WriterStep

/-! `insert` and `delete` of list_writer.c without interruption: the search loop and the two updates. -/
namespace Gecos
open Library
variable {β : Type} {m m' : Mem β} {b : β} {k : Int} {prev : Link β} {cur : Ptr} {n : Addr}
  {l₁ l₂ : List Addr} {fuel : Nat}

namespace Mem

/-- The search loop of both functions, from `prev` and `cur` on, over at most `fuel` nodes. -/
def locate (m : Mem β) (k : Int) : Nat → Link β → Ptr → Link β × Ptr
  | fuel + 1, prev, some cur =>
    if m.key cur < k then m.locate k fuel (.next cur) (m.next cur) else (prev, some cur)
  | _, prev, cur => (prev, cur)

/-- Where `insert(k, &heads[b], _)` and `delete(k, &heads[b], _)` stop searching. -/
def find (m : Mem β) (fuel : Nat) (k : Int) (b : β) : Link β × Ptr :=
  m.locate k fuel (.head b) (m.heads b)

section update
variable [DecidableEq β]

/-- `*prev = cur->next` -/
def unlink (m : Mem β) (prev : Link β) (cur : Addr) : Mem β := m.store prev (m.next cur)

/-- `new->key = key; new->next = cur; *prev = new`, with `new` no longer available. -/
def linkNew (m : Mem β) (k : Int) (prev : Link β) (cur : Ptr) (new : Addr) : Mem β :=
  store { m with
    key := Function.update m.key new k, next := Function.update m.next new cur,
    avail := Function.update m.avail new false } prev (some new)

end update

/-- The loop stops at the first node that is not below `k`. -/
theorem Table.locate (ht : m.Table) (hp : m.Place b k prev l₁ l₂) (hlen : l₂.length ≤ fuel) :
    ∃ l₁ l₃, m.Place b k (m.locate k fuel prev l₂.head?).1 l₁ l₃ ∧
      (m.locate k fuel prev l₂.head?).2 = l₃.head? ∧ ∀ x ∈ l₃, k ≤ m.key x := by
  induction fuel generalizing prev l₁ l₂ with
  | zero =>
    obtain rfl := List.length_eq_zero_iff.mp (Nat.le_zero.mp hlen)
    exact ⟨l₁, [], hp, rfl, by simp⟩
  | succ fuel ih =>
    cases l₂ with
    | nil => exact ⟨l₁, [], hp, rfl, by simp⟩
    | cons c l₂ =>
      simp only [List.head?_cons, Mem.locate]
      split
      · rename_i hk
        rw [ht.next_eq hp.split]
        exact ih (hp.advance hk) (by simpa using hlen)
      · rename_i hk
        refine ⟨l₁, c :: l₂, hp, rfl, fun x hx => ?_⟩
        have hab := (ht.below_above hp.split).2
        rcases List.mem_cons.mp hx with rfl | hx
        · omega
        · have := hab x hx
          omega

theorem Table.find (ht : m.Table) (k : Int) (hlen : (m.chain b).length ≤ fuel) :
    ∃ l₁ l₂, m.Place b k (m.find fuel k b).1 l₁ l₂ ∧ (m.find fuel k b).2 = l₂.head? ∧
      ∀ x ∈ l₂, k ≤ m.key x := by
  have hloc := ht.locate (Table.start_place k b) hlen
  rw [← Seg.head (ht.ends b)] at hloc
  exact hloc

section update
variable [DecidableEq β] {c new : Addr}

/-- Unlinking takes exactly `c` out of the table. -/
theorem Table.unlink (ht : m.Table) (hp : m.Place b k prev l₁ (c :: l₂)) :
    (m.unlink prev c).Table ∧ (m.unlink prev c).chain b = l₁ ++ l₂ ∧
      ∀ b' ≠ b, (m.unlink prev c).chain b' = m.chain b' := by
  obtain ⟨h₃, hd, hcur, hch, hne⟩ := ht.unlink_chain hp
  refine ⟨?_, hch, hne⟩
  unfold Mem.unlink
  rw [hp.link]
  have hs := ht.sorted b
  rw [hp.split] at hs
  refine ht.store hp.split h₃ hd (hs.sublist (by simp)) (fun x hx => ?_) fun b' hb x hx hx' => ?_
  · exact ht.inUse b x (by simp [hp.split, hx])
  · exact hb (ht.apart _ _ x hx' (by simp [hp.split, hx]))

/-- Linking a node that no bucket has puts exactly this node in. -/
theorem Table.linkNew (ht : m.Table) (hp : m.Place b k prev l₁ l₂) (hk : ∀ x ∈ l₂, k < m.key x)
    (hnew : ∀ b, new ∉ m.chain b) :
    (m.linkNew k prev l₂.head? new).Table ∧ (m.linkNew k prev l₂.head? new).chain b = l₁ ++ new :: l₂ ∧
      ∀ b' ≠ b, (m.linkNew k prev l₂.head? new).chain b' = m.chain b' := by
  unfold Mem.linkNew
  generalize hm : ({ m with
    key := Function.update m.key new k, next := Function.update m.next new l₂.head?,
    avail := Function.update m.avail new false } : Mem β) = m₁
  obtain ⟨ht₁, hag⟩ : m₁.Table ∧ ∀ b, m.Agree m₁ b := by
    subst hm
    exact ht.write_off hnew rfl (fun x hx => Function.update_of_ne hx _ _)
      (fun x hx => Function.update_of_ne hx _ _) fun x hx => Function.update_of_ne hx _ _
  have hp₁ := hp.agree (hag b)
  have hnew₁ : ∀ b, new ∉ m₁.chain b := fun b => by rw [(hag b).chain]; exact hnew b
  have hkey : m₁.key new = k := by simp [← hm]
  have hav : m₁.avail new = false := by simp [← hm]
  have hk₁ : ∀ x ∈ l₂, k < m₁.key x := fun x hx => by
    rw [(hag b).key x (by simp [hp.split, hx])]
    exact hk x hx
  obtain ⟨h₃, hd, hch, hne⟩ := ht₁.link_chain hp₁ hnew₁ (by simp [← hm])
  refine ⟨?_, hch, fun b' hb => (hne b' hb).trans (hag b').chain⟩
  rw [hp₁.link]
  refine ht₁.store hp₁.split h₃ hd (ht₁.sorted_link hp₁ hk₁ hkey) (fun x hx => ?_) fun b' hb x hx hx' => ?_
  · rcases List.mem_cons.mp hx with rfl | hx
    · exact hav
    · exact ht₁.inUse b x (by simp [hp₁.split, hx])
  · rcases List.mem_cons.mp hx with rfl | hx
    · exact hnew₁ b' hx'
    · exact hb (ht₁.apart _ _ x hx' (by simp [hp₁.split, hx]))

theorem Table.mem_unlink (ht : m.Table) (hp : m.Place b k prev l₁ (c :: l₂)) (b' : β) (n : Addr) :
    n ∈ (m.unlink prev c).chain b' ↔ n ∈ m.chain b' ∧ n ≠ c := by
  obtain ⟨_, hch, hne⟩ := ht.unlink hp
  have hc : c ∈ m.chain b := by simp [hp.split]
  by_cases hb : b' = b
  · subst hb
    have hno := (ht.unlink_chain hp).2.2.1
    rw [hch, hp.split]
    constructor
    · intro hn
      refine ⟨by simp only [List.mem_append, List.mem_cons] at hn ⊢; tauto, ?_⟩
      rintro rfl
      exact hno hn
    · rintro ⟨hn, hnc⟩
      simpa [hnc] using hn
  · rw [hne b' hb]
    exact ⟨fun hn => ⟨hn, fun he => hb (ht.apart _ _ c (he ▸ hn) hc)⟩, And.left⟩

theorem Table.mem_linkNew (ht : m.Table) (hp : m.Place b k prev l₁ l₂) (hk : ∀ x ∈ l₂, k < m.key x)
    (hnew : ∀ b, new ∉ m.chain b) (b' : β) (n : Addr) :
    n ∈ (m.linkNew k prev l₂.head? new).chain b' ↔ n ∈ m.chain b' ∨ b' = b ∧ n = new := by
  obtain ⟨_, hch, hne⟩ := ht.linkNew hp hk hnew
  by_cases hb : b' = b
  · subst hb
    rw [hch, hp.split]
    simp only [List.mem_append, List.mem_cons, true_and]
    tauto
  · rw [hne b' hb]
    simp [hb]

/-- Only the links of linked nodes change, and that of the new one. -/
theorem Place.unlink_next (hp : m.Place b k prev l₁ (c :: l₂)) (hn : n ∉ l₁) :
    (m.unlink prev c).next n = m.next n := by
  rw [Mem.unlink, hp.link]
  exact Mem.store_tailLink_next hn

theorem Place.linkNew_next (hp : m.Place b k prev l₁ l₂) (hn : n ∉ m.chain b) (hne : n ≠ new) :
    (m.linkNew k prev cur new).next n = m.next n := by
  rw [Mem.linkNew, hp.link]
  exact (Mem.store_tailLink_next fun hm => hn (by simp [hp.split, hm])).trans (Function.update_of_ne hne _ _)

/-- Where a link of the table leads, the chain of every node still ends. -/
theorem store_ends {p : Ptr} {l₃ : List Addr} (he : Ends m.next) (h₃ : Chain m.next p l₃) (hd : ∀ x ∈ l₁, x ∉ l₃) :
    Ends (m.store (tailLink b l₁) p).next := by
  rcases List.eq_nil_or_concat l₁ with rfl | ⟨l, a, rfl⟩
  · exact he
  · simp only [List.concat_eq_append, tailLink_concat, Mem.store]
    exact he.update h₃ (hd a (by simp))

theorem Table.unlink_ends (ht : m.Table) (hp : m.Place b k prev l₁ (c :: l₂)) (he : Ends m.next) :
    Ends (m.unlink prev c).next := by
  obtain ⟨h₃, hd, _⟩ := ht.unlink_chain hp
  rw [Mem.unlink, hp.link]
  exact store_ends he h₃ hd

theorem Table.linkNew_ends (ht : m.Table) (hp : m.Place b k prev l₁ l₂) (hnew : ∀ b, new ∉ m.chain b)
    (he : Ends m.next) : Ends (m.linkNew k prev l₂.head? new).next := by
  have hc := ht.ends b
  rw [hp.split] at hc
  obtain ⟨q, _, h₂⟩ := seg_append.mp hc
  have hq : q = l₂.head? := Seg.head h₂
  subst hq
  have hnd := List.nodup_append.mp hc.nodup
  have hnl (x : Addr) (hx : x ∈ l₁ ++ l₂) : x ≠ new := by
    rintro rfl
    exact hnew b (by rwa [hp.split])
  have hn₂ : new ∉ l₂ := fun hm => hnl new (by simp [hm]) rfl
  have h₃ : Chain (Function.update m.next new l₂.head?) (some new) (new :: l₂) := by
    refine ⟨rfl, ?_⟩
    rw [Function.update_self]
    exact Seg.update h₂ hn₂
  have hd (x : Addr) (hx : x ∈ l₁) : x ∉ new :: l₂ :=
    List.not_mem_cons_of_ne_of_not_mem (hnl x (by simp [hx])) fun hm => hnd.2.2 x hx x hm rfl
  rw [Mem.linkNew, hp.link]
  exact store_ends (m := { m with
    key := Function.update m.key new k, next := Function.update m.next new l₂.head?,
    avail := Function.update m.avail new false }) (he.update h₂ hn₂) h₃ hd

end update
end Mem
end Gecos
