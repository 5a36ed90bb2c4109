import Gecos.Table.Sequential
import Gecos.Table.Walk

/-! The calls of the table without interruption: `insert` and `delete` of list_writer.c with
`search` and `free_node_later` of list_lock.c, and the three functions of list_sgecos.c.
Every loop makes at most `fuel` tests of its condition; `none` is a loop that has not ended by
then, or an `insert` for which `new_node` is given a node it cannot return. -/
namespace Gecos
open Library
variable {β : Type}

/-- What a call leaves: the memory, what it returns, and the nodes it passed to `free_node`. -/
structure Outcome (β : Type) where
  mem : Mem β
  res : Nat
  freed : List Addr

namespace Mem

def freeNode (m : Mem β) (n : Addr) : Mem β := { m with avail := Function.update m.avail n true }

/-- `cur_key == key`, once `cur_key >= key`. -/
def found (m : Mem β) (k : Int) (cur : Addr) : Nat := if m.key cur = k then 1 else 0

end Mem

namespace ListWriter
variable [DecidableEq β] (m : Mem β) (k : Int)

/-- The loop of `delete`. -/
def deleteLoop : Nat → Link β → Ptr → Option (Outcome β)
  | 0, _, _ => none
  | _ + 1, _, none => some ⟨m, 0, []⟩
  | fuel + 1, prev, some cur =>
    if k ≤ m.key cur then
      if m.key cur ≠ k then some ⟨m, 0, []⟩
      else some ⟨(m.unlink prev cur).freeNode cur, 1, [cur]⟩
    else deleteLoop fuel (.next cur) (m.load (.next cur))

def delete (fuel : Nat) (b : β) : Option (Outcome β) :=
  if m.heads b = none then some ⟨m, 0, []⟩ else deleteLoop m k fuel (.head b) (m.heads b)

/-- The loop of `insert`, and what follows it; `new` is what `new_node` returns. -/
def insertLoop (new : Addr) : Nat → Link β → Ptr → Option (Outcome β)
  | 0, _, _ => none
  | _ + 1, prev, none => if m.avail new then some ⟨m.linkNew k prev none new, 1, []⟩ else none
  | fuel + 1, prev, some cur =>
    if k ≤ m.key cur then
      if m.key cur = k then some ⟨m, 0, []⟩
      else if m.avail new then some ⟨m.linkNew k prev (some cur) new, 1, []⟩ else none
    else insertLoop new fuel (.next cur) (m.next cur)

def insert (fuel : Nat) (b : β) (new : Addr) : Option (Outcome β) :=
  insertLoop m k new fuel (.head b) (m.heads b)

omit [DecidableEq β] in
/-- The loop of `search`. -/
def searchLoop : Nat → Ptr → Option (Outcome β)
  | 0, _ => none
  | _ + 1, none => some ⟨m, 0, []⟩
  | fuel + 1, some cur =>
    if k ≤ m.key cur then some ⟨m, m.found k cur, []⟩ else searchLoop fuel (m.next cur)

omit [DecidableEq β] in
def search (fuel : Nat) (b : β) : Option (Outcome β) := searchLoop m k fuel (m.heads b)

end ListWriter

namespace ListSgecos
variable [DecidableEq β] (m : Mem β) (k : Int)

/-- The loop of `delete`, which counts up the lock word before it frees. -/
def deleteLoop (b : β) : Nat → Link β → Ptr → Option (Outcome β)
  | 0, _, _ => none
  | _ + 1, _, none => some ⟨m, 0, []⟩
  | fuel + 1, prev, some cur =>
    if k ≤ m.key cur then
      if m.key cur ≠ k then some ⟨m, 0, []⟩
      else
        let m' := m.unlink prev cur
        some ⟨{ m' with locks := Function.update m'.locks b (m'.locks b + 1) }.freeNode cur, 1, [cur]⟩
    else deleteLoop b fuel (.next cur) (m.next cur)

def delete (fuel : Nat) (b : β) : Option (Outcome β) := deleteLoop m k b fuel (.head b) (m.heads b)

/-- The loop of `insert`, and what follows it. -/
def insertLoop (new : Addr) : Nat → Link β → Ptr → Option (Outcome β)
  | 0, _, _ => none
  | _ + 1, prev, none => if m.avail new then some ⟨m.linkNew k prev none new, 1, []⟩ else none
  | fuel + 1, prev, some cur =>
    if k ≤ m.key cur then
      if m.key cur = k then some ⟨m, 0, []⟩
      else if m.avail new then some ⟨m.linkNew k prev (some cur) new, 1, []⟩ else none
    else insertLoop new fuel (.next cur) (m.next cur)

def insert (fuel : Nat) (b : β) (new : Addr) : Option (Outcome β) :=
  insertLoop m k new fuel (.head b) (m.heads b)

omit [DecidableEq β] in
/-- The loop of `search` with the counter it loaded; a changed counter goes back to `retry`. -/
def searchLoop (b : β) : Nat → Nat → Ptr → Option (Outcome β)
  | 0, _, _ => none
  | _ + 1, _, none => some ⟨m, 0, []⟩
  | fuel + 1, lgc, some cur =>
    if lgc ≠ m.locks b then searchLoop b fuel (m.locks b) (m.heads b)
    else if k ≤ m.key cur then some ⟨m, m.found k cur, []⟩
    else searchLoop b fuel lgc (m.next cur)

omit [DecidableEq β] in
def search (fuel : Nat) (b : β) : Option (Outcome β) := searchLoop m k b fuel (m.locks b) (m.heads b)

end ListSgecos

namespace Mem
variable {m : Mem β} {b b' : β} {k k' : Int} {prev : Link β} {cur : Ptr} {n c new : Addr} {l₁ l₂ : List Addr} {fuel : Nat}

/-- Where a loop over bucket `b` for key `k` stops. -/
structure Stop (m : Mem β) (b : β) (k : Int) (prev : Link β) (l₁ l₂ : List Addr) : Prop where
  place : m.Place b k prev l₁ l₂
  above : ∀ x ∈ l₂, k ≤ m.key x

/-- A loop that steps over smaller keys gets to where it stops. -/
theorem Table.loop {γ : Type} (F : Nat → Link β → Ptr → γ) (ht : m.Table)
    (hF : ∀ fuel prev cur, m.key cur < k → F (fuel + 1) prev (some cur) = F fuel (.next cur) (m.next cur))
    (hp : m.Place b k prev l₁ l₂) (hlen : l₂.length < fuel) :
    ∃ fuel' p l₁' l₂', m.Stop b k p l₁' l₂' ∧ F fuel prev l₂.head? = F (fuel' + 1) p l₂'.head? := by
  induction l₂ generalizing fuel prev l₁ with
  | nil =>
    obtain ⟨fuel', rfl⟩ := Nat.exists_eq_add_one_of_ne_zero (Nat.ne_of_gt hlen)
    exact ⟨fuel', prev, l₁, [], ⟨hp, by simp⟩, rfl⟩
  | cons c l₂ ih =>
    obtain ⟨fuel', rfl⟩ := Nat.exists_eq_add_one_of_ne_zero (Nat.ne_of_gt (Nat.lt_of_le_of_lt (Nat.zero_le _) hlen))
    by_cases hk : m.key c < k
    · obtain ⟨f, p, l₁', l₂', hs, he⟩ := ih (hp.advance hk) (show l₂.length < fuel' by simpa using hlen)
      refine ⟨f, p, l₁', l₂', hs, ?_⟩
      rw [List.head?_cons, hF _ _ _ hk, ht.next_eq hp.split, he]
    · refine ⟨fuel', prev, l₁, c :: l₂, ⟨hp, fun x hx => ?_⟩, rfl⟩
      have hab := (ht.below_above hp.split).2
      rcases List.mem_cons.mp hx with rfl | hx
      · omega
      · have := hab x hx
        omega

theorem Stop.absent_end (h : m.Stop b k prev l₁ []) (ht : m.Table) : ¬ m.Member b k := by
  rw [ht.member_iff]
  rintro ⟨n, hn, rfl⟩
  rw [h.place.split, List.append_nil] at hn
  exact lt_irrefl _ (h.place.below n hn)

theorem Stop.member_iff (h : m.Stop b k prev l₁ (c :: l₂)) (ht : m.Table) : m.key c = k ↔ m.Member b k :=
  ht.settles h.place.split h.place.below (h.above c (by simp))

theorem Stop.slot (h : m.Stop b k prev l₁ l₂) (ht : m.Table) (hm : ¬ m.Member b k) : ∀ x ∈ l₂, k < m.key x := by
  intro x hx
  refine lt_of_le_of_ne (h.above x hx) fun he => hm ?_
  rw [ht.member_iff]
  exact ⟨x, by simp [h.place.split, hx], he.symm⟩

/-- A node is freed that no bucket has. -/
theorem Table.freeNode (ht : m.Table) (hn : ∀ b, n ∉ m.chain b) : (m.freeNode n).Table := by
  refine ⟨ht.ends, ht.sorted, ht.apart, fun b x hx => ?_⟩
  exact (Function.update_of_ne (ne_of_mem_of_not_mem hx (hn b)) _ _).trans (ht.inUse b x hx)

/-- From the head of the bucket. -/
theorem Table.loop_head {γ : Type} (F : Nat → Link β → Ptr → γ) (ht : m.Table)
    (hF : ∀ fuel prev cur, m.key cur < k → F (fuel + 1) prev (some cur) = F fuel (.next cur) (m.next cur))
    (hlen : (m.chain b).length < fuel) :
    ∃ fuel' p l₁ l₂, m.Stop b k p l₁ l₂ ∧ F fuel (.head b) (m.heads b) = F (fuel' + 1) p l₂.head? := by
  rw [Seg.head (ht.ends b)]
  exact ht.loop F hF (Table.start_place k b) hlen

section calls
variable [DecidableEq β]

/-- An `insert` that finds the key does nothing, and one that does not links the new node. -/
def Inserts (m : Mem β) (k : Int) (b : β) (new : Addr) (o : Option (Outcome β)) : Prop :=
  (m.Member b k ∧ o = some ⟨m, 0, []⟩) ∨
  ¬ m.Member b k ∧ ∃ p l₁ l₂, m.Stop b k p l₁ l₂ ∧
    o = if m.avail new then some ⟨m.linkNew k p l₂.head? new, 1, []⟩ else none

/-- A `delete` that finds the key unlinks its node and frees it, whatever it does to the lock word. -/
def Deletes (m : Mem β) (k : Int) (b : β) (o : Option (Outcome β)) : Prop :=
  (¬ m.Member b k ∧ o = some ⟨m, 0, []⟩) ∨
  ∃ p l₁ c l₂ lk, m.Stop b k p l₁ (c :: l₂) ∧ m.key c = k ∧
    o = some ⟨{ m.unlink p c with locks := lk }.freeNode c, 1, [c]⟩

omit [DecidableEq β] in
/-- A `search` answers whether the key is there. -/
def Searches (m : Mem β) (k : Int) (b : β) (o : Option (Outcome β)) : Prop :=
  ∃ res, o = some ⟨m, res, []⟩ ∧ (res = 0 ∨ res = 1) ∧ (res = 1 ↔ m.Member b k)

theorem Table.writer_insert (ht : m.Table) (hlen : (m.chain b).length < fuel) :
    m.Inserts k b new (ListWriter.insert m k fuel b new) := by
  obtain ⟨f, p, l₁, l₂, hs, he⟩ := ht.loop_head (ListWriter.insertLoop m k new) (k := k)
    (fun fuel prev cur hk => by rw [ListWriter.insertLoop, if_neg (by omega)]) hlen
  unfold ListWriter.insert
  rw [he]
  cases l₂ with
  | nil => exact .inr ⟨hs.absent_end ht, p, l₁, [], hs, rfl⟩
  | cons c l₂ =>
    simp only [List.head?_cons, ListWriter.insertLoop, hs.above c (by simp), if_true]
    by_cases hk : m.key c = k
    · exact .inl ⟨(hs.member_iff ht).mp hk, by simp [hk]⟩
    · refine .inr ⟨fun hm => hk ((hs.member_iff ht).mpr hm), p, l₁, c :: l₂, hs, ?_⟩
      simp [hk]

theorem Table.writer_delete (ht : m.Table) (hlen : (m.chain b).length < fuel) :
    m.Deletes k b (ListWriter.delete m k fuel b) := by
  unfold ListWriter.delete
  by_cases hh : m.heads b = none
  · exact .inl ⟨ht.head_none hh, by simp [hh]⟩
  · rw [if_neg hh]
    obtain ⟨f, p, l₁, l₂, hs, he⟩ := ht.loop_head (ListWriter.deleteLoop m k) (k := k)
      (fun fuel prev cur hk => by rw [ListWriter.deleteLoop, if_neg (by omega)]; rfl) hlen
    rw [he]
    cases l₂ with
    | nil => exact .inl ⟨hs.absent_end ht, rfl⟩
    | cons c l₂ =>
      simp only [List.head?_cons, ListWriter.deleteLoop, hs.above c (by simp), if_true]
      by_cases hk : m.key c = k
      · exact .inr ⟨p, l₁, c, l₂, _, hs, hk, by simp [hk]; rfl⟩
      · exact .inl ⟨fun hm => hk ((hs.member_iff ht).mpr hm), by simp [hk]⟩

omit [DecidableEq β] in
theorem Table.writer_search (ht : m.Table) (hlen : (m.chain b).length < fuel) :
    m.Searches k b (ListWriter.search m k fuel b) := by
  obtain ⟨f, p, l₁, l₂, hs, he⟩ := ht.loop_head (fun fuel _ cur => ListWriter.searchLoop m k fuel cur) (k := k)
    (fun fuel prev cur hk => by rw [ListWriter.searchLoop, if_neg (by omega)]) hlen
  unfold ListWriter.search
  rw [he]
  cases l₂ with
  | nil => exact ⟨0, rfl, .inl rfl, iff_of_false (by decide) (hs.absent_end ht)⟩
  | cons c l₂ =>
    simp only [List.head?_cons, ListWriter.searchLoop, hs.above c (by simp), if_true]
    refine ⟨m.found k c, rfl, ?_, ?_⟩
    · unfold found
      split <;> simp
    · rw [← hs.member_iff ht]
      simp [found]

/-- The two copies of `insert` are the same function. -/
theorem insert_copies (m : Mem β) (k : Int) (fuel : Nat) (b : β) (new : Addr) :
    ListSgecos.insert m k fuel b new = ListWriter.insert m k fuel b new := by
  unfold ListSgecos.insert ListWriter.insert
  generalize Link.head b = prev
  generalize m.heads b = cur
  induction fuel generalizing prev cur with
  | zero => rfl
  | succ fuel ih =>
    cases cur with
    | none => rfl
    | some c => rw [ListSgecos.insertLoop, ListWriter.insertLoop, ih]

theorem Table.sgecos_insert (ht : m.Table) (hlen : (m.chain b).length < fuel) :
    m.Inserts k b new (ListSgecos.insert m k fuel b new) := by
  rw [insert_copies]
  exact ht.writer_insert hlen

theorem Table.sgecos_delete (ht : m.Table) (hlen : (m.chain b).length < fuel) :
    m.Deletes k b (ListSgecos.delete m k fuel b) := by
  obtain ⟨f, p, l₁, l₂, hs, he⟩ := ht.loop_head (ListSgecos.deleteLoop m k b) (k := k)
    (fun fuel prev cur hk => by rw [ListSgecos.deleteLoop, if_neg (by omega)]) hlen
  unfold ListSgecos.delete
  rw [he]
  cases l₂ with
  | nil => exact .inl ⟨hs.absent_end ht, rfl⟩
  | cons c l₂ =>
    simp only [List.head?_cons, ListSgecos.deleteLoop, hs.above c (by simp), if_true]
    by_cases hk : m.key c = k
    · exact .inr ⟨p, l₁, c, l₂, _, hs, hk, by simp [hk]; rfl⟩
    · exact .inl ⟨fun hm => hk ((hs.member_iff ht).mpr hm), by simp [hk]⟩

omit [DecidableEq β] in
theorem Table.sgecos_search (ht : m.Table) (hlen : (m.chain b).length < fuel) :
    m.Searches k b (ListSgecos.search m k fuel b) := by
  obtain ⟨f, p, l₁, l₂, hs, he⟩ := ht.loop_head (fun fuel _ cur => ListSgecos.searchLoop m k b fuel (m.locks b) cur)
    (k := k) (fun fuel prev cur hk => by rw [ListSgecos.searchLoop, if_neg (by simp), if_neg (by omega)]) hlen
  unfold ListSgecos.search
  rw [he]
  cases l₂ with
  | nil => exact ⟨0, rfl, .inl rfl, iff_of_false (by decide) (hs.absent_end ht)⟩
  | cons c l₂ =>
    simp only [List.head?_cons, ListSgecos.searchLoop, ne_eq, not_true_eq_false, if_false, hs.above c (by simp), if_true]
    refine ⟨m.found k c, rfl, ?_, ?_⟩
    · unfold found
      split <;> simp
    · rw [← hs.member_iff ht]
      simp [found]

/-! What a call does to the keys of the table and to its nodes. -/

theorem Table.linked (ht : m.Table) (hs : m.Stop b k prev l₁ l₂) (hm : ¬ m.Member b k) (hav : m.avail new = true) :
    (m.linkNew k prev l₂.head? new).Table ∧
      ∀ b' k', (m.linkNew k prev l₂.head? new).Member b' k' ↔ m.Member b' k' ∨ b' = b ∧ k' = k := by
  have hnew (b : β) : new ∉ m.chain b := by
    intro hn
    rw [ht.inUse b new hn] at hav
    cases hav
  obtain ⟨ht', hch, hne⟩ := ht.linkNew hs.place (hs.slot ht hm) hnew
  refine ⟨ht', ht.member_insert ht' hs.place.split hch hne (fun b' x hx => ?_) (by simp [Mem.linkNew])⟩
  simp [Mem.linkNew, Function.update_of_ne (ne_of_mem_of_not_mem hx (hnew b'))]

theorem Table.deleted (ht : m.Table) (hs : m.Stop b k prev l₁ (c :: l₂)) (hk : m.key c = k) (lk : β → Nat) :
    ({ m.unlink prev c with locks := lk }.freeNode c).Table ∧
      (∀ b' k', ({ m.unlink prev c with locks := lk }.freeNode c).Member b' k' ↔ m.Member b' k' ∧ ¬ (b' = b ∧ k' = k)) ∧
      (∃ b, c ∈ m.chain b) ∧
      ∀ n, (∃ b, n ∈ ({ m.unlink prev c with locks := lk }.freeNode c).chain b) ↔ (∃ b, n ∈ m.chain b) ∧ n ≠ c := by
  obtain ⟨ht', hch, hne⟩ := ht.unlink hs.place
  have hcb : c ∈ m.chain b := by simp [hs.place.split]
  have hout (b' : β) : c ∉ (m.unlink prev c).chain b' := by
    by_cases hb : b' = b
    · subst hb
      rw [hch]
      exact (ht.unlink_chain hs.place).2.2.1
    · rw [hne b' hb]
      exact fun hc => hb (ht.apart _ _ c hc hcb)
  have hlk : ({ m.unlink prev c with locks := lk } : Mem β).Table := ⟨ht'.ends, ht'.sorted, ht'.apart, ht'.inUse⟩
  have htf := hlk.freeNode (n := c) hout
  have hkey : ({ m.unlink prev c with locks := lk }.freeNode c).key = m.key := store_key ..
  have hmem (b' : β) (n : Addr) : n ∈ ({ m.unlink prev c with locks := lk }.freeNode c).chain b' ↔ n ∈ m.chain b' ∧ n ≠ c := by
    change n ∈ (m.unlink prev c).chain b' ↔ _
    by_cases hb : b' = b
    · subst hb
      have hnd := (ht.ends b').nodup
      rw [hs.place.split] at hnd ⊢
      rw [hch]
      constructor
      · intro hn
        refine ⟨by simp only [List.mem_append, List.mem_cons] at hn ⊢; tauto, ?_⟩
        rintro rfl
        exact hout b' (by rwa [hch])
      · rintro ⟨hn, hnc⟩
        simpa [hnc] using hn
    · rw [hne b' hb]
      exact ⟨fun hn => ⟨hn, fun he => hb (ht.apart _ _ c (he ▸ hn) hcb)⟩, fun hn => hn.1⟩
  refine ⟨htf, ht.member_erase htf hs.place.split hch hne hkey hk, ⟨b, hcb⟩, fun n => ?_⟩
  simp only [hmem]
  exact ⟨fun ⟨b, hn, hc⟩ => ⟨⟨b, hn⟩, hc⟩, fun ⟨⟨b, hn⟩, hc⟩ => ⟨b, hn, hc⟩⟩

end calls

end Mem
end Gecos
