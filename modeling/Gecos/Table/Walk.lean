import Gecos.Library.Traversal
import Gecos.Table.Memory

/-! What a reader of a well-formed table meets, and that such a table can be walked. -/
namespace Gecos
open Library
variable {β S : Type} {m : Mem β} {b : β} {k : Int} {n q : Addr} {l₁ l₂ : List Addr}

namespace Mem

/-- A node settles the lookup of every key that the nodes before it are below. -/
theorem Table.settles (ht : m.Table) (hc : m.chain b = l₁ ++ q :: l₂) (hlow : ∀ x ∈ l₁, m.key x < k)
    (hk : k ≤ m.key q) : m.key q = k ↔ m.Member b k := by
  rw [ht.member_iff]
  constructor
  · intro he
    exact ⟨q, by simp [hc], he⟩
  · rintro ⟨x, hx, rfl⟩
    rw [hc] at hx
    rcases List.mem_append.mp hx with hx | hx
    · exact absurd (hlow x hx) (lt_irrefl _)
    rcases List.mem_cons.mp hx with rfl | hx
    · rfl
    · have := (ht.below_above hc).2 x hx
      omega

theorem Table.head_none (ht : m.Table) (h : m.heads b = none) : ¬ m.Member b k := by
  intro hm
  obtain ⟨n, hn, _⟩ := ht.member_iff.mp hm
  have hc := ht.ends b
  rw [h] at hc
  cases hl : m.chain b with
  | nil => simp [hl] at hn
  | cons x l => rw [hl] at hc; simp at hc

theorem Table.head_some (ht : m.Table) (h : m.heads b = some n) :
    n ∈ m.chain b ∧ (k ≤ m.key n → (m.key n = k ↔ m.Member b k)) := by
  have hc := ht.ends b
  rw [h] at hc
  cases hl : m.chain b with
  | nil => rw [hl] at hc; simp at hc
  | cons x l =>
    rw [hl] at hc
    cases hc.1
    exact ⟨by simp, ht.settles (show m.chain b = [] ++ n :: l from hl) (by simp)⟩

theorem Table.next_none (ht : m.Table) (ha : m.Around b n) (hk : m.key n < k) (hx : m.next n = none) :
    ¬ m.Member b k := by
  intro hm
  obtain ⟨l₁, l₂, hc, hnx, hlow, _⟩ := ha
  have h₂ : l₂ = [] := List.head?_eq_none_iff.mp (hnx.symm.trans hx)
  subst h₂
  obtain ⟨x, hx, he⟩ := ht.member_iff.mp hm
  have hx' : x ∈ l₁ ∨ x = n := by
    rcases hc with hc | hc
    · simpa [hc] using hx
    · exact .inl (by simpa [hc] using hx)
  rcases hx' with hx' | rfl
  · have := hlow x hx'
    omega
  · omega

theorem Table.next_some (ht : m.Table) (ha : m.Around b n) (hk : m.key n < k) (hx : m.next n = some q) :
    q ∈ m.chain b ∧ (k ≤ m.key q → (m.key q = k ↔ m.Member b k)) := by
  obtain ⟨l₁, l₂, hc, hnx, hlow, _⟩ := ha
  obtain ⟨l₃, rfl⟩ : ∃ l₃, l₂ = q :: l₃ := by
    have := hnx.symm.trans hx
    cases l₂ with
    | nil => simp at this
    | cons y l₂ => simp at this; exact ⟨l₂, by rw [this]⟩
  rcases hc with hc | hc
  · rw [← List.singleton_append, ← List.append_assoc] at hc
    refine ⟨by simp [hc], ht.settles hc fun x hx => ?_⟩
    rcases List.mem_append.mp hx with hx | hx
    · exact lt_trans (hlow x hx) hk
    · rw [List.mem_singleton.mp hx]; exact hk
  · exact ⟨by simp [hc], ht.settles hc fun x hx => lt_trans (hlow x hx) hk⟩

theorem Agree.member {m' : Mem β} (ha : m.Agree m' b) (ht : m.Table) (ht' : m'.Table) :
    m'.Member b k ↔ m.Member b k := by
  rw [ht.member_iff, ht'.member_iff, ha.chain]
  exact exists_congr fun n => and_congr_right fun hn => by rw [ha.key n hn]

/-- One node more in a bucket is one key more. -/
theorem Table.member_insert {m' : Mem β} (ht : m.Table) (ht' : m'.Table) (hc : m.chain b = l₁ ++ l₂)
    (hc' : m'.chain b = l₁ ++ n :: l₂) (hne : ∀ b' ≠ b, m'.chain b' = m.chain b')
    (hkey : ∀ b', ∀ x ∈ m.chain b', m'.key x = m.key x) (hn : m'.key n = k) (b' : β) (k' : Int) :
    m'.Member b' k' ↔ m.Member b' k' ∨ b' = b ∧ k' = k := by
  have hold (b' : β) : (∃ x ∈ m.chain b', m'.key x = k') ↔ m.Member b' k' := by
    rw [ht.member_iff]
    exact exists_congr fun x => and_congr_right fun hx => by rw [hkey b' x hx]
  rw [ht'.member_iff]
  by_cases hb : b' = b
  · subst hb
    rw [← hold, hc, hc']
    constructor
    · rintro ⟨x, hx, rfl⟩
      rcases List.mem_append.mp hx with hx | hx
      · exact .inl ⟨x, by simp [hx], rfl⟩
      · rcases List.mem_cons.mp hx with rfl | hx
        · exact .inr ⟨rfl, hn⟩
        · exact .inl ⟨x, by simp [hx], rfl⟩
    · rintro (⟨x, hx, rfl⟩ | ⟨_, rfl⟩)
      · refine ⟨x, ?_, rfl⟩
        rcases List.mem_append.mp hx with hx | hx <;> simp [hx]
      · exact ⟨n, by simp, hn⟩
  · rw [hne b' hb, hold]
    simp [hb]

/-- One node less is one key less. -/
theorem Table.member_erase {m' : Mem β} (ht : m.Table) (ht' : m'.Table) (hc : m.chain b = l₁ ++ n :: l₂)
    (hc' : m'.chain b = l₁ ++ l₂) (hne : ∀ b' ≠ b, m'.chain b' = m.chain b') (hkey : m'.key = m.key) (hn : m.key n = k)
    (b' : β) (k' : Int) : m'.Member b' k' ↔ m.Member b' k' ∧ ¬ (b' = b ∧ k' = k) := by
  have hno : ¬ m'.Member b k := by
    rw [ht'.member_iff, hc', hkey]
    rintro ⟨x, hx, he⟩
    obtain ⟨hlow, hhigh⟩ := ht.below_above hc
    rcases List.mem_append.mp hx with hx | hx
    · exact absurd (he.trans hn.symm) (ne_of_lt (hlow x hx))
    · exact absurd (he.trans hn.symm) (ne_of_gt (hhigh x hx))
  rw [ht'.member_insert ht hc' hc (fun b' hb => (hne b' hb).symm) (fun _ _ _ => by rw [hkey]) hn]
  constructor
  · intro h
    refine ⟨.inl h, ?_⟩
    rintro ⟨rfl, rfl⟩
    exact hno h
  · rintro ⟨h | h, hnot⟩
    · exact h
    · exact (hnot h).elim

/-- The table as the readers of `Library.Traversal` see it. -/
def walk (mem : S → Mem β) (stamp : S → β → Addr → Nat) (live : S → β → Addr → Prop) :
    Traversal S β Addr Int where
  first s b := (mem s).heads b
  next s n := (mem s).next n
  key s n := (mem s).key n
  stamp := stamp
  live := live
  member s b k := (mem s).Member b k

variable {mem : S → Mem β} {stamp : S → β → Addr → Nat} {live : S → β → Addr → Prop} {s : S}

variable (mem stamp live) in
/-- A well-formed table can be walked, over the nodes that are at their place. -/
theorem walk_sound (ht : (mem s).Table) (hin : ∀ b, ∀ n ∈ (mem s).chain b, live s b n)
    (haround : ∀ b n, live s b n → (mem s).Around b n) : (walk mem stamp live).Sound s where
  first_none _ _ h := ht.head_none h
  first_some b _ n h := ⟨hin b n (ht.head_some (k := 0) h).1, (ht.head_some h).2⟩
  next_none b _ n hl hk hx := ht.next_none (haround b n hl) hk hx
  next_some b _ n q hl hk hx := by
    obtain ⟨hq, hset⟩ := ht.next_some (haround b n hl) hk hx
    exact ⟨hin b q hq, hset⟩

end Mem
end Gecos
