import Gecos.Allocation.Threads

/-! The allocator where some threads only free and the others only allocate, as the `call_rcu` threads and
the updaters of the RCU build. -/
namespace Gecos.Threads
open Library
variable {τ : Type}

/-- A thread that frees calls `free_node` only, any other `new_node` only. -/
def Act.Allowed (frees : τ → Prop) : Act τ → Prop
  | .newNode t => ¬ frees t
  | .freeNode t _ => frees t
  | .run _ | .calloc .. => True

def RoleStep [DecidableEq τ] (frees : τ → Prop) (s : State τ) (a : Act τ) (s' : State τ) : Prop :=
  step s a = some s' ∧ a.Allowed frees

/-- Where a node can be; a node passed to `free_node` that this has not linked yet is still the client's. -/
inductive RolePlace (τ : Type) where
  | client
  | freeing (t : τ)
  | freelist
  | allocating (t : τ)

def State.RoleAt (frees : τ → Prop) (s : State τ) (n : Addr) : RolePlace τ → Prop
  | .client => s.allocated n = true ∨ ∃ t, (s.threads t).point = .push n
  | .freeing t => frees t ∧ s.Has t n
  | .freelist => Reach s.mrNext s.freelist n
  | .allocating t => ¬ frees t ∧ s.Has t n

/-- The points of `get_free` and `calloc`. -/
def Point.allocating : Point → Bool
  | .load | .take | .pop | .calloc => true
  | _ => false

/-- The points of a flush. -/
def Point.flushing : Point → Bool
  | .flushLoad | .flushStore _ | .expect | .publish _ | .retryLoad | .retryStore _ => true
  | _ => false

/-- What `lfl_tail` is to be when the thread's list is `l`. -/
def Point.tail (l : List Addr) : Point → Option Addr
  | .push p => some (l.getLast?.getD p)
  | _ => l.getLast?

/-- A thread with list `l` is as its role says. -/
structure Fits (frees : Prop) (th : Thread) (l : List Addr) (mr : Addr → Ptr) : Prop where
  freer : frees → th.point.allocating = false ∧ th.lflTail = th.point.tail l
  other : ¬ frees → th.point = .idle ∨ th.point.allocating = true
  full : th.point.flushing → l ≠ []
  expected : ∀ e tail, th.point = .publish e → th.lflTail = some tail → mr tail = e

/-- The lists behind the pointers, with nothing lost. -/
structure Held (frees : τ → Prop) (s : State τ) (own : τ → List Addr) (g : List Addr) : Prop where
  inv : Inv s own g
  fits : ∀ t, Fits (frees t) (s.threads t) (own t) s.mrNext
  kept : ∀ n, s.obtained n = true → ∃ i, s.At own g n i

variable {frees : τ → Prop} {s s' : State τ} {own : τ → List Addr} {g l' g' : List Addr} {t : τ} {th : Thread} {n : Addr}

theorem flushing_other {p : Point} (h : p.flushing = true) : p ≠ .idle ∧ p.allocating = false := by
  cases p <;> simp [Point.flushing, Point.allocating] at h ⊢

theorem Fits.frame {p : Prop} {l : List Addr} {mr mr' : Addr → Ptr} (h : Fits p th l mr) (hp : p)
    (hm : ∀ n ∈ l, mr' n = mr n) : Fits p th l mr' where
  freer := h.freer
  other := h.other
  full := h.full
  expected e tail he ht := by
    have hl : l.getLast? = some tail := by
      rw [(h.freer hp).2, he] at ht
      exact ht
    rw [hm tail (List.mem_of_getLast? hl)]
    exact h.expected e tail he ht

theorem Held.init (frees : τ → Prop) : Held frees (.init τ) (fun _ => []) [] where
  inv := .init τ
  fits _ := ⟨fun _ => ⟨rfl, rfl⟩, fun _ => .inl rfl, fun h => (nomatch h), fun _ _ h => (nomatch h)⟩
  kept _ h := (nomatch h)

variable [DecidableEq τ]

/-- A step of thread `t` by which no node gets lost that it has or could have. -/
theorem Held.move (h : Held frees s own g) (hi : Inv s' (Function.update own t l') g')
    (hth : s'.threads = Function.update s.threads t th) (hframe : ∀ u, u ≠ t → ∀ n ∈ own u, s'.mrNext n = s.mrNext n)
    (hfit : Fits (frees t) th l' s'.mrNext)
    (hkept : ∀ n, s.allocated n = true ∨ n ∈ g ∨ n ∈ own t ∨ (s.threads t).point = .push n →
      s'.allocated n = true ∨ n ∈ g' ∨ n ∈ l' ∨ th.point = .push n)
    (hobt : ∀ n, s'.obtained n = true → s.obtained n = true ∨ s'.allocated n = true) :
    Held frees s' (Function.update own t l') g' := by
  have hown (n : Addr) (hn : s'.allocated n = true ∨ n ∈ g' ∨ n ∈ l' ∨ th.point = .push n) :
      ∃ i, s'.At (Function.update own t l') g' n i := by
    rcases hn with hn | hn | hn | hn
    · exact ⟨.client, hn⟩
    · exact ⟨.freelist, hn⟩
    · exact ⟨.lfl t, by simpa [State.At] using hn⟩
    · exact ⟨.hand t, by simpa [State.At, hth] using hn⟩
  refine ⟨hi, fun u => ?_, fun n hn => ?_⟩
  · by_cases hu : u = t
    · subst hu
      rw [hth, Function.update_self, Function.update_self]
      exact hfit
    · rw [hth, Function.update_of_ne hu, Function.update_of_ne hu]
      by_cases hp : frees u
      · exact (h.fits u).frame hp (hframe u hu)
      · have hf := h.fits u
        refine ⟨hf.freer, hf.other, hf.full, fun e tail he _ => ?_⟩
        rcases hf.other hp with hi | ha
        · rw [hi] at he
          cases he
        · rw [he] at ha
          cases ha
  · rcases hobt n hn with hn | hn
    · obtain ⟨i, hat⟩ := h.kept n hn
      cases i with
      | client => exact hown n (hkept n (.inl hat))
      | freelist => exact hown n (hkept n (.inr (.inl hat)))
      | lfl u =>
        by_cases hu : u = t
        · subst hu
          exact hown n (hkept n (.inr (.inr (.inl hat))))
        · exact ⟨.lfl u, by simpa [State.At, Function.update_of_ne hu] using hat⟩
      | hand u =>
        by_cases hu : u = t
        · subst hu
          exact hown n (hkept n (.inr (.inr (.inr hat))))
        · exact ⟨.hand u, by simpa [State.At, hth, Function.update_of_ne hu] using hat⟩
    · exact ⟨.client, hn⟩

/-- A step that moves no node. -/
theorem Held.stay (h : Held frees s own g) (hi : Inv (s.put t th) own g) (hp : ∀ n, (s.threads t).point ≠ .push n)
    (hfit : Fits (frees t) th (own t) s.mrNext) : Held frees (s.put t th) own g := by
  have hmove : Held frees (s.put t th) (Function.update own t (own t)) g :=
    h.move (by rwa [Function.update_eq_self]) rfl (fun _ _ _ _ => rfl) hfit (fun n hn => ?_) fun n hn => .inl hn
  · rwa [Function.update_eq_self] at hmove
  · rcases hn with hn | hn | hn | hn
    · exact .inl hn
    · exact .inr (.inl hn)
    · exact .inr (.inr (.inl hn))
    · exact (hp n hn).elim

omit [DecidableEq τ] in
/-- In `get_free` and `calloc` is only who does not free, elsewhere only who does. -/
theorem Held.not_frees (h : Held frees s own g) (hp : (s.threads t).point.allocating = true) : ¬ frees t := by
  intro hf
  rw [((h.fits t).freer hf).1] at hp
  cases hp

omit [DecidableEq τ] in
theorem Held.is_freer {p : Point} (h : Held frees s own g) (hp : (s.threads t).point = p) (hidle : p ≠ .idle)
    (ha : p.allocating = false) : frees t := by
  by_contra hf
  rcases (h.fits t).other hf with hi | hi
  · exact hidle (hp.symm.trans hi)
  · rw [hp, ha] at hi
    cases hi

/-- What `get_free` and `calloc` need to keep of their thread. -/
theorem Fits.allocator {p : Prop} {l : List Addr} {mr : Addr → Ptr} (hp : ¬ p)
    (hpoint : th.point = .idle ∨ th.point.allocating = true) : Fits p th l mr where
  freer h := (hp h).elim
  other _ := hpoint
  full hf := by
    obtain ⟨hidle, ha⟩ := flushing_other hf
    rcases hpoint with h | h
    · exact (hidle h).elim
    · rw [ha] at h
      cases h
  expected e tail he := by
    rcases hpoint with h | h <;> rw [he] at h <;> cases h

theorem Held.newNode (h : Held frees s own g) (hs : step s (.newNode t) = some s') (hp : ¬ frees t) :
    Held frees s' own g := by
  have hi := h.inv.newNode hs
  simp only [step] at hs
  split at hs <;> cases hs
  rename_i hidle
  refine h.stay hi (by simp [hidle]) (.allocator hp (.inr ?_))
  dsimp only
  split <;> rfl

theorem Held.freeNode (h : Held frees s own g) (hs : step s (.freeNode t n) = some s') (hp : frees t) :
    Held frees s' (Function.update own t (own t)) g := by
  have hi := h.inv.freeNode hs
  simp only [step] at hs
  split at hs <;> cases hs
  rename_i hg
  have htail := ((h.fits t).freer hp).2
  rw [hg.1] at htail
  refine h.move hi rfl (fun _ _ _ _ => rfl) ⟨fun _ => ⟨rfl, ?_⟩, fun hn => (hn hp).elim, (fun he => by cases he), fun _ _ he => by cases he⟩ (fun x hx => ?_)
    fun x hx => .inl hx
  · change some ((s.threads t).lflTail.getD n) = some ((own t).getLast?.getD n)
    rw [htail]
    rfl
  · by_cases hxn : x = n
    · exact .inr (.inr (.inr (by rw [hxn])))
    · rcases hx with hx | hx | hx | hx
      · exact .inl (by simpa [State.put, Function.update_of_ne hxn] using hx)
      · exact .inr (.inl hx)
      · exact .inr (.inr (.inl hx))
      · rw [hg.1] at hx
        cases hx

theorem Held.calloc {fresh : Addr} (h : Held frees s own g) (hs : step s (.calloc t fresh) = some s') :
    Held frees s' (Function.update own t (own t)) g := by
  have hi := h.inv.calloc hs
  simp only [step] at hs
  split at hs <;> cases hs
  rename_i hg
  have hno (u : τ) : fresh ∉ own u := by
    intro hm
    have := h.inv.obtained fresh (.lfl u) hm
    rw [hg.2] at this
    cases this
  have hp := h.not_frees (t := t) (by rw [hg.1]; rfl)
  refine h.move hi rfl (fun u _ n hm => Function.update_of_ne (ne_of_mem_of_not_mem hm (hno u)) _ _)
    (.allocator hp (.inl rfl)) (fun x hx => ?_) fun x hx => ?_
  · rcases hx with hx | hx | hx | hx
    · refine .inl ?_
      by_cases hxf : x = fresh
      · simp [State.put, hxf]
      · simpa [State.put, Function.update_of_ne hxf] using hx
    · exact .inr (.inl hx)
    · exact .inr (.inr (.inl hx))
    · rw [hg.1] at hx
      cases hx
  · by_cases hxf : x = fresh
    · exact .inr (by simp [State.put, hxf])
    · exact .inl (by simpa [State.put, Function.update_of_ne hxf] using hx)

theorem Held.load (h : Held frees s own g) (hp : (s.threads t).point = .load) (hs : s.run t = some s') :
    Held frees s' own g := by
  have hi := h.inv.load hp hs
  simp only [State.run, hp] at hs
  cases hs
  refine h.stay hi (by simp [hp]) (.allocator (h.not_frees (by rw [hp]; rfl)) (.inr ?_))
  dsimp only
  split <;> rfl

/-- The whole global list becomes the thread's. -/
theorem Held.take (h : Held frees s own g) (hp : (s.threads t).point = .take) (hs : s.run t = some s') :
    ∃ own g, Held frees s' own g := by
  have hrole := h.not_frees (t := t) (by rw [hp]; rfl)
  by_cases hf : s.freelist = (s.threads t).lfl
  · have hi := h.inv.take hp hs hf
    have hown := h.inv.unsettled t (by simp [Thread.Settled, hp])
    simp only [State.run, hp, if_pos hf] at hs
    cases hs
    refine ⟨_, [], h.move hi rfl (fun _ _ _ _ => rfl) (.allocator hrole (.inr rfl)) (fun x hx => ?_) fun x hx => .inl hx⟩
    rcases hx with hx | hx | hx | hx
    · exact .inl hx
    · exact .inr (.inr (.inl hx))
    · simp [hown] at hx
    · rw [hp] at hx
      cases hx
  · have hi := h.inv.retake hp hs hf
    simp only [State.run, hp, if_neg hf] at hs
    cases hs
    exact ⟨own, g, h.stay hi (by simp [hp]) (.allocator hrole (.inr rfl))⟩

theorem Held.pop (h : Held frees s own g) (hp : (s.threads t).point = .pop) (hs : s.run t = some s') :
    ∃ own g, Held frees s' own g := by
  obtain ⟨node, l, hl, hown, hi⟩ := h.inv.pop hp hs
  simp only [State.run, hp, hl, Option.map_some] at hs
  cases hs
  refine ⟨_, g, h.move hi rfl (fun _ _ _ _ => rfl) (.allocator (h.not_frees (by rw [hp]; rfl)) (.inl rfl)) (fun x hx => ?_)
    fun x hx => .inl hx⟩
  by_cases hxn : x = node
  · exact .inl (by simp [State.put, hxn])
  · rcases hx with hx | hx | hx | hx
    · exact .inl (by simpa [State.put, Function.update_of_ne hxn] using hx)
    · exact .inr (.inl hx)
    · rw [hown] at hx
      exact .inr (.inr (.inl ((List.mem_cons.mp hx).resolve_left hxn)))
    · rw [hp] at hx
      cases hx

/-- `p->mr_next = lfl; lfl = p` in `add_free`. -/
theorem Held.push {p : Addr} (h : Held frees s own g) (hp : (s.threads t).point = .push p) (hs : s.run t = some s') :
    Held frees s' (Function.update own t (p :: own t)) g := by
  have hi := h.inv.push hp hs
  have hrole := h.is_freer hp nofun rfl
  have htail := ((h.fits t).freer hrole).2
  rw [hp] at htail
  have hoff (u : τ) : p ∉ own u := fun hm => nomatch h.inv.apart p (.hand t) (.lfl u) hp hm
  simp only [State.run, hp] at hs
  cases hs
  refine h.move hi rfl (fun u _ n hm => Function.update_of_ne (ne_of_mem_of_not_mem hm (hoff u)) _ _) ?_ (fun x hx => ?_)
    fun x hx => .inl hx
  · refine ⟨fun _ => ?_, fun hn => (hn hrole).elim, fun _ => List.cons_ne_nil _ _, fun e tail he => ?_⟩
    · have hlast : (p :: own t).getLast? = some ((own t).getLast?.getD p) := by
        rw [List.getLast?_cons]
      by_cases hc : amortFreeOn ≤ (s.threads t).lcnt + 1 <;> simp only [hc, if_true, if_false, hlast, Point.tail] <;>
        exact ⟨rfl, htail⟩
    · by_cases hc : amortFreeOn ≤ (s.threads t).lcnt + 1 <;> simp [hc] at he
  · rcases hx with hx | hx | hx | hx
    · exact .inl hx
    · exact .inr (.inl hx)
    · exact .inr (.inr (.inl (List.mem_cons_of_mem _ hx)))
    · rw [hp] at hx
      cases hx
      exact .inr (.inr (.inl (by simp)))

omit [DecidableEq τ] in
/-- Within a flush `lfl_tail` ends the thread's list. -/
theorem Held.last (h : Held frees s own g) (hp : (s.threads t).point.flushing = true) :
    frees t ∧ ∃ tail, (s.threads t).lflTail = some tail ∧ (own t).getLast? = some tail := by
  obtain ⟨hidle, ha⟩ := flushing_other hp
  have hrole := h.is_freer rfl hidle ha
  refine ⟨hrole, ?_⟩
  obtain ⟨tail, ht⟩ := Option.isSome_iff_exists.mp (List.getLast?_isSome.mpr ((h.fits t).full hp))
  refine ⟨tail, ?_, ht⟩
  rw [((h.fits t).freer hrole).2, ← ht]
  cases hpt : (s.threads t).point <;> first | rfl | (rw [hpt] at hp; cases hp)

/-- A step within a flush that only reads. -/
theorem Held.read {p : Point} (h : Held frees s own g) (hfl : (s.threads t).point.flushing = true)
    (hi : Inv (s.put t { s.threads t with point := p }) own g) (hp : p.flushing = true)
    (hexp : ∀ e tail, p = .publish e → (s.threads t).lflTail = some tail → s.mrNext tail = e) :
    Held frees (s.put t { s.threads t with point := p }) own g := by
  obtain ⟨hrole, tail, ht, hlast⟩ := h.last hfl
  refine h.stay hi (fun n hn => by rw [hn] at hfl; cases hfl) ⟨fun _ => ⟨(flushing_other hp).2, ?_⟩, fun hn => (hn hrole).elim,
    fun _ => (h.fits t).full hfl, hexp⟩
  change (s.threads t).lflTail = p.tail (own t)
  rw [ht, ← hlast]
  cases p <;> first | rfl | cases hp

theorem Held.flushLoad (h : Held frees s own g) (hp : (s.threads t).point = .flushLoad) (hs : s.run t = some s') :
    Held frees s' own g := by
  have hi := h.inv.flushLoad hp hs
  simp only [State.run, hp] at hs
  cases hs
  exact h.read (by rw [hp]; rfl) hi rfl fun _ _ he => by cases he

theorem Held.retryLoad (h : Held frees s own g) (hp : (s.threads t).point = .retryLoad) (hs : s.run t = some s') :
    Held frees s' own g := by
  have hi := h.inv.retryLoad hp hs
  simp only [State.run, hp] at hs
  cases hs
  exact h.read (by rw [hp]; rfl) hi rfl fun _ _ he => by cases he

/-- The expected value is read from the link of `lfl_tail`. -/
theorem Held.expect (h : Held frees s own g) (hp : (s.threads t).point = .expect) (hs : s.run t = some s') :
    Held frees s' own g := by
  have hi := h.inv.expect hp hs
  simp only [State.run, hp] at hs
  obtain ⟨tail, ht, rfl⟩ := Option.map_eq_some_iff.mp hs
  refine h.read (by rw [hp]; rfl) hi rfl fun e tail' he ht' => ?_
  cases ht.symm.trans ht'
  exact Point.publish.inj he

omit [DecidableEq τ] in
/-- A chain whose last link is null already does not change when it is cut there. -/
theorem chain_last {mr : Addr → Ptr} {q : Ptr} {l : List Addr} {x : Addr} (h : Chain mr q l) (hx : l.getLast? = some x) :
    mr x = none := by
  obtain ⟨l₁, rfl⟩ := List.getLast?_eq_some_iff.mp hx
  exact Seg.next_eq h

/-- Writing the link of `lfl_tail` changes no list: it ends the thread's own, and is on no other. -/
theorem Held.flushStore {v : Ptr} (h : Held frees s own g)
    (hp : (s.threads t).point = .flushStore v ∨ (s.threads t).point = .retryStore v) (hs : s.run t = some s') :
    Held frees s' (Function.update own t (own t)) g := by
  obtain ⟨hrole, tail, ht, hlast⟩ := h.last (t := t) (by rcases hp with hp | hp <;> rw [hp] <;> rfl)
  obtain rfl : s' = State.put { s with mrNext := Function.update s.mrNext tail v } t
      { s.threads t with point := .expect } := by
    rcases hp with hp | hp <;> simp only [State.run, hp] at hs <;>
      obtain ⟨_, ht', rfl⟩ := Option.map_eq_some_iff.mp hs <;> cases ht.symm.trans ht' <;> rfl
  have hm : tail ∈ own t := List.mem_of_getLast? hlast
  have hoff (u : τ) (hu : u ≠ t) : tail ∉ own u := fun hm' => hu (by cases h.inv.apart tail (.lfl u) (.lfl t) hm' hm; rfl)
  have hframe (u : τ) (hu : u ≠ t) (n : Addr) (hn : n ∈ own u) : Function.update s.mrNext tail v n = s.mrNext n :=
    Function.update_of_ne (ne_of_mem_of_not_mem hn (hoff u hu)) _ _
  have hset := h.inv.settled t (by rcases hp with hp | hp <;> simp [Thread.Settled, hp])
  have hcut : Chain (Function.update s.mrNext tail none) (s.threads t).lfl (own t) := by
    rcases hp with hp | hp <;> simp only [Thread.links, hp, ht, Point.publishing, Bool.false_eq_true, if_false, if_true, Option.elim_some] at hset
    · rwa [← chain_last hset hlast, Function.update_eq_self]
    · exact hset
  have hnot (n : Addr) : (s.threads t).point ≠ .push n := by
    rcases hp with hp | hp <;> simp [hp]
  have hi : Inv (State.put { s with mrNext := Function.update s.mrNext tail v } t { s.threads t with point := .expect })
      (Function.update own t (own t)) g := by
    refine h.inv.move (own t) rfl hframe (h.inv.freelist.update fun hg => by cases h.inv.apart tail (.lfl t) .freelist hm hg)
      (by simp [Thread.Settled]) (fun _ => ?_) (fun _ _ he => by cases he) (fun _ => False) .client (fun x i hx => .inr ⟨not_false, ?_⟩)
      fun x hx => hx.resolve_right not_false
    · simpa [Thread.links, Point.publishing, ht, State.put] using hcut
    · rcases at_cases s rfl hx with ⟨rfl, h⟩ | ⟨rfl, h⟩ | ⟨rfl, h⟩ | ⟨rfl, h⟩ | ⟨_, _, _, _, h⟩
      · exact h
      · exact h
      · exact h
      · cases h
      · exact h
  refine h.move hi rfl hframe ⟨fun _ => ⟨rfl, ht.trans hlast.symm⟩, fun hn => (hn hrole).elim, fun _ hl => ?_, fun _ _ he => by cases he⟩ (fun x hx => ?_)
    fun x hx => .inl hx
  · rw [hl] at hm
    cases hm
  · rcases hx with hx | hx | hx | hx
    · exact .inl hx
    · exact .inr (.inl hx)
    · exact .inr (.inr (.inl hx))
    · exact (hnot x hx).elim

/-- Where the comparison succeeds, the list behind `freelist` is the list behind the link of `lfl_tail`,
however often the head has changed since that link was written. -/
theorem Held.publish {e : Ptr} (h : Held frees s own g) (hp : (s.threads t).point = .publish e) (hs : s.run t = some s') :
    ∃ own g, Held frees s' own g := by
  obtain ⟨hrole, tail, ht, hlast⟩ := h.last (t := t) (by rw [hp]; rfl)
  by_cases hf : s.freelist = e
  · have hset := h.inv.settled t (by simp [Thread.Settled, hp])
    simp only [Thread.links, hp, ht, Point.publishing, if_true, Option.elim_some] at hset
    have hnext : s.mrNext tail = s.freelist := by rw [(h.fits t).expected e tail hp ht, hf]
    have hchain : Chain s.mrNext (s.threads t).lfl (own t ++ g) :=
      hset.join (List.mem_of_getLast? hlast) (by rw [hnext]; exact h.inv.freelist)
    have hi := h.inv.publish hp hs hf hchain fun n hn => by
      rcases List.mem_append.mp hn with hn | hn
      · exact .inl hn
      · exact .inr ⟨fun hm => (by cases h.inv.apart n (.lfl t) .freelist hm hn), hn⟩
    simp only [State.run, hp, if_pos hf] at hs
    cases hs
    refine ⟨_, _, h.move hi rfl (fun _ _ _ _ => rfl) ⟨fun _ => ⟨rfl, rfl⟩, fun hn => (hn hrole).elim, (fun he => by cases he),
      fun _ _ he => by cases he⟩ (fun x hx => ?_)
      fun x hx => .inl hx⟩
    rcases hx with hx | hx | hx | hx
    · exact .inl hx
    · exact .inr (.inl (List.mem_append_right _ hx))
    · exact .inr (.inl (List.mem_append_left _ hx))
    · rw [hp] at hx
      cases hx
  · have hi := h.inv.republish hp hs hf
    simp only [State.run, hp, if_neg hf] at hs
    cases hs
    exact ⟨own, g, h.read (by rw [hp]; rfl) hi rfl fun _ _ he => by cases he⟩

theorem Held.step {a : Act τ} (h : Held frees s own g) (hs : Threads.step s a = some s') (ha : a.Allowed frees) :
    ∃ own g, Held frees s' own g := by
  cases a with
  | newNode t => exact ⟨own, g, h.newNode hs ha⟩
  | freeNode t n => exact ⟨_, g, h.freeNode hs ha⟩
  | calloc t fresh => exact ⟨_, g, h.calloc hs⟩
  | run t =>
    change s.run t = some s' at hs
    cases hp : (s.threads t).point with
    | idle | calloc => simp [State.run, hp] at hs
    | load => exact ⟨own, g, h.load hp hs⟩
    | take => exact h.take hp hs
    | pop => exact h.pop hp hs
    | push p => exact ⟨_, g, h.push hp hs⟩
    | flushLoad => exact ⟨own, g, h.flushLoad hp hs⟩
    | expect => exact ⟨own, g, h.expect hp hs⟩
    | publish e => exact h.publish hp hs
    | retryLoad => exact ⟨own, g, h.retryLoad hp hs⟩
    | flushStore v | retryStore v => exact ⟨_, g, h.flushStore (v := v) (by simp [hp]) hs⟩

theorem held_reachable (hs : Reachable (RoleStep frees) (.init τ) s) : ∃ own g, Held frees s own g :=
  hs.invariant (P := fun s => ∃ own g, Held frees s own g) ⟨_, _, .init frees⟩ fun _ _ _ ⟨_, _, h⟩ hr => h.step hr.1 hr.2

section places

/-- How the roles name a place. -/
inductive Named (frees : τ → Prop) : Place τ → RolePlace τ → Prop where
  | client : Named frees .client .client
  | hand (t : τ) : Named frees (.hand t) .client
  | freelist : Named frees .freelist .freelist
  | freeing {t : τ} : frees t → Named frees (.lfl t) (.freeing t)
  | allocating {t : τ} : ¬ frees t → Named frees (.lfl t) (.allocating t)

variable {i : Place τ} {j j' : RolePlace τ}

omit [DecidableEq τ] in
theorem Named.exists (frees : τ → Prop) (i : Place τ) : ∃ j, Named frees i j := by
  cases i with
  | client => exact ⟨_, .client⟩
  | freelist => exact ⟨_, .freelist⟩
  | hand t => exact ⟨_, .hand t⟩
  | lfl t =>
    by_cases ht : frees t
    · exact ⟨_, .freeing ht⟩
    · exact ⟨_, .allocating ht⟩

omit [DecidableEq τ] in
theorem Named.unique (h : Named frees i j) (h' : Named frees i j') : j = j' := by
  cases h <;> cases h' <;> first | rfl | contradiction

omit [DecidableEq τ] in
theorem Held.roleAt_iff (h : Held frees s own g) : s.RoleAt frees n j ↔ ∃ i, Named frees i j ∧ s.At own g n i := by
  cases j with
  | client =>
    constructor
    · rintro (ha | ⟨t, ht⟩)
      · exact ⟨.client, .client, ha⟩
      · exact ⟨.hand t, .hand t, ht⟩
    · rintro ⟨i, hi, hat⟩
      cases hi with
      | client => exact .inl hat
      | hand t => exact .inr ⟨t, hat⟩
  | freelist =>
    have hg := Chain.reach_iff (a := n) h.inv.freelist
    refine ⟨fun hr => ⟨.freelist, .freelist, hg.mp hr⟩, ?_⟩
    rintro ⟨i, hi, hat⟩
    cases hi
    exact hg.mpr hat
  | freeing t =>
    refine ⟨fun hr => ⟨.lfl t, .freeing hr.1, (h.inv.has_iff t n).mp hr.2⟩, ?_⟩
    rintro ⟨i, hi, hat⟩
    cases hi with
    | freeing ht => exact ⟨ht, (h.inv.has_iff t n).mpr hat⟩
  | allocating t =>
    refine ⟨fun hr => ⟨.lfl t, .allocating hr.1, (h.inv.has_iff t n).mp hr.2⟩, ?_⟩
    rintro ⟨i, hi, hat⟩
    cases hi with
    | allocating ht => exact ⟨ht, (h.inv.has_iff t n).mpr hat⟩

end places

/-- Threads that only free and threads that only allocate lose no node and get none twice: in every state of
every run each node that `calloc` returned is in exactly one place, and the lists are sound. -/
theorem roles_conserve (frees : τ → Prop) (hs : Reachable (RoleStep frees) (.init τ) s) :
    (∀ n, s.obtained n = true → ∃! i, s.RoleAt frees n i) ∧ Sound s := by
  obtain ⟨own, g, h⟩ := held_reachable hs
  refine ⟨fun n hn => ?_, h.inv.sound⟩
  obtain ⟨i, hi⟩ := h.kept n hn
  obtain ⟨j, hj⟩ := Named.exists frees i
  refine ⟨j, h.roleAt_iff.mpr ⟨i, hj, hi⟩, fun j' hj' => ?_⟩
  obtain ⟨i', hn', hi'⟩ := h.roleAt_iff.mp hj'
  obtain rfl := h.inv.apart n i i' hi hi'
  exact hn'.unique hj

/-- Thread 0 obtains 100 nodes, which thread 1 frees and publishes; then thread 0 takes them all, and thread 1
frees the first of them again. -/
def roleCalls : List (Act Nat) :=
  callocs 0 100 1 ++ Threads.frees 1 100 1 ++ List.replicate 4 (Act.run 1) ++
    [Act.newNode 0, .run 0, .run 0, .run 0] ++ Threads.frees 1 1 100

theorem roles_conserve_freed : ∃ s : State Nat, exec step (.init Nat) roleCalls = some s ∧
    (s.threads 0).lfl = some 99 ∧ (s.threads 1).lfl = some 100 ∧ ∀ n ∈ List.range' 1 100, ∃! i, s.RoleAt (· = 1) n i := by
  have h : (exec step (.init Nat) roleCalls).any fun s => decide ((s.threads 0).lfl = some 99) &&
      decide ((s.threads 1).lfl = some 100) && (List.range' 1 100).all s.obtained := by
    decide +kernel
  obtain ⟨s, hs, hp⟩ := (Option.any_eq_true _ _).mp h
  simp only [Bool.and_eq_true, decide_eq_true_eq] at hp
  have hrun : Run (RoleStep (· = 1)) (.init Nat) (execTrace step (.init Nat) _) s := (exec_run hs).guarded fun e he => by
    have hl := execTrace_label he
    simp only [roleCalls, callocs, Threads.frees, List.mem_append, List.mem_flatMap, List.mem_replicate, List.mem_cons,
      List.not_mem_nil, or_false] at hl
    rcases hl with (((⟨_, _, hl | hl | hl⟩ | ⟨_, _, hl | hl⟩) | ⟨_, hl⟩) | hl | hl | hl | hl) | ⟨_, _, hl | hl⟩ <;>
      rw [hl] <;> simp [Act.Allowed]
  exact ⟨s, hs, hp.1.1, hp.1.2, fun n hn =>
    (roles_conserve (· = 1) ⟨_, hrun⟩).1 n (List.all_eq_true.mp hp.2 n hn)⟩

end Gecos.Threads
