import Gecos.Library.LockFree
import Gecos.Refcount.Object
import Gecos.Table.Paths

/-! Once the updater of list_rc.c stops, the searches return: `safe_read` does not wait for a count that stays
zero, and failed compare-and-swaps do not go on for ever. -/
namespace Gecos.ListRc
open Library Ledger
variable {β ρ : Type} {m m' : Mem β} {c : Nat} {lk : Link β} {q : Addr} {d : Dec} {d' : Option Dec} {x x' : Searcher β}

/-- The steps that a call of `lfrc_refcnt_dec` has left, but for what the next drop to zero brings about. -/
def Dec.left : Dec → Nat
  | .check stack _ => stack.length + 2
  | .xadd stack _ | .free stack _ => stack.length + 1
  | .gcLoad stack _ => stack.length + 6
  | .gcStore stack _ _ => stack.length + 5
  | .next stack _ => stack.length + 4

@[simp] theorem call_left (stack : List Addr) : (Dec.call stack none).elim 0 Dec.left = stack.length := by
  cases stack <;> rfl

/-- A step brings the call nearer to its end, or drops a reference. -/
theorem Dec.step_left (hs : d.step m = some (m', d')) :
    m'.rc = m.rc ∧ d'.elim 0 Dec.left < d.left ∨
      ∃ p, p ∈ d.held ∧ m'.rc = Function.update m.rc p (m.rc p - 1) ∧ d'.elim 0 Dec.left ≤ d.left + 5 := by
  cases d with
  | check stack p =>
    simp only [Dec.step] at hs
    split at hs <;> cases hs
    exact .inl ⟨rfl, by simp [Dec.left]⟩
  | xadd stack p =>
    cases hs
    refine .inr ⟨p, by simp [Dec.held], rfl, ?_⟩
    split
    · simp [Dec.left]
    · rw [call_left]
      simp only [Dec.left]
      omega
  | gcLoad stack p | gcStore stack p gc =>
    cases hs
    exact .inl ⟨rfl, by simp [Dec.left]⟩
  | next stack p =>
    cases hs
    refine .inl ⟨rfl, ?_⟩
    cases m.next p with
    | none =>
      rw [call_left, List.length_cons]
      simp [Dec.left]
    | some q => simp [Dec.call, Dec.left]
  | free stack p =>
    cases hs
    exact .inl ⟨rfl, by simp [Dec.left]⟩

/-- What a counted reference is worth to `c` readers: the steps that dropping it may cause, and the
compare-and-swaps that it makes fail. -/
def weight (c : Nat) : Nat := 2 * c + 6

/-- What a search pays for a node. -/
def price (c : Nat) : Nat := weight c + 2 * c + 7

/-- What a search pays for the nodes that follow. -/
noncomputable def linkWork (c : Nat) (m : Mem β) (lk : Link β) : Nat :=
  price c * (chainOf m.next (m.load lk)).length + 4

/-- The same at the loop test. -/
noncomputable def loopWork (c : Nat) (m : Mem β) : Ptr → Nat
  | some cur => linkWork c m (.next cur) + 1
  | none => 0

/-- The work that a search has before it. `q` may be out of date, and so may the count that is to be replaced. -/
noncomputable def Searcher.work (c : Nat) (m : Mem β) : Searcher β → Nat
  | .idle | .returned _ => 0
  | .load _ lk => linkWork c m lk
  | .loadRc _ lk q =>
    if m.load lk = some q then linkWork c m (.next q) + weight c + 2 * c + 6 else linkWork c m lk + weight c + 2 * c + 5
  | .cas _ lk q old =>
    (if m.load lk = some q then linkWork c m (.next q) + weight c + 2 * c + 5 else linkWork c m lk + weight c + 2 * c + 4) +
      if m.rc q = old then 0 else 2
  | .recheck _ lk q => if m.load lk = some q then linkWork c m (.next q) + 4 else linkWork c m lk + 3
  | .undo _ lk d => linkWork c m lk + d.left
  | .pass _ next d => loopWork c m next + d.left
  | .key _ cur => linkWork c m (.next cur) + 1
  | .keyAgain .. => 3
  | .release _ d => d.left

theorem linkWork_load (he : Ends m.next) (h : m.load lk = some q) : linkWork c m lk = linkWork c m (.next q) + price c := by
  unfold linkWork
  rw [h, he.chainOf_some, List.length_cons, Nat.mul_succ]
  show _ = price c * (chainOf m.next (m.next q)).length + 4 + price c
  omega

/-- Links that nobody stores to cost what they did. -/
theorem linkWork_congr (hn : m'.next = m.next) (hh : m'.heads = m.heads) : linkWork c m' lk = linkWork c m lk := by
  cases lk <;> simp [linkWork, Mem.load, hn, hh]

theorem loop_work (k : Int) (p : Ptr) : (Searcher.loop k p : Searcher β).work c m = loopWork c m p := by
  cases p <;> rfl

theorem linkWork_ge : 4 ≤ linkWork c m lk := Nat.le_add_left ..

theorem loopWork_congr (hn : m'.next = m.next) (p : Ptr) : loopWork c m' p = loopWork c m p := by
  cases p with
  | none => rfl
  | some q => simp [loopWork, linkWork, Mem.load, hn]

/-- A count that changes sets a search back by at most one compare-and-swap. -/
theorem Searcher.work_le (hn : m'.next = m.next) (hh : m'.heads = m.heads) : x.work c m' ≤ x.work c m + 2 := by
  have hload (lk : Link β) : m'.load lk = m.load lk := by cases lk <;> simp [Mem.load, hn, hh]
  cases x with
  | cas k lk q old =>
    simp only [work, hload, linkWork_congr hn hh]
    split <;> split <;> split <;> omega
  | idle | returned | load | loadRc | recheck | undo | pass | key | keyAgain | release =>
    simp only [work, hload, linkWork_congr hn hh, loopWork_congr hn]
    omega

theorem Searcher.work_same (hn : m'.next = m.next) (hh : m'.heads = m.heads) (hrc : m'.rc = m.rc) :
    x.work c m' = x.work c m := by
  have hload (lk : Link β) : m'.load lk = m.load lk := by cases lk <;> simp [Mem.load, hn, hh]
  cases x <;> simp only [work, hload, linkWork_congr hn hh, loopWork_congr hn, hrc]

/-- `safe_read` has returned `p`. -/
theorem got_work (k : Int) (lk : Link β) (p : Ptr) : (Searcher.got k lk p).work c m ≤ loopWork c m p + 2 := by
  cases lk with
  | head b =>
    simp only [Searcher.got, loop_work]
    omega
  | next cur => exact Nat.le_refl _

/-- A step of a reader, where a count that changes is paid for or pays. -/
inductive Pays (c : Nat) (m : Mem β) (x : Searcher β) (m' : Mem β) (x' : Searcher β) : Prop where
  | step : m'.rc = m.rc → x'.work c m' < x.work c m → Pays c m x m' x'
  | inc (q : Addr) : m.rc q ≠ 0 → m'.rc = Function.update m.rc q (m.rc q + 1) →
      x'.work c m' + weight c + 2 * c < x.work c m → Pays c m x m' x'
  | dec (p : Addr) : p ∈ x.dec.elim 0 Dec.held → m'.rc = Function.update m.rc p (m.rc p - 1) →
      x'.work c m' + 2 * c < x.work c m + weight c → Pays c m x m' x'

/-- A step inside `lfrc_refcnt_dec`, where `w` is what the reader has to do after it. -/
private theorem dec_pays {w : Nat} (hd : x.dec = some d) (hw : x.work c m = w + d.left) (hs : d.step m = some (m', d'))
    (hw' : x'.work c m' = w + d'.elim 0 Dec.left) : Pays c m x m' x' := by
  rcases Dec.step_left hs with ⟨hrc, hlt⟩ | ⟨p, hp, hrc, hle⟩
  · refine .step hrc ?_
    omega
  · refine .dec p (by rw [hd]; exact hp) hrc ?_
    simp only [weight]
    omega

theorem Searcher.step_pays (he : Ends m.next) (hfact : x.Fact)
    (hpos : ∀ k lk q, x = .loadRc k lk q → m.load lk = some q → m.rc q ≠ 0) (hs : x.step m = some (m', x')) :
    Pays c m x m' x' := by
  cases x with
  | idle | returned => cases hs
  | load k lk =>
    cases hs
    refine .step rfl ?_
    cases hq : m.load lk with
    | none =>
      refine Nat.lt_of_le_of_lt (got_work k lk none) ?_
      show 0 + 2 < linkWork c m lk
      have hge : 4 ≤ linkWork c m lk := linkWork_ge
      omega
    | some q =>
      have hlink := linkWork_load (c := c) he hq
      simp only [price] at hlink
      simp only [work, hq, if_true]
      omega
  | loadRc k lk q =>
    cases hs
    refine .step rfl ?_
    by_cases hz : m.rc q = 0
    · have hstale : m.load lk ≠ some q := fun hq => hpos k lk q rfl hq hz
      simp only [work, hz, hstale, if_true, if_false]
      omega
    · simp only [work, hz, if_true, if_false]
      split <;> omega
  | cas k lk q old =>
    simp only [Searcher.step] at hs
    split at hs
    · rename_i hold
      cases hs
      refine .inc q (by rw [hold]; exact hfact) (by rw [hold]) ?_
      have hload : ({ m with rc := Function.update m.rc q (old + 1) } : Mem β).load lk = m.load lk := by cases lk <;> rfl
      have hlink (lk : Link β) : linkWork c { m with rc := Function.update m.rc q (old + 1) } lk = linkWork c m lk :=
        linkWork_congr rfl rfl
      simp only [work, hold, hload, hlink, if_true]
      split <;> omega
    · rename_i hold
      cases hs
      refine .step rfl ?_
      simp only [work, hold, if_false]
      split <;> omega
  | recheck k lk q =>
    cases hs
    refine .step rfl ?_
    by_cases hq : m.load lk = some q
    · rw [if_pos hq]
      refine Nat.lt_of_le_of_lt (got_work k lk (some q)) ?_
      simp only [work, hq, if_true, loopWork]
      omega
    · rw [if_neg hq]
      simp only [work, hq, if_false, Dec.left, List.length_nil]
      omega
  | undo k lk d =>
    obtain ⟨⟨m₁, d'⟩, hd, he⟩ := Option.map_eq_some_iff.mp hs
    cases he
    obtain ⟨_, hn, hh, _⟩ := dec_mem hd
    refine dec_pays rfl rfl hd ?_
    cases d' <;> simp [work, linkWork_congr hn hh]
  | pass k next d =>
    obtain ⟨⟨m₁, d'⟩, hd, he⟩ := Option.map_eq_some_iff.mp hs
    cases he
    obtain ⟨_, hn, _⟩ := dec_mem hd
    refine dec_pays rfl rfl hd ?_
    cases d' with
    | none => exact (loop_work k next).trans (loopWork_congr hn next)
    | some d' => simp [work, loopWork_congr hn]
  | key k cur =>
    cases hs
    refine .step rfl ?_
    have hge : 4 ≤ linkWork c m (.next cur) := linkWork_ge
    split <;> simp only [work] <;> omega
  | keyAgain k cur =>
    cases hs
    exact .step rfl (by simp [work, Dec.left])
  | release res d =>
    obtain ⟨⟨m₁, d'⟩, hd, he⟩ := Option.map_eq_some_iff.mp hs
    cases he
    refine dec_pays (w := 0) rfl (Nat.zero_add _).symm hd ?_
    cases d' <;> simp [work]

section system
variable [DecidableEq β] [DecidableEq ρ] [Fintype ρ] {s s' t : State β ρ} {l : Ledger (Option ρ) Addr} {r : ρ} {b : β} {a : Act β ρ}

/-- Every reader inside a search knows where it stands. -/
theorem known_reachable (hs : Reachable (Steps ListRc.step) (.init β ρ) s) :
    (∃ l, Inv s l) ∧ ∀ r, (s.rd r).running = true → ∃ k b hist, Known r k b hist s := by
  refine hs.invariant (P := fun s => (∃ l, Inv s l) ∧ ∀ r, (s.rd r).running = true → ∃ k b hist, Known r k b hist s)
    ⟨⟨start ρ, .init⟩, fun r hr => by simp [State.init, Searcher.running] at hr⟩ fun s a t ⟨⟨l, hi⟩, hk⟩ ha => ?_
  refine ⟨hi.step ha, fun r hr => ?_⟩
  by_cases hcall : ∃ k b, a = .call r k b
  · obtain ⟨k, b, rfl⟩ := hcall
    exact ⟨k, b, [t], .start ⟨l, hi⟩ ha⟩
  · have hrun : (s.rd r).running = true := by
      cases a with
      | begin =>
        obtain ⟨w, _, rfl⟩ := Option.map_eq_some_iff.mp ha
        exact hr
      | update => rwa [update_rd ha] at hr
      | alloc n => rwa [alloc_rd ha] at hr
      | call r' k' b' =>
        have hne : r ≠ r' := fun he => hcall ⟨k', b', by rw [he]⟩
        simp only [Steps, ListRc.step] at ha
        split at ha <;> cases ha <;> simpa [Function.update_of_ne hne] using hr
      | read r' =>
        obtain ⟨⟨m', x'⟩, hx, rfl⟩ := Option.map_eq_some_iff.mp ha
        by_cases hne : r = r'
        · rw [hne]
          exact (running_of_step hx).1
        · simpa [Function.update_of_ne hne] using hr
    obtain ⟨k, b, hist, hkn⟩ := hk r hrun
    exact ⟨k, b, _, hkn.step ha fun k b he => hcall ⟨k, b, he⟩⟩

omit [DecidableEq β] [DecidableEq ρ] in
/-- The table's own reference. -/
theorem Inv.linked_pos (hi : Inv s l) (h : q ∈ s.mem.chain b) : s.mem.rc q ≠ 0 := by
  have hl := (hi.rep.fits.linked q).mp ⟨b, h⟩
  have hc := hi.balanced.count q
  rw [hl, hi.rep.fits.count] at hc
  simp only [Home.link] at hc
  omega

omit [DecidableEq β] [DecidableEq ρ] in
/-- As long as a link leads to a node, a reader that follows it finds the node counted. -/
theorem Known.counted {k k' : Int} {hist : List (State β ρ)} (h : Known r k b hist s) (hr : s.rd r = .loadRc k' lk q)
    (hq : s.mem.load lk = some q) : s.mem.rc q ≠ 0 := by
  obtain ⟨⟨l, hi⟩, _, L, hL, _, hk⟩ := h
  rw [hr] at hk
  obtain ⟨rfl, hk⟩ := hk
  cases lk with
  | head b' => exact hi.linked_pos (hi.writers.table.head_some (k := k') hq).1
  | next n =>
    obtain ⟨⟨hn | hn, _⟩, hkey⟩ := hk
    · exact hi.linked_pos (hi.writers.table.next_some (hi.writers.table.around hn) hkey hq).1
    · exact hi.lingers_next (hL n hn) hq

/-- A reader's step, and what it costs. -/
theorem read_pays (hs : Reachable (Steps ListRc.step) (.init β ρ) s) {x' : Searcher β}
    (hx : (s.rd r).step s.mem = some (m', x')) : Pays c s.mem (s.rd r) m' x' := by
  obtain ⟨⟨l, hi⟩, hk⟩ := known_reachable hs
  have he : Ends s.mem.next := ends_of_relinks State.mem State.upd (fun s hs => (inv_reachable hs).elim fun _ hi => hi.writers)
    (fun _ _ _ _ => step_relinks) rfl hs
  refine Searcher.step_pays he (hi.facts r) (fun k lk q hr hq => ?_) hx
  obtain ⟨k', b, hist, hkn⟩ := hk r (running_of_step hx).1
  exact hkn.counted hr hq

/-- What all searches together have before them, the counts being those of `T`. -/
noncomputable def State.work (T : Finset Addr) (s : State β ρ) : Nat :=
  weight (Fintype.card ρ) * ∑ n ∈ T, s.mem.rc n + ∑ r, (s.rd r).work (Fintype.card ρ) s.mem

/-- Every step of a reader takes from it. -/
theorem read_work {T : Finset Addr} (hs : Reachable (Steps ListRc.step) (.init β ρ) s) (hT : ∀ n, n ∉ T → s.mem.rc n = 0)
    (ht : ListRc.step s (.read r) = some t) : t.work T < s.work T ∧ ∀ n, n ∉ T → t.mem.rc n = 0 := by
  obtain ⟨⟨m', x'⟩, hx, rfl⟩ := Option.map_eq_some_iff.mp ht
  obtain ⟨l, hi⟩ := inv_reachable hs
  obtain ⟨_, hn, hh⟩ := searcher_mem hx
  have hpays := read_pays (c := Fintype.card ρ) hs hx
  have hin {q : Addr} (hq : s.mem.rc q ≠ 0) : q ∈ T := by
    by_contra hno
    exact hq (hT q hno)
  have hmoved (setback : Nat) (h : ∀ v : ρ, v ≠ r → (s.rd v).work (Fintype.card ρ) m' ≤ (s.rd v).work (Fintype.card ρ) s.mem + setback) :
      ∑ v, (Function.update s.rd r x' v).work (Fintype.card ρ) m' + (s.rd r).work (Fintype.card ρ) s.mem ≤
        ∑ v, (s.rd v).work (Fintype.card ρ) s.mem + x'.work (Fintype.card ρ) m' + setback * Fintype.card ρ := by
    have hsum := sum_setback (p := r) (f := fun v => (s.rd v).work (Fintype.card ρ) s.mem)
      (g := fun v => (Function.update s.rd r x' v).work (Fintype.card ρ) m') fun v hv => by
        simpa only [Function.update_of_ne hv] using h v hv
    simpa only [Function.update_self] using hsum
  have hkeep {q : Addr} {v : Nat} (hq : s.mem.rc q ≠ 0) (hrc : m'.rc = Function.update s.mem.rc q v) (n : Addr) (hnT : n ∉ T) :
      m'.rc n = 0 := by
    have hne : n ≠ q := fun he => hnT (he ▸ hin hq)
    rw [hrc, Function.update_of_ne hne]
    exact hT n hnT
  unfold State.work
  cases hpays with
  | step hrc hlt =>
    have hsum := hmoved 0 fun v _ => (Searcher.work_same hn hh hrc).le
    refine ⟨?_, fun n hnT => ?_⟩
    · simp only [hrc]
      omega
    · rw [hrc]
      exact hT n hnT
  | inc q hq hrc hlt =>
    have hsum := hmoved 2 fun v _ => Searcher.work_le hn hh
    have hcount := sum_update_add (f := s.mem.rc) (hin hq) (s.mem.rc q + 1)
    rw [← hrc] at hcount
    refine ⟨?_, hkeep hq hrc⟩
    have hone : ∑ n ∈ T, m'.rc n = ∑ n ∈ T, s.mem.rc n + 1 := by omega
    simp only [hone, Nat.mul_succ]
    omega
  | dec p hp hrc hlt =>
    have hq : s.mem.rc p ≠ 0 := by
      have hpos := hi.balanced.pos_of_held (t := some r) (p := p)
        (by rw [(hi.rep.readers r).held]; exact Multiset.mem_add.mpr (.inl hp))
      rw [hi.rep.fits.count] at hpos
      omega
    have hsum := hmoved 2 fun v _ => Searcher.work_le hn hh
    have hcount := sum_update_add (f := s.mem.rc) (hin hq) (s.mem.rc p - 1)
    rw [← hrc] at hcount
    refine ⟨?_, hkeep hq hrc⟩
    have hone : ∑ n ∈ T, s.mem.rc n = ∑ n ∈ T, m'.rc n + 1 := by omega
    simp only [hone, Nat.mul_succ]
    omega

omit [DecidableEq β] [DecidableEq ρ] [Fintype ρ] in
private theorem dec_rc (hs : d.step m = some (m', d')) : ∃ q, ∀ n, n ≠ q → m'.rc n = m.rc n := by
  rcases Dec.step_left hs with ⟨hrc, _⟩ | ⟨p, _, hrc, _⟩
  · exact ⟨0, fun n _ => by rw [hrc]⟩
  · exact ⟨p, fun n hn => by rw [hrc, Function.update_of_ne hn]⟩

/-- No step changes more than one count. -/
theorem step_rc (hs : Reachable (Steps ListRc.step) (.init β ρ) s) (ht : ListRc.step s a = some t) :
    ∃ q, ∀ n, n ≠ q → t.mem.rc n = s.mem.rc n := by
  obtain ⟨l, hi⟩ := inv_reachable hs
  have hsame (h : t.mem.rc = s.mem.rc) : ∃ q, ∀ n, n ≠ q → t.mem.rc n = s.mem.rc n := ⟨0, fun n _ => by rw [h]⟩
  cases a with
  | begin op k b =>
    obtain ⟨w, _, rfl⟩ := Option.map_eq_some_iff.mp ht
    exact hsame rfl
  | update =>
    simp only [ListRc.step, State.update] at ht
    split at ht
    case h_1 | h_2 =>
      cases ht
      exact hsame rfl
    case h_3 k b prev cur new _ =>
      cases ht
      exact ⟨new, fun n hn => Function.update_of_ne hn _ _⟩
    case h_4 b n c _ =>
      obtain ⟨⟨m', c'⟩, hc, rfl⟩ := Option.map_eq_some_iff.mp ht
      cases c with
      | loadNext =>
        cases hc
        exact hsame rfl
      | inc q =>
        cases hc
        exact ⟨q, fun n hn => Function.update_of_ne hn _ _⟩
      | dec d =>
        obtain ⟨⟨m₁, d'⟩, hd, he⟩ := Option.map_eq_some_iff.mp hc
        cases he
        exact dec_rc hd
    case h_5 hw =>
      obtain ⟨⟨m', w'⟩, hm, rfl⟩ := Option.map_eq_some_iff.mp ht
      rw [← hw] at hm
      exact hsame (hi.writers.step_keeps hm).2.2.2.1
    case h_6 =>
      obtain ⟨⟨m', w'⟩, hm, rfl⟩ := Option.map_eq_some_iff.mp ht
      exact hsame (hi.writers.step_keeps hm).2.2.2.1
  | alloc n =>
    simp only [ListRc.step, State.alloc] at ht
    split at ht
    · split at ht <;> cases ht
      exact hsame rfl
    · cases ht
  | call r k b =>
    simp only [ListRc.step] at ht
    split at ht <;> cases ht <;> exact hsame rfl
  | read r =>
    obtain ⟨⟨m', x'⟩, hx, rfl⟩ := Option.map_eq_some_iff.mp ht
    cases read_pays (c := 0) hs hx with
    | step hrc => exact hsame hrc
    | inc q _ hrc | dec q _ hrc => exact ⟨q, fun n hn => by rw [hrc, Function.update_of_ne hn]⟩

/-- Only so many nodes are counted. -/
theorem counted_finite (hs : Reachable (Steps ListRc.step) (.init β ρ) s) : {n | s.mem.rc n ≠ 0}.Finite := by
  obtain ⟨tr, hs⟩ := hs
  induction hs with
  | nil => simp [State.init, Mem.init]
  | @snoc tr s a t hrun ht ih =>
    obtain ⟨q, hq⟩ := step_rc ⟨tr, hrun⟩ ht
    refine (ih.insert q).subset fun n hn => ?_
    by_cases hne : n = q
    · exact .inl hne
    · refine .inr fun hz => hn ?_
      rw [hq n hne]
      exact hz

/-- A reader inside a search is never stuck: no assertion fails. -/
theorem Inv.read_enabled (hi : Inv s l) (hr : (s.rd r).running = true) : ∃ t, ListRc.step s (.read r) = some t := by
  have hdec (d : Dec) (hd : (s.rd r).dec = some d) : ∃ md, d.step s.mem = some md := by
    cases d with
    | check stack p => exact ⟨_, if_pos (hi.assert_holds (t := some r) hd)⟩
    | xadd | gcLoad | gcStore | next | free => exact ⟨_, rfl⟩
  obtain ⟨mx, hx⟩ : ∃ mx, (s.rd r).step s.mem = some mx := by
    cases hrd : s.rd r with
    | idle | returned => simp [hrd, Searcher.running] at hr
    | load | loadRc | recheck | key | keyAgain => exact ⟨_, rfl⟩
    | cas k lk q old =>
      simp only [Searcher.step]
      split <;> exact ⟨_, rfl⟩
    | undo k lk d | pass k next d | release res d =>
      obtain ⟨md, hd⟩ := hdec d (by rw [hrd]; rfl)
      exact ⟨_, Option.map_eq_some_iff.mpr ⟨md, hd, rfl⟩⟩
  exact ⟨_, Option.map_eq_some_iff.mpr ⟨mx, hx, rfl⟩⟩

end system

/-- Wherever the updater has stopped, in the middle of a `delete` or of a release: however the readers are
scheduled, they take boundedly many steps without new calls, and one that has not returned can go on. So no
`safe_read` waits for a count that stays zero, nobody's compare-and-swap fails for ever, and what the readers
release is freed. -/
theorem rc_searches_return {β ρ : Type} [DecidableEq β] [DecidableEq ρ] [Fintype ρ] {s : State β ρ}
    (hs : Reachable (Steps ListRc.step) (.init β ρ) s) :
    ∃ N, ∀ tr t, Run (Steps ListRc.step) s tr t → (∀ e ∈ tr, ∃ r, e.1 = .read r) →
      tr.length ≤ N ∧ ∀ r, (t.rd r).running = true → ∃ u, ListRc.step t (.read r) = some u := by
  let T := (counted_finite hs).toFinset
  have hT (n : Addr) (hn : n ∉ T) : s.mem.rc n = 0 := by simpa [T] using hn
  refine ⟨s.work T, fun tr t hrun hread => ⟨?_, fun r hr => ?_⟩⟩
  · have hkeep (s : State β ρ) (a : Act β ρ) (t : State β ρ)
        (h : Reachable (Steps ListRc.step) (.init β ρ) s ∧ ∀ n, n ∉ T → s.mem.rc n = 0)
        (hr : ListRc.step s a = some t ∧ ∃ r, a = .read r) :
        Reachable (Steps ListRc.step) (.init β ρ) t ∧ ∀ n, n ∉ T → t.mem.rc n = 0 := by
      obtain ⟨ht, r, rfl⟩ := hr
      exact ⟨h.1.trans ⟨_, .snoc .nil ht⟩, (read_work h.1 h.2 ht).2⟩
    have hdrop (s : State β ρ) (a : Act β ρ) (t : State β ρ)
        (h : Reachable (Steps ListRc.step) (.init β ρ) s ∧ ∀ n, n ∉ T → s.mem.rc n = 0)
        (hr : ListRc.step s a = some t ∧ ∃ r, a = .read r) (_ : ∃ r, a = .read r) : t.work T < s.work T := by
      obtain ⟨ht, r, rfl⟩ := hr
      exact (read_work h.1 h.2 ht).1
    have hle := (hrun.guarded (G := fun a => ∃ r, a = .read r) hread).length_le ⟨hs, hT⟩ hkeep hdrop hread
    exact (Nat.le_add_right ..).trans hle
  · obtain ⟨l, hi⟩ := inv_reachable (hrun.reachable_append hs)
    exact hi.read_enabled hr

/-- An insert, and two searches for its key of which one has counted the node; then a `delete` stops after
it has unlinked the node. -/
def overtaken : List (Act Unit Bool) :=
  [.begin .insert 5 (), .update, .update, .alloc 0, .update, .update, .update, .update, .update, .call true 5 (),
    .call false 5 (), .read true, .read true, .read false, .read false, .read false, .begin .delete 5 (), .update,
    .update, .update, .update, .update, .update, .update]

/-- The other search, whose compare-and-swap is to fail. -/
theorem rc_searches_return_overtaken : ∃ s : State Unit Bool, s.rd true = .cas 5 (.head ()) 0 1 ∧ s.mem.rc 0 = 2 ∧
    s.unlinked 0 = true ∧ ∃ N, ∀ tr t, Run (Steps ListRc.step) s tr t → (∀ e ∈ tr, ∃ r, e.1 = .read r) → tr.length ≤ N := by
  have h : (exec ListRc.step (.init Unit Bool) overtaken).any fun s =>
      decide (s.rd true = .cas 5 (.head ()) 0 1 ∧ s.mem.rc 0 = 2 ∧ s.unlinked 0 = true) := by decide +kernel
  obtain ⟨s, hs, h⟩ := (Option.any_eq_true _ _).mp h
  obtain ⟨hcas, hrc, hun⟩ := of_decide_eq_true h
  obtain ⟨N, hN⟩ := rc_searches_return ⟨_, exec_run hs⟩
  exact ⟨s, hcas, hrc, hun, N, fun tr t hrun hread => (hN tr t hrun hread).1⟩

end Gecos.ListRc
