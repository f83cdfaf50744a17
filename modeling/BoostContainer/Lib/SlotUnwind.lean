import BoostContainer.Lib.SlotCells

/-!
# Construction that is taken back

A loop constructs elements in raw slots, one after the other, and has a
cleanup for the case that a construction throws. What it does up to the
construction that throws does not depend on the cleanup (`Built`); whether it
took back what it made (`TakenBack`) is then a question about the cleanup
alone, which is run on the slots that were built.
-/

namespace Outcome

variable {σ : Type*} {β : Type} {b : β} {s t : σ}

theorem done_ne_threw : (done b s : Outcome σ β) ≠ threw t := by
  intro h
  cases h

theorem undefined_ne_threw : (undefined : Outcome σ β) ≠ threw t := by
  intro h
  cases h

end Outcome

namespace Prog

variable {σ : Type*} {β γ : Type} {c : Prog σ β} {cleanup : Prog σ Unit} {s t u : σ}

theorem throw_onThrow_of_done (h : cleanup s = .done () t) :
    ((throw : Prog σ β).onThrow cleanup) s = .threw t := by
  rw [onThrow, throw]
  simp only [h]

theorem throw_onThrow_of_undefined (h : cleanup s = .undefined) :
    ((throw : Prog σ β).onThrow cleanup) s = .undefined := by
  rw [onThrow, throw]
  simp only [h]

/-- An exception under a cleanup is all that is left of a program. -/
theorem bind_of_throw_onThrow {k : β → Prog σ γ}
    (h : c s = ((throw : Prog σ β).onThrow cleanup) t) :
    (c >>= k) s = ((throw : Prog σ γ).onThrow cleanup) t := by
  show bind c k s = _
  rw [bind, h, onThrow, onThrow, throw, throw]
  simp only
  cases cleanup t <;> rfl

/-- A program that throws throws in one of its parts. -/
theorem bind_ne_threw {k : β → Prog σ γ} (hc : ∀ s t, c s ≠ .threw t)
    (hk : ∀ b s t, k b s ≠ .threw t) (s t : σ) : (c >>= k) s ≠ .threw t := by
  show bind c k s ≠ _
  rw [bind]
  cases hr : c s with
  | done b u => exact hk b u t
  | threw u => exact absurd hr (hc s u)
  | undefined => exact Outcome.undefined_ne_threw

theorem pure_ne_threw (b : β) (s t : σ) : (pure b : Prog σ β) s ≠ .threw t :=
  Outcome.done_ne_threw

end Prog

namespace Slots

variable {κ : Type} {α : Type*} {e : Env α} {s t u : State κ α} {p q f r n m k : ℕ}
  {src : Source α}

/-! ## Ranges that are cleared -/

/-- A heap where the slots of a range hold no element. -/
def rawRange (h : Heap (Slot α)) (p n : ℕ) : Heap (Slot α) := fun q =>
  if p ≤ q ∧ q < p + n then (h q).map fun x => { x with element := none } else h q

/-- How often a slot is in a range. -/
def within (p n q : ℕ) : ℕ := if p ≤ q ∧ q < p + n then 1 else 0

theorem within_zero (p q : ℕ) : within p 0 q = 0 := by
  rw [within, if_neg (by omega)]

theorem within_one (p q : ℕ) : within p 1 q = if q = p then 1 else 0 := by
  unfold within
  split <;> split <;> omega

theorem within_add (p n m q : ℕ) : within p (n + m) q = within p n q + within (p + n) m q := by
  unfold within
  split <;> split <;> split <;> omega

theorem rawRange_zero (h : Heap (Slot α)) (p : ℕ) : rawRange h p 0 = h := by
  funext q
  exact if_neg (by omega)

theorem rawRange_one (h : Heap (Slot α)) (p : ℕ) :
    rawRange h p 1 = Function.update h p ((h p).map fun x => { x with element := none }) := by
  funext q
  by_cases hq : q = p
  · rw [hq, Function.update_self, rawRange, if_pos (by omega)]
  · rw [Function.update_of_ne hq, rawRange, if_neg (by omega)]

theorem rawRange_add (h : Heap (Slot α)) (p n m : ℕ) :
    rawRange h p (n + m) = rawRange (rawRange h p n) (p + n) m := by
  funext q
  unfold rawRange
  by_cases h₁ : p ≤ q ∧ q < p + n
  · rw [if_pos (by omega), if_neg (by omega), if_pos h₁]
  · by_cases h₂ : p + n ≤ q ∧ q < p + n + m
    · rw [if_pos (by omega), if_pos h₂, if_neg h₁]
    · rw [if_neg (by omega), if_neg h₂, if_neg h₁]

theorem rawRange_of_notMem {h : Heap (Slot α)} (hq : q < p ∨ p + n ≤ q) :
    rawRange h p n q = h q := if_neg (by omega)

/-- **A slot that may be destroyed**: it holds an element, or is there and does
not need to. -/
def Destroyable (e : Env α) (h : Heap (Slot α)) (q : ℕ) : Prop :=
  shape h q = some true ∨ (e.trivialDestructor = true ∧ shape h q ≠ none)

theorem Destroyable.rawRange {h : Heap (Slot α)} (hq : Destroyable e h q)
    (hout : q < p ∨ p + n ≤ q) : Destroyable e (rawRange h p n) q := by
  unfold Destroyable shape at hq ⊢
  rwa [rawRange_of_notMem hout]

/-- **A destruction.** -/
theorem destroy_eq (h : Destroyable e s.heap p) :
    destroy e p s = .done () { s with
      heap := rawRange s.heap p 1
      destroyed := fun q => s.destroyed q + within p 1 q } := by
  have hcount : (fun q => s.destroyed q + within p 1 q)
      = Function.update s.destroyed p (s.destroyed p + 1) := by
    funext q
    rw [within_one]
    by_cases hq : q = p
    · rw [hq, Function.update_self, if_pos rfl]
    · rw [Function.update_of_ne hq, if_neg hq, Nat.add_zero]
  unfold destroy
  rw [hcount, rawRange_one]
  rcases h with h | ⟨ht, h⟩
  · obtain ⟨slot, hslot, helem⟩ := exists_of_shape_eq h
    have hdef : ¬ (slot.element.isNone && !e.trivialDestructor) = true := by
      simp [Option.isSome_iff_ne_none.mp helem]
    simp only [hslot, if_neg hdef, Option.map_some]
  · cases hslot : s.heap p with
    | none => exact absurd (congrArg (Option.map _) hslot) h
    | some slot => simp [ht]

/-- **A range of destructions.** -/
theorem destroyN_eq (h : ∀ j < n, Destroyable e s.heap (p + j)) :
    destroyN e p n s = .done () { s with
      heap := rawRange s.heap p n
      destroyed := fun q => s.destroyed q + within p n q } := by
  induction n generalizing p s with
  | zero =>
    simp only [rawRange_zero, within_zero, Nat.add_zero]
    rfl
  | succ n ih =>
    have hfirst : Destroyable e s.heap p := h 0 (Nat.succ_pos n)
    rw [destroyN, Prog.bind_of_done (destroy_eq hfirst), ih (fun j hj => ?_)]
    · simp only [Nat.add_comm n 1, rawRange_add, within_add, Nat.add_assoc]
    · refine Destroyable.rawRange ?_ (Or.inr (by omega))
      rw [Nat.add_assoc, Nat.add_comm 1 j]
      exact h (j + 1) (by omega)

/-- **Where a range is destroyed that has no element in one slot.** -/
theorem destroyN_undefined (ht : e.trivialDestructor = false) (hk : k < n)
    (hbefore : ∀ j < k, shape s.heap (p + j) = some true)
    (hraw : shape s.heap (p + k) = some false) : destroyN e p n s = .undefined := by
  induction k generalizing p n s with
  | zero =>
    obtain ⟨n, rfl⟩ := Nat.exists_eq_succ_of_ne_zero hk.ne'
    obtain ⟨slot, hslot, helem⟩ := exists_of_shape_eq hraw
    refine Prog.bind_of_undefined ?_
    rw [Nat.add_zero] at hslot
    unfold destroy
    simp only [hslot]
    rw [if_pos]
    simpa [ht] using helem
  | succ k ih =>
    obtain ⟨n, rfl⟩ := Nat.exists_eq_succ_of_ne_zero (Nat.ne_zero_of_lt hk)
    have hfirst : Destroyable e s.heap p := Or.inl (hbefore 0 (Nat.succ_pos k))
    have hkeep : ∀ q, p < q → shape (rawRange s.heap p 1) q = shape s.heap q := fun q hq =>
      congrArg (Option.map _) (rawRange_of_notMem (Or.inr hq))
    rw [destroyN, Prog.bind_of_done (destroy_eq hfirst)]
    refine ih (Nat.lt_of_succ_lt_succ hk) (fun j hj => ?_) ?_
    · show shape (rawRange s.heap p 1) _ = _
      rw [hkeep _ (by omega), Nat.add_assoc, Nat.add_comm 1 j]
      exact hbefore (j + 1) (by omega)
    · show shape (rawRange s.heap p 1) _ = _
      rw [hkeep _ (by omega), Nat.add_assoc, Nat.add_comm 1 k]
      exact hraw

/-! ## The loop -/

/-- **The loop**: elements are constructed from `r` on, from what `from` gives at
`f` and after it. When a construction throws, the cleanup is told where. -/
def constructEach (e : Env α) (srcs : ℕ → Source α) (cleanup : ℕ → Prog (State κ α) Unit)
    (f r : ℕ) : ℕ → Prog (State κ α) (ℕ × ℕ)
  | 0 => pure (f, r)
  | n + 1 => do
    (construct e r (srcs f)).onThrow (cleanup r)
    constructEach e srcs cleanup (f + 1) (r + 1) n

/-- **A state in which the loop can run**: the slots are raw, and what it
constructs from can be read. -/
structure Ready (srcs : ℕ → Source α) (f r n : ℕ) (s : State κ α) : Prop where
  raw : ∀ j < n, shape s.heap (r + j) = some false
  readable : ∀ j < n, (srcs (f + j)).Readable {p | shape s.heap p = some true}

/-- **What the loop did** when it constructed `k` elements: nothing was destroyed,
and no slot but these was touched, unless its element was moved from. -/
structure Built (srcs : ℕ → Source α) (f r k : ℕ) (s t : State κ α) : Prop where
  ops_eq : t.ops = s.ops + k
  constructed_eq : ∀ q, t.constructed q = s.constructed q + within r k q
  destroyed_eq : t.destroyed = s.destroyed
  filled : ∀ j < k, shape t.heap (r + j) = some true
  kept : ∀ q, q < r ∨ r + k ≤ q → shape t.heap q = shape s.heap q
  heap_eq : ∀ q, q < r ∨ r + k ≤ q → (∀ j < k, srcs (f + j) ≠ .slot q) → t.heap q = s.heap q
  allocator_eq : ∀ q, (t.heap q).map Slot.allocator = (s.heap q).map Slot.allocator
  requests_eq : t.requests = s.requests
  object_eq : t.object = s.object

/-- **What a loop leaves that takes back the `k` elements it made**: each was
constructed once and destroyed once, and no other slot is touched, unless its
element was moved from. -/
structure TakenBack (srcs : ℕ → Source α) (f r k : ℕ) (s t : State κ α) : Prop where
  constructed_eq : ∀ q, t.constructed q = s.constructed q + within r k q
  destroyed_eq : ∀ q, t.destroyed q = s.destroyed q + within r k q
  shape_eq : shape t.heap = shape s.heap
  heap_eq : ∀ q, (∀ j < k, srcs (f + j) ≠ .slot q) → t.heap q = s.heap q
  requests_eq : t.requests = s.requests
  object_eq : t.object = s.object

variable {srcs : ℕ → Source α}

theorem Ready.mono (h : Ready srcs f r n s) (hm : m ≤ n) : Ready srcs f r m s :=
  ⟨fun j hj => h.raw j (by omega), fun j hj => h.readable j (by omega)⟩

theorem Ready.raw_first (h : Ready srcs f r (n + 1) s) : shape s.heap r = some false :=
  h.raw 0 (Nat.succ_pos n)

theorem Ready.readable_first (h : Ready srcs f r (n + 1) s) :
    (srcs f).Readable {p | shape s.heap p = some true} := h.readable 0 (Nat.succ_pos n)

theorem allocator_spend (e : Env α) (h : Heap (Slot α)) (src : Source α) (q : ℕ) :
    (src.spend e h q).map Slot.allocator = (h q).map Slot.allocator := by
  cases src with
  | value v => rfl
  | copyOf p => rfl
  | temporary v => rfl
  | slot p =>
    by_cases hq : q = p
    · rw [hq]
      simp only [Source.spend, Function.update_self, Option.map_map]
      rfl
    · simp only [Source.spend, Function.update_of_ne hq]

theorem spend_of_ne {h : Heap (Slot α)} (hq : src ≠ .slot q) : src.spend e h q = h q := by
  cases src with
  | value v => rfl
  | copyOf p => rfl
  | temporary v => rfl
  | slot p => exact Function.update_of_ne (fun h => hq (congrArg Source.slot h.symm)) _ _

theorem exists_read (hsrc : src.Readable {p | shape s.heap p = some true}) :
    ∃ v, src.read s.heap = some v := by
  cases src with
  | value v => exact ⟨v, rfl⟩
  | temporary v => exact ⟨v, rfl⟩
  | slot p =>
    obtain ⟨slot, hslot, helem⟩ := exists_of_shape_eq hsrc
    obtain ⟨v, hv⟩ := Option.isSome_iff_exists.mp helem
    exact ⟨v, by simp only [Source.read, hslot, Option.bind_some, hv]⟩
  | copyOf p =>
    obtain ⟨slot, hslot, helem⟩ := exists_of_shape_eq hsrc
    obtain ⟨v, hv⟩ := Option.isSome_iff_exists.mp helem
    exact ⟨v, by simp only [Source.read, hslot, Option.bind_some, hv]⟩

/-- **The construction that throws** changes nothing but the number of operations. -/
theorem construct_throws (hraw : shape s.heap r = some false)
    (hsrc : src.Readable {p | shape s.heap p = some true}) (hf : e.fuse = some s.ops) :
    construct e r src s = .threw { s with ops := s.ops + 1 } := by
  obtain ⟨slot, hslot, helem⟩ := exists_of_shape_eq hraw
  obtain ⟨v, hv⟩ := exists_read hsrc
  have hnone : slot.element = none := Option.not_isSome_iff_eq_none.mp (by simp [helem])
  have hdef : ¬ (slot.element.isSome && !e.trivialDestructor) = true := by simp [helem]
  have hself : Function.update s.heap r (some { slot with element := none }) = s.heap := by
    refine Function.update_eq_self_iff.mpr ?_
    rw [hslot, ← hnone]
  unfold construct
  simp only [hslot, hv, if_neg hdef, if_pos hf, hself]

/-- **A construction that does not throw.** -/
theorem construct_built (hraw : shape s.heap r = some false)
    (hsrc : (srcs f).Readable {p | shape s.heap p = some true}) (hf : e.fuse ≠ some s.ops) :
    ∃ t, construct e r (srcs f) s = .done () t ∧ Built srcs f r 1 s t := by
  obtain ⟨slot, hslot, helem⟩ := exists_of_shape_eq hraw
  obtain ⟨v, hv⟩ := exists_read hsrc
  have hdef : ¬ (slot.element.isSome && !e.trivialDestructor) = true := by simp [helem]
  have hdone : construct e r (srcs f) s = .done () { s with
      heap := (srcs f).spend e (Function.update s.heap r (some { slot with element := some v }))
      ops := s.ops + 1
      constructed := Function.update s.constructed r (s.constructed r + 1) } := by
    unfold construct
    simp only [hslot, hv, if_neg hdef, if_neg hf]
  have hshape : shape ((srcs f).spend e (Function.update s.heap r
      (some { slot with element := some v }))) = Function.update (shape s.heap) r (some true) := by
    rw [shape_spend, shape_update]
    rfl
  refine ⟨_, hdone, rfl, fun q => ?_, rfl, fun j hj => ?_, fun q hq => ?_, fun q hq hs => ?_,
    fun q => ?_, rfl, rfl⟩
  · show Function.update s.constructed r _ q = _
    rw [within_one]
    by_cases hq : q = r
    · rw [hq, Function.update_self, if_pos rfl]
    · rw [Function.update_of_ne hq, if_neg hq, Nat.add_zero]
  · rw [hshape, show r + j = r by omega, Function.update_self]
  · rw [hshape, Function.update_of_ne (by omega)]
  · have hne : srcs f ≠ .slot q := hs 0 Nat.one_pos
    show (srcs f).spend e _ q = _
    rw [spend_of_ne hne, Function.update_of_ne (by omega)]
  · show ((srcs f).spend e _ q).map _ = _
    rw [allocator_spend]
    by_cases hq : q = r
    · rw [hq, Function.update_self, hslot]
      rfl
    · rw [Function.update_of_ne hq]

namespace Built

theorem zero (srcs : ℕ → Source α) (f r : ℕ) (s : State κ α) : Built srcs f r 0 s s :=
  ⟨rfl, fun q => by rw [within_zero, Nat.add_zero], rfl, fun j hj => absurd hj (Nat.not_lt_zero j),
    fun _ _ => rfl, fun _ _ _ => rfl, fun _ => rfl, rfl, rfl⟩

/-- **Elements are built one after the other.** -/
theorem step (h : Built srcs f r 1 s t) (h' : Built srcs (f + 1) (r + 1) k t u) :
    Built srcs f r (k + 1) s u := by
  refine ⟨?_, fun q => ?_, h'.destroyed_eq.trans h.destroyed_eq, fun j hj => ?_, fun q hq => ?_,
    fun q hq hs => ?_, fun q => (h'.allocator_eq q).trans (h.allocator_eq q),
    h'.requests_eq.trans h.requests_eq, h'.object_eq.trans h.object_eq⟩
  · rw [h'.ops_eq, h.ops_eq]
    omega
  · rw [h'.constructed_eq, h.constructed_eq, Nat.add_comm k 1, within_add, Nat.add_assoc]
  · cases j with
    | zero =>
      rw [Nat.add_zero, h'.kept r (Or.inl (by omega))]
      exact h.filled 0 Nat.one_pos
    | succ j =>
      rw [show r + (j + 1) = r + 1 + j by omega]
      exact h'.filled j (by omega)
  · rw [h'.kept q (by omega), h.kept q (by omega)]
  · rw [h'.heap_eq q (by omega) (fun j hj => ?_), h.heap_eq q (by omega) (fun j hj => ?_)]
    · exact hs j (by omega)
    · rw [Nat.add_assoc, Nat.add_comm 1 j]
      exact hs (j + 1) (by omega)

/-- The rest can be built. -/
theorem ready (h : Built srcs f r 1 s t) (hs : Ready srcs f r (n + 1) s) :
    Ready srcs (f + 1) (r + 1) n t := by
  refine ⟨fun j hj => ?_, fun j hj => ?_⟩
  · rw [h.kept _ (Or.inr (by omega)), Nat.add_assoc, Nat.add_comm 1 j]
    exact hs.raw (j + 1) (by omega)
  · rw [Nat.add_assoc, Nat.add_comm 1 j]
    refine (hs.readable (j + 1) (by omega)).mono (fun q hq => ?_)
    by_cases hqr : q = r
    · rw [hqr]
      exact h.filled 0 Nat.one_pos
    · exact (h.kept q (by omega)).trans hq

/-- What was built can be destroyed. -/
theorem destroyable (h : Built srcs f r k s t) : ∀ j < k, Destroyable e t.heap (r + j) :=
  fun j hj => Or.inl (h.filled j hj)

end Built

/-- **The loop up to the construction that throws**, and then the cleanup. -/
theorem constructEach_throws (cleanup : ℕ → Prog (State κ α) Unit) (hs : Ready srcs f r n s)
    (hk : k < n) (hf : e.fuse = some (s.ops + k)) :
    ∃ t, Built srcs f r k s t ∧ constructEach e srcs cleanup f r n s
      = (Prog.throw : Prog (State κ α) (ℕ × ℕ)).onThrow (cleanup (r + k))
        { t with ops := t.ops + 1 } := by
  induction k generalizing f r n s with
  | zero =>
    obtain ⟨n, rfl⟩ := Nat.exists_eq_succ_of_ne_zero hk.ne'
    refine ⟨s, Built.zero srcs f r s, ?_⟩
    have hthrow := construct_throws hs.raw_first hs.readable_first hf
    refine Prog.bind_of_throw_onThrow ?_
    rw [Prog.onThrow, hthrow, Prog.onThrow, Prog.throw]
    rfl
  | succ k ih =>
    obtain ⟨n, rfl⟩ := Nat.exists_eq_succ_of_ne_zero (Nat.ne_zero_of_lt hk)
    have hne : e.fuse ≠ some s.ops := by
      rw [hf]
      intro h
      have := Option.some.inj h
      omega
    obtain ⟨t, hdone, hbuilt⟩ := construct_built hs.raw_first hs.readable_first hne
    have hf' : e.fuse = some (t.ops + k) := by
      rw [hf, hbuilt.ops_eq]
      congr 1
      omega
    obtain ⟨u, hu, hrun⟩ := ih (hbuilt.ready hs) (Nat.lt_of_succ_lt_succ hk) hf'
    refine ⟨u, hbuilt.step hu, ?_⟩
    have hguard : ((construct e r (srcs f)).onThrow (cleanup r)) s = .done () t := by
      rw [Prog.onThrow, hdone]
    rw [constructEach, Prog.bind_of_done hguard, hrun, Nat.add_assoc, Nat.add_comm 1 k]

/-- A slot that was raw, and holds nothing again. -/
theorem map_clear_eq {x y : Option (Slot α)} (ha : x.map Slot.allocator = y.map Slot.allocator)
    (hy : y.map (fun slot => slot.element.isSome) = some false) :
    x.map (fun slot => { slot with element := none }) = y := by
  cases y with
  | none => exact absurd hy (by simp)
  | some y =>
    cases x with
    | none => exact absurd ha (by simp)
    | some x =>
      obtain ⟨a, v⟩ := y
      simp only [Option.map_some, Option.some.injEq, Option.isSome_eq_false_iff,
        Option.isNone_iff_eq_none] at ha hy ⊢
      rw [ha, hy]

/-- **What is destroyed after it was built is taken back.** -/
theorem Built.takenBack (h : Built srcs f r k s t) (hs : Ready srcs f r k s) :
    TakenBack srcs f r k s { t with
      ops := t.ops + 1
      heap := rawRange t.heap r k
      destroyed := fun q => t.destroyed q + within r k q } := by
  have hin : ∀ q, r ≤ q ∧ q < r + k → rawRange t.heap r k q = s.heap q := by
    intro q hq
    obtain ⟨j, rfl⟩ := Nat.exists_eq_add_of_le hq.1
    rw [rawRange, if_pos hq]
    exact map_clear_eq (h.allocator_eq _) (hs.raw j (by omega))
  have hout : ∀ q, ¬ (r ≤ q ∧ q < r + k) → rawRange t.heap r k q = t.heap q :=
    fun q hq => if_neg hq
  refine ⟨h.constructed_eq, fun q => ?_, ?_, fun q hq => ?_, h.requests_eq, h.object_eq⟩
  · show t.destroyed q + _ = _
    rw [h.destroyed_eq]
  · funext q
    show shape (rawRange t.heap r k) q = _
    by_cases hqr : r ≤ q ∧ q < r + k
    · rw [shape, shape, hin q hqr]
    · rw [← h.kept q (by omega), shape, shape, hout q hqr]
  · show rawRange t.heap r k q = _
    by_cases hqr : r ≤ q ∧ q < r + k
    · exact hin q hqr
    · rw [hout q hqr]
      exact h.heap_eq q (by omega) hq

end Slots
