import BoostContainer.Detail.CopyMoveUnwind
import BoostContainer.Devector.DevectorInsert

/-!
# A devector made from an input range

Of an input range nothing is known before it is read, so its elements are put
at the end of the devector one by one, and the buffer grows on the way. If
reading or construction throws, the constructor catches it and gives back what
there is, since no destructor runs for an object that was not made. But it does
not throw again: the constructor returns, and the object that was made points
to the buffer that was given back.
-/

open Slots

namespace Devector

variable {α : Type*}

/-- **An input range**: what is read next is an element, or reading throws. -/
abbrev InputRange (α : Type*) := List (Option (Source α))

variable (e : Env α) (T : Traits)

/-- `emplace_back` -/
def emplaceBack (src : Source α) : Prog (State Impl α) Unit := do
  let m ← object
  if m.backFreeCapacity ≠ 0 then do
    construct e m.rawEnd src
    setObject fun m => { m with backIdx := m.backIdx + 1 }
  else do
    let _ ← insertRangeSlowPath e T m.rawEnd [src]
    pure ()

/-- The loop of the constructor. -/
def emplaceRange : InputRange α → Prog (State Impl α) Unit
  | [] => pure ()
  | none :: _ => Prog.throw
  | some src :: input => do
    emplaceBack e T src
    emplaceRange input

/-- `~devector`, and the handler of the constructor. -/
def destroyDevector : Prog (State Impl α) Unit := do
  let m ← object
  destroyElements e m.rawBegin m.rawEnd
  deallocateBuffer m.buffer m.capacity

/-- **`devector(InputIterator, InputIterator)`** -/
def inputConstructor (input : InputRange α) : Prog (State Impl α) Unit :=
  (emplaceRange e T input).catchAll (destroyDevector e)

variable {e T} {s₀ s t : State Impl α} {S₀ own live : Set ℕ} {m : Impl} {src : Source α}
  {input : InputRange α} {p n cap buffer : ℕ} {E : State Impl α → Prop}

/-- **A devector is kept**, whatever its elements are. -/
structure Keeps (e : Env α) (s₀ : State Impl α) (S₀ : Set ℕ) (m : Impl) (s : State Impl α) :
    Prop where
  sound : m.Sound
  owns : Owns e.trivialDestructor s₀ S₀ m m.slots m.elements s

/-- What a devector had is given back. -/
def GivenBack (e : Env α) (s₀ : State Impl α) (S₀ : Set ℕ) (s : State Impl α) : Prop :=
  ∃ m, Owns e.trivialDestructor s₀ S₀ m ∅ ∅ s

/-! ## Memory -/

theorem meets_object {β : Type} {a : Impl → Prog (State Impl α) β} {Q : β → State Impl α → Prop}
    (h : Prog.Meets (Owns e.trivialDestructor s₀ S₀ m own live) (a m) Q E) :
    Prog.Meets (Owns e.trivialDestructor s₀ S₀ m own live) (object >>= a) Q E := by
  intro s hs
  show ((a s.object) s).Meets _ _
  rw [hs.object_eq]
  exact h s hs

theorem setObject_owns {f : Impl → Impl} :
    Prog.Meets (Owns e.trivialDestructor s₀ S₀ m own live) (setObject f : Prog (State Impl α) Unit)
      (fun _ => Owns e.trivialDestructor s₀ S₀ (f m) own live) E :=
  Prog.meets_modify (fun _ hs => ⟨congrArg f hs.object_eq, hs.exchange, hs.live_sub, hs.present,
    hs.full, hs.vacant, hs.ledger⟩)

theorem deallocateBuffer_owns (hnull : buffer = 0 → cap = 0)
    (hin : Set.Ico buffer (buffer + cap) ⊆ own)
    (hl : Disjoint live (Set.Ico buffer (buffer + cap))) :
    Prog.Meets (Owns e.trivialDestructor s₀ S₀ m own live) (deallocateBuffer buffer cap)
      (fun _ => Owns e.trivialDestructor s₀ S₀ m (own \ Set.Ico buffer (buffer + cap)) live) E := by
  unfold deallocateBuffer
  refine Prog.Meets.ite (fun _ => (deallocate_meets hin hl).no_throw) (fun h => ?_)
  rw [hnull (not_not.mp h), Nat.add_zero, Set.Ico_self, Set.sdiff_empty]
  exact Prog.meets_pure (fun _ => id)

/-- **A devector is destroyed** with its buffer. -/
theorem destroyDevector_meets :
    Prog.Meets (Keeps e s₀ S₀ m) (destroyDevector e)
      (fun _ => Owns e.trivialDestructor s₀ S₀ m ∅ ∅) E := by
  refine fun s hs => ?_
  have hend := hs.sound.rawEnd_eq
  have helems : m.elements = Set.Ico m.rawBegin (m.rawBegin + m.size) := by
    rw [← hend]
    rfl
  have hrun : Prog.Meets (Owns e.trivialDestructor s₀ S₀ m m.slots m.elements) (destroyDevector e)
      (fun _ => Owns e.trivialDestructor s₀ S₀ m ∅ ∅) E := by
    unfold destroyDevector destroyElements
    refine meets_object ?_
    rw [hend, Nat.add_sub_cancel_left, helems]
    refine Prog.Meets.bind (destroyN_meets subset_rfl).no_throw (fun _ => ?_)
    rw [Set.sdiff_self]
    exact (deallocateBuffer_owns hs.sound.null_iff.mp subset_rfl (Set.empty_disjoint _)).post
      (fun _ s h => h.congr Set.sdiff_self rfl)
  exact hrun s hs.owns

/-! ## One element -/

theorem calculateNewCapacity_owns (hn : n ≠ 0) :
    Prog.Meets (Owns e.trivialDestructor s₀ S₀ m own live)
      (calculateNewCapacity T m (m.capacity + n))
      (fun cap s => (m.capacity + n ≤ cap ∧ cap ≤ T.storedMax)
        ∧ Owns e.trivialDestructor s₀ S₀ m own live s)
      (Owns e.trivialDestructor s₀ S₀ m own live) := by
  unfold calculateNewCapacity
  dsimp only
  rw [Nat.add_sub_cancel_left]
  refine Prog.Meets.ite (fun _ => Prog.meets_throw (fun _ => id)) (fun hle => ?_)
  have hmax : min T.maxSize T.storedMax < 2 ^ T.width :=
    (Nat.min_le_left _ _).trans_lt T.maxSize_lt
  have hfit : m.capacity + n ≤ min T.maxSize T.storedMax := by omega
  exact Prog.meets_pure (fun s hs => ⟨⟨T.growthFactor.le_grow hfit hmax,
    (T.growthFactor.grow_le hfit hmax).trans (Nat.min_le_right _ _)⟩, hs⟩)

theorem allocateBuffer_owns (hn : n ≠ 0) (hfit : n ≤ T.storedMax) :
    Prog.Meets (Owns e.trivialDestructor s₀ S₀ m own live) (allocateBuffer e T n)
      (fun p s => (p ≠ 0 ∧ Disjoint own (Set.Ico p (p + n)))
        ∧ Owns e.trivialDestructor s₀ S₀ m (own ∪ Set.Ico p (p + n)) live s)
      (Owns e.trivialDestructor s₀ S₀ m own live) := by
  unfold allocateBuffer
  rw [if_pos hn, if_neg (by omega)]
  exact allocate_meets

/-- **A full devector takes one element more at its end**, or is kept with as many as it
had, or with none. -/
theorem insertRangeSlowPath_keeps (hm : m.Sound) (hfull : m.backIdx = m.capacity)
    (hsrc : src.Readable m.elements) :
    Prog.Meets (Owns e.trivialDestructor s₀ S₀ m m.slots m.elements)
      (insertRangeSlowPath e T m.rawEnd [src]) (fun _ s => ∃ m, Keeps e s₀ S₀ m s)
      (fun s => ∃ m, Keeps e s₀ S₀ m s) := by
  have hfront := hm.front_le
  have hback := hm.back_le
  have hend := hm.rawEnd_eq
  have hsize : m.size = m.backIdx - m.frontIdx := rfl
  have hbegin : m.rawBegin = m.buffer + m.frontIdx := rfl
  have helems : m.elements = Set.Ico m.rawBegin (m.rawBegin + m.size) := by
    rw [← hend]
    rfl
  have hread : ∀ src' ∈ [src], src'.Readable (Set.Ico m.rawBegin (m.rawBegin + m.size)) := by
    intro src' hmem
    rw [List.mem_singleton.mp hmem, ← helems]
    exact hsrc
  have hkeep : ∀ {s : State Impl α}, Owns e.trivialDestructor s₀ S₀ m m.slots m.elements s →
      ∃ m, Keeps e s₀ S₀ m s := fun hs => ⟨m, hm, hs⟩
  unfold insertRangeSlowPath
  refine meets_object ?_
  dsimp only
  refine (Prog.Meets.bind (R := fun _ s => ∃ m, Keeps e s₀ S₀ m s)
    (Prog.Meets.ite (fun hfits => ?_) (fun hnot => ?_))
    (fun _ => Prog.Meets.bind (Prog.meets_gets (fun _ => id)) (fun _ => Prog.meets_pure
      (fun _ => id))))
  · have hfree : 1 ≤ m.frontIdx + (m.capacity - m.backIdx) := hfits.1
    have hone : [src].length = 1 := List.length_singleton
    obtain ⟨nf, hnf⟩ : ∃ nf, nf = (m.capacity - (m.size + [src].length)) / 2 := ⟨_, rfl⟩
    rw [← hnf, newRawBeg_eq, hend, helems]
    refine Prog.Meets.bind setObject_owns (fun _ => Prog.Meets.bind
      (R := fun _ => Owns e.trivialDestructor s₀ S₀ { m with frontIdx := 0, backIdx := 0 } m.slots
        (Set.Ico (m.buffer + nf) (m.buffer + nf + (m.size + [src].length))))
      (fun s hs => (expandBackwardForward_unwinds ?_ hread le_rfl hs
        (fun h => absurd h.2.2.1 (by omega))).imp (fun _ _ => id) (fun s hs => ?_))
      (fun _ => setObject_owns.post (fun _ s hs => ?_)))
    · exact Set.Ico_subset_Ico (le_min (Nat.le_add_right _ _) (Nat.le_add_right _ _))
        (max_le (by omega) (by omega))
    · refine ⟨{ m with frontIdx := 0, backIdx := 0 }, ⟨le_rfl, Nat.zero_le _, hm.null_iff⟩,
        hs.congr rfl ?_⟩
      exact (Set.Ico_self _).symm
    · refine ⟨{ m with frontIdx := nf, backIdx := nf + (m.size + [src].length) },
        ⟨Nat.le_add_right _ _, ?_, hm.null_iff⟩, hs.congr rfl ?_⟩
      · show nf + (m.size + [src].length) ≤ m.capacity
        omega
      · exact congrArg (Set.Ico (m.buffer + nf)) (Nat.add_assoc _ _ _)
  · have hone : [src].length = 1 := List.length_singleton
    refine Prog.Meets.bind ((calculateNewCapacity_owns (by omega)).except
      (fun _ => hkeep)) (fun cap => Prog.Meets.of_pre (fun hcap => ?_))
    refine Prog.Meets.bind ((allocateBuffer_owns (by omega) hcap.2).except
      (fun _ => hkeep)) (fun b => Prog.Meets.of_pre (fun hb => ?_))
    obtain ⟨nf, hnf⟩ : ∃ nf, nf = (cap - m.size - [src].length) / 2 := ⟨_, rfl⟩
    rw [← hnf, hend, helems]
    have hin : Set.Ico (b + nf) (b + nf + (m.size + [src].length)) ⊆ Set.Ico b (b + cap) :=
      Set.Ico_subset_Ico (by omega) (by omega)
    have hold : Set.Ico m.rawBegin (m.rawBegin + m.size) ⊆ m.slots := helems ▸ hm.elements_sub
    have hnew : (m.slots ∪ Set.Ico b (b + cap)) \ Set.Ico b (b + cap) = m.slots := by
      rw [Set.union_sdiff_right]
      exact hb.2.sdiff_eq_left
    refine Prog.Meets.bind (Prog.Meets.onThrow (uninitializedMoveAndInsertAlloc_unwinds le_rfl
      (hin.trans Set.subset_union_right) (hb.2.mono hold hin) hread)
      ((deallocateBuffer_owns (fun h => absurd h hb.1) Set.subset_union_right
        (hb.2.mono_left hold)).post (fun _ s hs => ⟨m, hm, hs.congr hnew helems.symm⟩)))
      (fun _ => ?_)
    unfold destroyElements
    rw [Nat.add_sub_cancel_left]
    refine Prog.Meets.bind (destroyN_meets Set.subset_union_left).no_throw (fun _ => ?_)
    rw [Set.union_sdiff_left, (hb.2.mono hold hin).symm.sdiff_eq_left]
    refine Prog.Meets.bind (deallocateBuffer_owns hm.null_iff.mp Set.subset_union_left
      (hb.2.mono_right hin).symm) (fun _ => setObject_owns.post (fun _ s hs => ?_))
    refine ⟨{ m with
      capacity := cap
      buffer := b
      backIdx := nf + m.size + [src].length
      frontIdx := nf }, ⟨?_, ?_, ?_⟩, hs.congr ?_ ?_⟩
    · show nf ≤ nf + m.size + [src].length
      omega
    · show nf + m.size + [src].length ≤ cap
      omega
    · exact iff_of_false hb.1 (show cap ≠ 0 by omega)
    · show (m.slots ∪ Set.Ico b (b + cap)) \ m.slots = Set.Ico b (b + cap)
      rw [Set.union_sdiff_left]
      exact hb.2.symm.sdiff_eq_left
    · show Set.Ico (b + nf) (b + nf + (m.size + [src].length))
        = Set.Ico (b + nf) (b + (nf + m.size + [src].length))
      congr 1
      omega

/-- **`emplace_back` keeps the devector**, whether it throws or not. -/
theorem emplaceBack_keeps (hsrc : ∀ live, src.Readable live) :
    Prog.Meets (fun s => ∃ m, Keeps e s₀ S₀ m s) (emplaceBack e T src)
      (fun _ s => ∃ m, Keeps e s₀ S₀ m s) (fun s => ∃ m, Keeps e s₀ S₀ m s) := by
  refine Prog.Meets.of_exists (fun m s hs => ?_)
  have hm := hs.sound
  have hback := hm.back_le
  have hfront := hm.front_le
  have hrun : Prog.Meets (Owns e.trivialDestructor s₀ S₀ m m.slots m.elements)
      (emplaceBack e T src) (fun _ s => ∃ m, Keeps e s₀ S₀ m s)
      (fun s => ∃ m, Keeps e s₀ S₀ m s) := by
    unfold emplaceBack
    refine meets_object (Prog.Meets.ite (fun hfree => ?_) (fun hfull => ?_))
    · have hfree' : m.capacity - m.backIdx ≠ 0 := hfree
      have hin : m.rawEnd ∈ m.slots := ⟨Nat.le_add_right _ _, Nat.add_lt_add_left (by omega) _⟩
      have hout : m.rawEnd ∉ m.elements := fun h => absurd h.2 (lt_irrefl _)
      refine Prog.Meets.bind ((construct_meets hin (Or.inr hout) (hsrc _)).except
          (fun s hs => ⟨m, hm, hs.congr rfl (Set.sdiff_singleton_eq_self hout)⟩))
        (fun _ => setObject_owns.post (fun _ s hs => ⟨{ m with backIdx := m.backIdx + 1 },
          ⟨?_, ?_, hm.null_iff⟩, hs.congr rfl ?_⟩))
      · show m.frontIdx ≤ m.backIdx + 1
        omega
      · show m.backIdx + 1 ≤ m.capacity
        omega
      · show insert (m.buffer + m.backIdx) (Set.Ico (m.buffer + m.frontIdx) (m.buffer + m.backIdx))
          = Set.Ico (m.buffer + m.frontIdx) (m.buffer + (m.backIdx + 1))
        ext q
        simp only [Set.mem_insert_iff, Set.mem_Ico]
        omega
    · have hfull' : ¬ m.capacity - m.backIdx ≠ 0 := hfull
      exact Prog.Meets.bind (insertRangeSlowPath_keeps hm (by omega) (hsrc _))
        (fun _ => Prog.meets_pure (fun _ => id))
  exact hrun s hs.owns

/-! ## The constructor -/

/-- **The loop keeps the devector**, however far it comes. -/
theorem emplaceRange_keeps (hext : ∀ src, some src ∈ input → src.External) :
    Prog.Meets (fun s => ∃ m, Keeps e s₀ S₀ m s) (emplaceRange e T input)
      (fun _ s => ∃ m, Keeps e s₀ S₀ m s) (fun s => ∃ m, Keeps e s₀ S₀ m s) := by
  induction input with
  | nil => exact Prog.meets_pure (fun _ => id)
  | cons x input ih =>
    cases x with
    | none => exact Prog.meets_throw (fun _ => id)
    | some src =>
      exact Prog.Meets.bind
        (emplaceBack_keeps (fun _ => (hext src List.mem_cons_self).readable))
        (fun _ => ih (fun src' hmem => hext src' (List.mem_cons_of_mem _ hmem)))

/-- The devector before the loop, which has no buffer. -/
def Impl.null : Impl := ⟨0, 0, 0, 0⟩

theorem keeps_null (h : s.object = Impl.null) : Keeps e s ∅ Impl.null s := by
  have hslots : Impl.null.slots = ∅ := Set.Ico_self _
  have helems : Impl.null.elements = ∅ := Set.Ico_self _
  refine ⟨⟨le_rfl, le_rfl, iff_of_true rfl rfl⟩, ?_⟩
  rw [hslots, helems]
  exact ⟨h, Heap.Exchange.refl _ _, subset_rfl, fun _ hp => hp.elim, fun _ hp => hp.elim,
    fun _ _ hp => hp.elim, fun _ _ => rfl⟩

section Constructor

variable (hs : s.object = Impl.null) (hext : ∀ src, some src ∈ input → src.External)

include hs hext

/-- **The handler gives everything back**, and the constructor returns. -/
theorem inputConstructor_returns (h : emplaceRange e T input s = .threw t) :
    ∃ u, inputConstructor e T input s = .done () u ∧ u.object = t.object
      ∧ Owns e.trivialDestructor s ∅ t.object ∅ ∅ u := by
  have hloop := emplaceRange_keeps (e := e) (T := T) hext s ⟨_, keeps_null hs⟩
  rw [h] at hloop
  obtain ⟨m, hm⟩ := hloop
  have hobj := hm.owns.object_eq
  have hrun := destroyDevector_meets (E := fun _ => False) t hm
  have heq : inputConstructor e T input s = destroyDevector e t := by
    unfold inputConstructor Prog.catchAll
    rw [h]
  rw [heq, hobj]
  cases hd : destroyDevector e t with
  | done _ u =>
    rw [hd] at hrun
    exact ⟨u, rfl, hrun.object_eq, hrun⟩
  | threw u =>
    rw [hd] at hrun
    exact hrun.elim
  | undefined =>
    rw [hd] at hrun
    exact hrun.elim

/-- **The devector that was made has no buffer any more**: it cannot be destroyed. -/
theorem inputConstructor_dangles (h : emplaceRange e T input s = .threw t)
    (hcap : t.object.capacity ≠ 0) :
    ∃ u, inputConstructor e T input s = .done () u ∧ destroyDevector e u = .undefined := by
  have hloop := emplaceRange_keeps (e := e) (T := T) hext s ⟨_, keeps_null hs⟩
  rw [h] at hloop
  obtain ⟨m, hm⟩ := hloop
  have hobj := hm.owns.object_eq
  obtain ⟨u, hu, hm', hgone⟩ := inputConstructor_returns hs hext h
  rw [hobj] at hcap hm' hgone
  refine ⟨u, hu, ?_⟩
  have hnone : ∀ p ∈ m.slots, u.heap p = none := by
    intro p hp
    rw [hgone.exchange.frame p (Set.notMem_empty p) (Set.notMem_empty p)]
    exact hm.owns.exchange.fresh p hp (Set.notMem_empty p)
  have hbuffer : m.buffer ≠ 0 := fun hzero => hcap (hm.sound.null_iff.mp hzero)
  have hend := hm.sound.rawEnd_eq
  have hsub := hm.sound.elements_sub
  unfold destroyDevector destroyElements
  show (do
    destroyN e u.object.rawBegin (u.object.rawEnd - u.object.rawBegin)
    deallocateBuffer u.object.buffer u.object.capacity : Prog (State Impl α) Unit) u = _
  rw [hm', hend, Nat.add_sub_cancel_left]
  cases hsize : m.size with
  | zero =>
    have hfree : (deallocate m.buffer m.capacity : Prog (State Impl α) Unit) u = .undefined := by
      refine if_neg (fun hall => ?_)
      have hfirst := hall 0 (Nat.pos_of_ne_zero hcap)
      rw [hnone _ ⟨by omega, by omega⟩] at hfirst
      exact Bool.false_ne_true hfirst
    unfold deallocateBuffer
    rw [if_pos hbuffer]
    exact hfree
  | succ n =>
    have hmem : m.rawBegin ∈ m.slots := hsub ⟨le_rfl, by rw [hend, hsize]; omega⟩
    refine Prog.bind_of_undefined (Prog.bind_of_undefined ?_)
    unfold destroy
    rw [hnone _ hmem]

/-- What the constructor owes where something throws: it throws as well, and everything is
given back. -/
def Unwinds (e : Env α) (T : Traits) (input : InputRange α) (s : State Impl α) : Prop :=
  ∀ t, emplaceRange e T input s = .threw t →
    ∃ u, inputConstructor e T input s = .threw u
      ∧ Owns e.trivialDestructor s ∅ t.object ∅ ∅ u

/-- **Nothing that is thrown gets out of the constructor.** -/
theorem inputConstructor_unwinds_iff :
    Unwinds e T input s ↔ ∀ t, emplaceRange e T input s ≠ .threw t := by
  refine ⟨fun h t ht => ?_, fun h t ht => absurd ht (h t)⟩
  obtain ⟨u, hu, -⟩ := h t ht
  obtain ⟨v, hv, -⟩ := inputConstructor_returns hs hext ht
  cases hu.symm.trans hv

end Constructor

/-- A devector that is made. -/
def fresh : State Impl ℕ := State.start (fun _ => none) Impl.null

theorem inputConstructor_unwinds_iff_none :
    Unwinds keeping defaultTraits [none] fresh
      ↔ ∀ t, emplaceRange keeping defaultTraits [none] fresh ≠ .threw t :=
  inputConstructor_unwinds_iff rfl
    (fun src h => absurd (List.mem_singleton.mp h) (Option.some_ne_none src))

/-- Reading the first element throws. -/
theorem inputConstructor_swallows : ¬ Unwinds keeping defaultTraits [none] fresh := by
  intro h
  obtain ⟨u, hu, -⟩ := h fresh rfl
  obtain ⟨v, hv, -⟩ := inputConstructor_returns (e := keeping) (T := defaultTraits)
    (s := fresh) (t := fresh) rfl
    (fun src h => absurd (List.mem_singleton.mp h) (Option.some_ne_none src)) rfl
  cases hu.symm.trans hv

end Devector
