import BoostContainer.Deque.DequeCopies

/-!
# Insertion in the middle of a deque

What an insertion in the middle leaves when it throws: a deque, if the
guarantee is kept. The elements of the shorter side are moved, to new slots as
far as these go, and then onto one another; then the new elements are assigned,
and constructed where there are more of them than were moved.

Moving to new slots has the cleanup that destroys its source. Two more of the
cleanups here are wrong: that of an insertion at the front which is longer than
the part that is moved frees nodes in which elements were constructed, and that
of an insertion at the back which is longer destroys slots that are raw.
-/

open Slots

namespace DequeImpl

variable {α : Type*} {o : Options} {rot : Rotation} {e : Env α} {t : Bool}
  {s₀ s s₁ s' : State Members α} {S₀ own live : Set ℕ} {k : Members} {map : List (Option ℕ)}
  {a b dest first j m n x : ℕ} {l : List (Source α)} {proxy : InsertProxy α}

/-! ## Moving to new slots -/

theorem privSegmentedUninitializedMoveAllocN_via {single : Bool}
    (h : Transfer o map map (addrIn o map) 0 first dest n own live)
      (hsingle : single = true → n = 1)
    (hkept : single = true ∨ SourceKept o e first n j) :
    Prog.Meets
      (fun s => OwnsVia e.trivialDestructor s₀ S₀ k (addrIn o map) own live s ∧ s.ops = j)
      (privSegmentedUninitializedMoveAllocN o e single map first n dest)
      (fun _ s => (OwnsVia e.trivialDestructor s₀ S₀ k (addrIn o map) own
        (live ∪ Set.Ico dest (dest + n)) s ∧ s.ops = j + n) ∧ ¬ e.Blows j n)
      (fun s => OwnsVia e.trivialDestructor s₀ S₀ k (addrIn o map) own live s ∧ e.Blows j n) := by
  refine Prog.Meets.ite (fun hs => ?_) (fun hs => ?_)
  · have hone := hsingle hs
    subst hone
    have hmem : dest ∈ Set.Ico dest (dest + 1) := ⟨le_rfl, by omega⟩
    have hsrc : first ∈ live := by
      have h0 := h.src_live ⟨le_rfl, by omega⟩
      rwa [Nat.zero_add] at h0
    have hread : (Source.slot (addrIn o map first) : Source α).Readable (addrIn o map '' live) :=
      Set.mem_image_of_mem _ hsrc
    have hins : insert dest live = live ∪ Set.Ico dest (dest + 1) := by
      ext y
      simp only [Set.mem_insert_iff, Set.mem_union, Set.mem_Ico]
      grind
    rw [elementIn_bind h.dest_written ⟨le_rfl, Nat.div_le_div_right (by omega)⟩,
      elementIn_bind h.src_written ⟨le_rfl, Nat.div_le_div_right (by omega)⟩, ← hins]
    exact takes_construct.meets (construct_via (h.dest_owned hmem)
      (Set.disjoint_right.mp h.dest_vacant hmem) hread)
  · exact h.meets readsRange_slots (hkept.resolve_left hs)

theorem privSegmentedUninitializedMoveAllocN_destroys {single : Bool}
    (h : Transfer o map map (addrIn o map) 0 first dest n own live)
    (hkept : ¬ (single = true ∨ SourceKept o e first n j))
    (hown : OwnsVia e.trivialDestructor s₀ S₀ k (addrIn o map) own live s) (hj : s.ops = j) :
    (privSegmentedUninitializedMoveAllocN o e single map first n dest s).Permits
      (fun _ _ => False)
      (fun u => u.object = k ∧ shape u.heap (addrIn o map first) = some false) := by
  rw [not_or] at hkept
  have hbad := h.destroys_source readsRange_slots hkept.2 hown hj
  rw [Nat.zero_add] at hbad
  rw [privSegmentedUninitializedMoveAllocN, if_neg hkept.1]
  exact hbad

/-! ## A deque whose ends moved -/

/-- A deque is what it owns and where its elements are. -/
theorem holds_of_owns (h : OwnsVia t s₀ S₀ k (addrIn o k.map) own live s') (ho : own = k.slots o)
    (hl : live = k.elements) (hv : k.Valid o) : Holds o t s₀ S₀ s' := by
  have hk := h.owns.object_eq
  subst hk
  exact ⟨hv, h.congr ho hl⟩

/-- A deque that starts elsewhere. -/
def Members.startAt (k : Members) (x : ℕ) : Members := { k with startOff := x }

/-- A deque that finishes elsewhere. -/
def Members.finishAt (k : Members) (x : ℕ) : Members := { k with finishOff := x }

theorem Members.Valid.lt_stored (hv : k.Valid o) (hne : k.map ≠ []) (hx : x ≤ k.finishOff) :
    x < 2 ^ o.storedBits :=
  lt_of_le_of_lt hx (lt_of_lt_of_le (hv.finish_lt hne) hv.fits)

theorem Members.decStart_eq (hse : o.singleEnded = false) (hlt : k.startOff < 2 ^ o.storedBits) :
    k.decStart o n = k.startAt (k.startOff - n) := by
  rw [Members.decStart, if_neg (by rw [hse]; exact Bool.false_ne_true),
    Members.stored_eq (lt_of_le_of_lt (Nat.sub_le _ _) hlt)]
  rfl

theorem Members.protIncFinish_eq (hlt : k.finishOff + n < 2 ^ o.storedBits) :
    k.protIncFinish o n = k.finishAt (k.finishOff + n) := by
  rw [Members.protIncFinish, Members.stored_eq hlt]
  rfl

theorem HasRoom.valid_startAt (hr : HasRoom o t s s₁ a b) (hse : o.singleEnded = false)
    (ha : a ≤ x) (hx : x ≤ s₁.object.finishOff) : (s₁.object.startAt x).Valid o :=
  ⟨hx, hr.valid.finish_lt, fun h => absurd h hr.null, hr.valid.length_ge, hr.valid.fits,
    fun h => absurd (hse.symm.trans h) Bool.false_ne_true,
    hr.written.mono (Members.nodes_subset_span (k := s₁.object.startAt x) hr.null ha hr.finish_le)⟩

theorem HasRoom.valid_finishAt (hr : HasRoom o t s s₁ a b) (hx : s₁.object.startOff ≤ x)
    (hb : x ≤ b) : (s₁.object.finishAt x).Valid o :=
  ⟨hx, fun _ => lt_of_le_of_lt hb hr.lt_length, fun h => absurd h hr.null, hr.valid.length_ge,
    hr.valid.fits, hr.valid.single,
    hr.written.mono (Members.nodes_subset_span (k := s₁.object.finishAt x) hr.null hr.le_start hb)⟩

/-- The nodes before those of a deque that starts at `x`. -/
theorem slots_startAt (k : Members) (hne : k.map ≠ []) (ha : a ≤ x) (hx : x ≤ k.finishOff) :
    (if o.reservable then slotsOf o.blockSize (k.span o a k.finishOff)
      else slotsOf o.blockSize (k.span o a k.finishOff)
        \ slotsOf o.blockSize (Set.Ico (a / o.blockSize) (x / o.blockSize)))
      = (k.startAt x).slots o := by
  have h₁ : a / o.blockSize ≤ x / o.blockSize := Nat.div_le_div_right ha
  have h₂ : x / o.blockSize ≤ k.finishOff / o.blockSize := Nat.div_le_div_right hx
  rw [Members.slots, Members.Valid.nodes_eq (k := k.startAt x) hne, Members.span, Members.span]
  split
  · rfl
  · rw [← slotsOf_sdiff]
    congr 1
    ext i
    show i ∈ Set.Icc _ _ \ Set.Ico _ _ ↔ i ∈ Set.Icc (x / o.blockSize) (k.finishOff / o.blockSize)
    simp only [Set.mem_sdiff, Set.mem_Icc, Set.mem_Ico]
    omega

/-- The nodes after those of a deque. -/
theorem slots_of_back (k : Members) (hne : k.map ≠ []) (hle : k.startOff ≤ k.finishOff)
    (hb : k.finishOff ≤ b) :
    (if o.reservable then slotsOf o.blockSize (k.span o k.startOff b)
      else slotsOf o.blockSize (k.span o k.startOff b) \ slotsOf o.blockSize
        (Set.Ico (k.finishOff / o.blockSize + 1) (b / o.blockSize + 1))) = k.slots o := by
  have h₁ : k.startOff / o.blockSize ≤ k.finishOff / o.blockSize := Nat.div_le_div_right hle
  have h₂ : k.finishOff / o.blockSize ≤ b / o.blockSize := Nat.div_le_div_right hb
  rw [Members.slots, Members.Valid.nodes_eq hne, Members.span, Members.span]
  split
  · rfl
  · rw [← slotsOf_sdiff]
    congr 1
    ext i
    simp only [Set.mem_sdiff, Set.mem_Icc, Set.mem_Ico]
    omega

/-- A deque that has all the room starts where the room does. -/
theorem slots_startAt_self (k : Members) (hne : k.map ≠ []) :
    slotsOf o.blockSize (k.span o a k.finishOff) = (k.startAt a).slots o := by
  rw [Members.slots, Members.Valid.nodes_eq (k := k.startAt a) hne]
  rfl

theorem slots_finishAt_self (k : Members) (hne : k.map ≠ []) :
    slotsOf o.blockSize (k.span o k.startOff b) = (k.finishAt b).slots o := by
  rw [Members.slots, Members.Valid.nodes_eq (k := k.finishAt b) hne]
  rfl

/-- Slots that are not alive stay so when nodes are freed, and the members of the
deque are as they were. -/
theorem protDeallocateNodesIfNotReservable_permits (s : State Members α) :
    (protDeallocateNodesIfNotReservable o a b s).Permits
      (fun _ u => u.object = s.object
        ∧ ∀ q, shape s.heap q ≠ some true → shape u.heap q ≠ some true) (fun _ => True) := by
  have hloop : ∀ (n a : ℕ) (map : List (Option ℕ)) (s : State Members α),
      (protDeallocateNodesLoop o map a n s).Permits
        (fun _ u => u.object = s.object
          ∧ ∀ q, shape s.heap q ≠ some true → shape u.heap q ≠ some true) (fun _ => True) := by
    intro n
    induction n with
    | zero => exact fun _ _ _ => ⟨rfl, fun _ hq => hq⟩
    | succ n ih =>
      intro a map s
      rw [protDeallocateNodesLoop, nodeIn]
      split
      · rename_i p _
        by_cases hall : ∀ i < o.blockSize, (s.heap (p + i)).isSome
        · have hrun : protDeallocateNode o p s
              = .done () { s with heap := setRange s.heap p o.blockSize none } := if_pos hall
          rw [Prog.pure_bind, Prog.bind_of_done hrun]
          refine (ih (a + 1) map _).imp (fun _ u hu => ⟨hu.1, fun q hq => hu.2 q ?_⟩) (fun _ => id)
          by_cases hqp : q ∈ Set.Ico p (p + o.blockSize)
          · rw [shape_setRange hqp]
            exact fun h => Option.some_ne_none _ h.symm
          · rw [shape_setRange_of_notMem hqp]
            exact hq
        · have hrun : protDeallocateNode o p s = .undefined := if_neg hall
          rw [Prog.pure_bind, Prog.bind_of_undefined hrun]
          trivial
      · trivial
  rw [protDeallocateNodesIfNotReservable]
  split
  · exact ⟨rfl, fun _ hq => hq⟩
  · exact hloop _ _ _ s

/-! ## Cleanups -/

theorem InsertProxy.length_assigned (proxy : InsertProxy α) :
    proxy.assigned.length = proxy.size := by
  cases proxy with
  | range vs => rfl
  | value v => rfl
  | emplace v => rfl

theorem InsertProxy.readable_assigned (proxy : InsertProxy α) :
    ∀ src ∈ proxy.assigned, src.Readable live := by
  cases proxy with
  | range vs => exact readable_values vs
  | value v => exact readable_values [v]
  | emplace v =>
    intro src hsrc
    rw [List.mem_singleton.mp hsrc]
    trivial

/-- A range is moved where there is room. -/
theorem HasRoom.transfer (hr : HasRoom o t s s₁ a b) (hfirst : a ≤ first) (hlast : first + n ≤ b)
    (hdest : a ≤ dest) (hend : dest + n ≤ b) (hl : Set.Ico first (first + n) ⊆ live)
    (hv : Disjoint live (Set.Ico dest (dest + n))) :
    Transfer o s₁.object.map s₁.object.map (addrIn o s₁.object.map) 0 first dest n
      (slotsOf o.blockSize (s₁.object.span o a b)) live := by
  refine ⟨hr.written.mono (hr.Icc_subset_span hfirst hlast), fun x _ => by rw [Nat.zero_add], ?_,
    hr.written.mono (hr.Icc_subset_span hdest hend), fun _ _ => rfl,
    Ico_subset_slotsOf (hr.Icc_subset_span hdest hend), hv⟩
  rwa [Nat.zero_add, Nat.zero_add]

/-- **The nodes before the start are freed.** -/
theorem HasRoom.freeFront (hr : HasRoom o t s s₁ a s₁.object.finishOff)
    (hse : o.singleEnded = false) (ha : a ≤ x) (hx : x ≤ s₁.object.finishOff)
    (hm : o.reservable = true ∨ m = x / o.blockSize) :
    Prog.Meets
      (OwnsVia t s (ownSlots o s) (s₁.object.startAt x) (addrIn o s₁.object.map)
        (slotsOf o.blockSize (s₁.object.span o a s₁.object.finishOff))
        (Set.Ico x s₁.object.finishOff))
      (protDeallocateNodesIfNotReservable o (a / o.blockSize) m)
      (fun _ => Holds o t s (ownSlots o s)) (fun _ => False) := by
  have hle : x / o.blockSize ≤ s₁.object.finishOff / o.blockSize := Nat.div_le_div_right hx
  have hin : o.reservable = false → Set.Ico (a / o.blockSize) m
      ⊆ s₁.object.span o a s₁.object.finishOff := by
    intro hf i hi
    have hlt := hi.2
    rw [hm.resolve_left (by rw [hf]; exact Bool.false_ne_true)] at hlt
    exact hr.Icc_subset_span le_rfl le_rfl ⟨hi.1, by omega⟩
  refine (protDeallocateNodesIfNotReservable_via (k := s₁.object.startAt x)
    (fun hf => hr.written.mono (hin hf)) (fun hf => slotsOf_mono (hin hf)) (fun hf => ?_)).post
    (fun _ s' hs' => holds_of_owns (k := s₁.object.startAt x) hs' ?_ rfl
      (hr.valid_startAt hse ha hx))
  · refine Set.disjoint_left.mpr (fun y hy hy' => ?_)
    have h₁ : x / o.blockSize ≤ y / o.blockSize := Nat.div_le_div_right hy.1
    have h₂ : y / o.blockSize < m := hy'.2
    have h₃ := hm.resolve_left (by rw [hf]; exact Bool.false_ne_true)
    omega
  · rw [← slots_startAt s₁.object hr.null ha hx]
    split
    · rfl
    · rename_i hres
      rw [hm.resolve_left hres]

/-- **The nodes after the finish are freed.** -/
theorem HasRoom.freeBack (hr : HasRoom o t s s₁ s₁.object.startOff b) :
    Prog.Meets
      (OwnsVia t s (ownSlots o s) s₁.object (addrIn o s₁.object.map)
        (slotsOf o.blockSize (s₁.object.span o s₁.object.startOff b)) s₁.object.elements)
      (protDeallocateNodesIfNotReservable o (s₁.object.finishOff / o.blockSize + 1)
        (b / o.blockSize + 1))
      (fun _ => Holds o t s (ownSlots o s)) (fun _ => False) := by
  have hle : s₁.object.startOff / o.blockSize ≤ s₁.object.finishOff / o.blockSize :=
    Nat.div_le_div_right hr.valid.start_le
  have hin : Set.Ico (s₁.object.finishOff / o.blockSize + 1) (b / o.blockSize + 1)
      ⊆ s₁.object.span o s₁.object.startOff b :=
    fun i hi => hr.Icc_subset_span le_rfl le_rfl
      ⟨by have := hi.1; omega, by have := hi.2; omega⟩
  refine (protDeallocateNodesIfNotReservable_via (fun _ => hr.written.mono hin)
    (fun _ => slotsOf_mono hin) (fun _ => ?_)).post (fun _ s' hs' => holds_of_owns hs'
      (slots_of_back s₁.object hr.null hr.valid.start_le hr.finish_le) rfl hr.valid)
  refine Set.disjoint_left.mpr (fun y hy hy' => ?_)
  have h₁ : y / o.blockSize ≤ s₁.object.finishOff / o.blockSize :=
    Nat.div_le_div_right hy.2.le
  have h₂ : s₁.object.finishOff / o.blockSize + 1 ≤ y / o.blockSize := hy'.1
  omega

/-- A deque that has all its elements holds them. -/
theorem Holds.alive (h : Holds o t s₀ S₀ s') (hx : x ∈ s'.object.elements) :
    shape s'.heap (addrIn o s'.object.map x) = some true :=
  h.owns.owns.full _ (Set.mem_image_of_mem _ hx)

/-- Slots that hold nothing hold nothing after more was destroyed. -/
theorem destroyN_permits {p : ℕ} (s : State Members α) :
    (destroyN e p n s).Permits
      (fun _ u => ∀ q, shape s.heap q ≠ some true → shape u.heap q ≠ some true)
      (fun _ => False) := by
  induction n generalizing p s with
  | zero => exact fun _ hq => hq
  | succ n ih =>
    rw [destroyN]
    refine Prog.bind_permits (Q := fun _ u => ∀ q, shape s.heap q ≠ some true →
      shape u.heap q ≠ some true) ?_ (fun _ u hu => (ih u).imp
        (fun _ v hv q hq => hv q (hu q hq)) (fun _ => id))
    rw [destroy]
    split
    · split
      · trivial
      · intro q hq
        show shape (Function.update s.heap p _) q ≠ some true
        rw [shape_update]
        by_cases hqp : q = p
        · rw [hqp, Function.update_self]
          exact fun h => Bool.false_ne_true (Option.some.inj h)
        · rwa [Function.update_of_ne hqp]
    · trivial

/-- An element that is not there is not destroyed. -/
theorem destroyN_of_dead {p : ℕ} (ht : e.trivialDestructor = false)
    (hp : shape s.heap p ≠ some true) (hn : 0 < n) : destroyN e p n s = .undefined := by
  obtain ⟨n, rfl⟩ : ∃ m, n = m + 1 := ⟨n - 1, by omega⟩
  refine Prog.bind_of_undefined ?_
  rw [destroy]
  cases hs : s.heap p with
  | none => rfl
  | some slot =>
    have hnone : slot.element = none := by
      cases helem : slot.element with
      | none => rfl
      | some v =>
        rw [shape, hs, Option.map_some, helem] at hp
        exact absurd rfl hp
    simp only [hnone, ht]
    rfl

theorem protDestroySegment_permits {p i j : ℕ} (s : State Members α) :
    (protDestroySegment e p i j s).Permits
      (fun _ u => ∀ q, shape s.heap q ≠ some true → shape u.heap q ≠ some true)
      (fun _ => False) := by
  rw [protDestroySegment]
  split
  · exact fun _ hq => hq
  · split
    · exact destroyN_permits s
    · trivial

theorem destroyNodes_permits (s : State Members α) :
    (destroyNodes o e map a n s).Permits
      (fun _ u => ∀ q, shape s.heap q ≠ some true → shape u.heap q ≠ some true)
      (fun _ => False) := by
  induction n generalizing a s with
  | zero => exact fun _ hq => hq
  | succ n ih =>
    rw [destroyNodes, nodeIn]
    split
    · rw [Prog.pure_bind]
      exact Prog.bind_permits (protDestroySegment_permits s) (fun _ u hu => (ih u).imp
        (fun _ v hv q hq => hv q (hu q hq)) (fun _ => id))
    · trivial

/-- **A range whose first slot is raw is not destroyed.** -/
theorem protDestroyRange_of_dead (ht : e.trivialDestructor = false)
    (hw : Written map (Set.Icc (first / o.blockSize) ((first + n) / o.blockSize)))
    (hn : 0 < n) (hdead : shape s.heap (addrIn o map first) ≠ some true) :
    (protDestroyRange o e map first (first + n) s).Permits (fun _ _ => False) (fun _ => False) := by
  have hbs := o.blockSize_pos
  have hmod := Nat.mod_lt first hbs
  have hle : first / o.blockSize ≤ (first + n) / o.blockSize := Nat.div_le_div_right (by omega)
  have hmem : first / o.blockSize
      ∈ Set.Icc (first / o.blockSize) ((first + n) / o.blockSize) := ⟨le_rfl, hle⟩
  have hne : ¬ (e.trivialDestructor = true ∨ map = []) := by
    rintro (h | h)
    · exact Bool.false_ne_true (ht.symm.trans h)
    · have := hw.lt_length hmem
      rw [h] at this
      exact absurd this (Nat.not_lt_zero _)
  rw [protDestroyRange, if_neg hne]
  refine Prog.bind_permits ((destroyNodes_permits s).imp (fun _ _ => id) (fun _ => id))
    (fun _ u hu => ?_)
  -- the segment of the first slot has slots, so it starts with one that is raw
  have hsegment : ∀ j, first % o.blockSize < j →
      protDestroySegment e (nodeOf map (first / o.blockSize)) (first % o.blockSize) j u
        = .undefined := by
    intro j hj
    have hrun := destroyN_of_dead (n := j - first % o.blockSize) ht (hu _ hdead) (by omega)
    rw [protDestroySegment, if_neg (by rw [ht]; exact Bool.false_ne_true), if_pos hj.le]
    exact hrun
  split
  · rw [nodeIn_bind hw hmem, Prog.bind_of_undefined (hsegment _ hmod)]
    trivial
  · rename_i heq
    have h₁ := Nat.div_add_mod first o.blockSize
    have h₂ := Nat.div_add_mod (first + n) o.blockSize
    rw [← not_not.mp heq] at h₂
    rw [nodeIn_bind hw hmem, hsegment _ (by omega)]
    trivial

/-! ## The elements before are moved -/

/-- **A deque in the room that was made**: its members and the slots that hold
elements may differ from those it had then. -/
abbrev InRoom (o : Options) (t : Bool) (s s₁ : State Members α) (a b : ℕ) (k : Members)
    (live : Set ℕ) : State Members α → Prop :=
  OwnsVia t s (ownSlots o s) k (addrIn o s₁.object.map)
    (slotsOf o.blockSize (s₁.object.span o a b)) live

theorem HasRoom.inRoom (hr : HasRoom o t s s₁ a b) :
    InRoom o t s s₁ a b s₁.object s₁.object.elements s₁ := hr.owns

/-- Elements reach to the start of the room. -/
theorem HasRoom.holds_startAt (hr : HasRoom o t s s₁ a s₁.object.finishOff)
    (hse : o.singleEnded = false)
    (h : InRoom o t s s₁ a s₁.object.finishOff (s₁.object.startAt a)
      (Set.Ico a s₁.object.finishOff) s') : Holds o t s (ownSlots o s) s' :=
  holds_of_owns (k := s₁.object.startAt a) h (slots_startAt_self _ hr.null) rfl
    (hr.valid_startAt hse le_rfl (hr.le_start.trans hr.valid.start_le))

/-- The start is set back. -/
theorem setStart_via (hse : o.singleEnded = false) (hlt : x < 2 ^ o.storedBits) :
    Prog.Meets (InRoom o t s s₁ a b (k.startAt x) live) (setObject (Members.decStart o n))
      (fun _ => InRoom o t s s₁ a b (k.startAt (x - n)) live) (fun _ => False) := by
  have hset := Members.decStart_eq (k := k.startAt x) (n := n) hse hlt
  show Prog.Meets _ _ (fun _ => InRoom o t s s₁ a b ((k.startAt x).startAt (x - n)) live) _
  rw [show (k.startAt x).startAt (x - n) = (k.startAt x).decStart o n from hset.symm]
  exact setObject_via

/-- `insertMiddleMovingFront`, where no more is inserted than is moved. -/
theorem insertMiddleMovingFront_few {eb : ℕ}
    (hroom : privReserveElementsAtFront o rot e proxy.size s = .done () s₁)
    (hle : proxy.single = true ∨ proxy.size ≤ eb) :
    insertMiddleMovingFront o rot e eb proxy s = (do
      (privSegmentedUninitializedMoveAllocN o e proxy.single s₁.object.map s₁.object.startOff
        proxy.size (s₁.object.startOff - proxy.size)).onThrow
        (protDeallocateNodesIfNotReservable o ((s₁.object.startOff - proxy.size) / o.blockSize)
          (s₁.object.startOff / o.blockSize))
      setObject (Members.decStart o proxy.size)
      let p ← privSegmentedMoveN o e s₁.object.map (s₁.object.startOff + proxy.size)
        (eb - proxy.size) s₁.object.startOff
      privSegmentedProxyCopyNAndUpdate o e proxy.single s₁.object.map p proxy.assigned
      pure p : Prog (State Members α) ℕ) s₁ :=
  (Prog.bind_of_done hroom).trans (congrFun (if_pos hle) s₁)

/-- `insertMiddleMovingFront`, where more is inserted than is moved. -/
theorem insertMiddleMovingFront_many {vs : List α} {eb mid : ℕ}
    (hroom : privReserveElementsAtFront o rot e vs.length s = .done () s₁)
    (hmid : vs.length = mid + eb) (hpos : 0 < mid) :
    insertMiddleMovingFront o rot e eb (.range vs) s = (do
      (do
        privSegmentedProxyUninitializedCopyNAndUpdate o e false s₁.object.map
          (s₁.object.startOff - mid) ((vs.map Source.value).take mid)
        setObject (Members.decStart o mid)
        privSegmentedUninitializedMoveAllocN o e false s₁.object.map s₁.object.startOff eb
          (s₁.object.startOff - vs.length)).onThrow
        (protDeallocateNodesIfNotReservable o ((s₁.object.startOff - vs.length) / o.blockSize)
          (s₁.object.startOff / o.blockSize))
      setObject (Members.decStart o eb)
      privSegmentedProxyCopyNAndUpdate o e false s₁.object.map s₁.object.startOff
        ((vs.map Source.value).drop mid)
      pure (s₁.object.startOff - mid) : Prog (State Members α) ℕ) s₁ := by
  have hsize : (InsertProxy.range vs).size = vs.length := List.length_map _
  have hlt : ¬ ((InsertProxy.range vs).single = true ∨ (InsertProxy.range vs).size ≤ eb) := by
    rw [hsize]
    exact not_or_intro Bool.false_ne_true (by omega)
  refine (Prog.bind_of_done (hsize.symm ▸ hroom)).trans ?_
  refine (congrFun (if_neg hlt) s₁).trans ?_
  rw [hsize, show vs.length - eb = mid by omega, show vs.length - mid = eb by omega]
  rfl

/-- Values are constructed in room. -/
theorem HasRoom.copy_via (hr : HasRoom o e.trivialDestructor s s₁ a b) {srcs : List (Source α)}
    (hlen : srcs.length = m) (ha : a ≤ x) (hb : x + m ≤ b) (hd : Disjoint live (Set.Ico x (x + m)))
    (hsrcs : ∀ src ∈ srcs, src.Readable ∅) (hfit : CleanupFits o e false x m j) :
    Prog.Meets (fun u => InRoom o e.trivialDestructor s s₁ a b k live u ∧ u.ops = j)
      (privSegmentedProxyUninitializedCopyNAndUpdate o e false s₁.object.map x srcs)
      (fun _ u => (InRoom o e.trivialDestructor s s₁ a b k (live ∪ Set.Ico x (x + m)) u
        ∧ u.ops = j + m) ∧ ¬ e.Blows j m)
      (fun u => InRoom o e.trivialDestructor s s₁ a b k live u ∧ e.Blows j m) := by
  subst hlen
  exact privSegmentedProxyUninitializedCopyNAndUpdate_via
    (hr.written.mono (hr.Icc_subset_span ha hb)) (Ico_subset_slotsOf (hr.Icc_subset_span ha hb)) hd
    (fun src hsrc => (hsrcs src hsrc).mono (Set.empty_subset _))
    (fun h => absurd h Bool.false_ne_true) hfit

theorem HasRoom.copy_undefined (hr : HasRoom o e.trivialDestructor s s₁ a b)
    {srcs : List (Source α)} (hlen : srcs.length = m) (ha : a ≤ x) (hb : x + m ≤ b)
    (hd : Disjoint live (Set.Ico x (x + m))) (hsrcs : ∀ src ∈ srcs, src.Readable ∅)
    (hfit : ¬ CleanupFits o e false x m j)
    (h : InRoom o e.trivialDestructor s s₁ a b k live s') (hj : s'.ops = j) :
    privSegmentedProxyUninitializedCopyNAndUpdate o e false s₁.object.map x srcs s'
      = .undefined := by
  subst hlen
  exact privSegmentedProxyUninitializedCopyNAndUpdate_undefined
    (hr.written.mono (hr.Icc_subset_span ha hb)) (Ico_subset_slotsOf (hr.Icc_subset_span ha hb)) hd
    (fun src hsrc => (hsrcs src hsrc).mono (Set.empty_subset _)) hfit h hj

/-- **The slots before the start are filled by moving**, if the cleanup leaves the
elements. -/
theorem HasRoom.moveFront (hr : HasRoom o t s s₁ (s₁.object.startOff - n) s₁.object.finishOff)
    (hn : n ≤ s₁.object.startOff) (hle : n ≤ s₁.object.protSize) :
    Transfer o s₁.object.map s₁.object.map (addrIn o s₁.object.map) 0 s₁.object.startOff
        (s₁.object.startOff - n) n
        (slotsOf o.blockSize (s₁.object.span o (s₁.object.startOff - n) s₁.object.finishOff))
        s₁.object.elements
      ∧ s₁.object.elements ∪ Set.Ico (s₁.object.startOff - n) (s₁.object.startOff - n + n)
        = Set.Ico (s₁.object.startOff - n) s₁.object.finishOff := by
  have hsize := hr.valid.finish_eq
  refine ⟨hr.transfer (by omega) (by omega) le_rfl (by omega)
    (Set.Ico_subset_Ico le_rfl (by omega))
    (Set.disjoint_left.mpr (fun y hy hy' => absurd hy.1 (by have := hy'.2; omega))), ?_⟩
  rw [Nat.sub_add_cancel hn, Set.union_comm]
  exact Set.Ico_union_Ico_eq_Ico (by omega) hr.valid.start_le

/-- Elements that were moved make room for elements that are assigned. -/
theorem insertMiddleMovingFront_few_meets {eb : ℕ}
    (hr : HasRoom o e.trivialDestructor s s₁ (s₁.object.startOff - proxy.size) s₁.object.finishOff)
    (hse : o.singleEnded = false) (hn : proxy.size ≤ s₁.object.startOff)
    (hroom : privReserveElementsAtFront o rot e proxy.size s = .done () s₁)
    (hle : proxy.size ≤ eb) (heb : eb ≤ s₁.object.protSize)
    (hb : e.Blows s₁.ops (eb + cost proxy.assigned))
    (hkept : proxy.single = true ∨ SourceKept o e s₁.object.startOff proxy.size s₁.ops) :
    (insertMiddleMovingFront o rot e eb proxy s).Meets (fun _ _ => False)
      (Holds o e.trivialDestructor s (ownSlots o s)) := by
  have hv := hr.valid
  have hsize := hv.finish_eq
  obtain ⟨htrans, hunion⟩ := hr.moveFront hn (hle.trans heb)
  have hmoved := @privSegmentedUninitializedMoveAllocN_via _ o e s (ownSlots o s) _ _ s₁.object _ _
    _ s₁.ops _ _ htrans
    (fun h => (proxy.single_size h : proxy.size = 1)) hkept
  rw [hunion] at hmoved
  have hnodes : Set.Ico (s₁.object.startOff - proxy.size) s₁.object.finishOff
      ⊆ slotsOf o.blockSize (s₁.object.span o (s₁.object.startOff - proxy.size)
        s₁.object.finishOff) :=
    Ico_subset_slotsOf (hr.Icc_subset_span le_rfl le_rfl)
  have hfree := hr.freeFront (x := s₁.object.startOff) hse (by omega) hv.start_le (Or.inr rfl)
  have hset := @setStart_via _ _ e.trivialDestructor s s₁ (Set.Ico (s₁.object.startOff - proxy.size)
    s₁.object.finishOff) s₁.object (s₁.object.startOff - proxy.size) s₁.object.finishOff proxy.size
      _ hse
    (hv.lt_stored hr.null hv.start_le)
  rw [insertMiddleMovingFront_few hroom (Or.inr hle)]
  refine (Prog.Meets.bind (Prog.Meets.onThrow hmoved (hfree.pre (fun u hu => hu.1)))
    (fun _ => Prog.Meets.of_pre_right (fun hq₁ => ?_))) s₁ ⟨hr.owns, rfl⟩
  -- from here on, whatever throws leaves a deque
  refine Takes.bind_meets (e := e) takes_setObject hset.no_throw (fun _ _ => ?_)
  refine takes_privSegmentedMoveN.bind_meets ((privSegmentedMoveN_via (n := eb - proxy.size)
    hr.written ((Set.Ico_subset_Ico (by omega) (by omega)).trans hnodes)
    ((Set.Ico_subset_Ico (by omega) (by omega)).trans hnodes)
    (Set.Ico_subset_Ico (by omega) (by omega))
    (Set.Ico_subset_Ico (by omega) (by omega))).except (fun _ hu => hr.holds_startAt hse hu))
    (fun hq₂ p => ?_)
  refine Prog.Meets.pre (P := fun u => p = s₁.object.startOff + (eb - proxy.size)
    ∧ InRoom o e.trivialDestructor s s₁ (s₁.object.startOff - proxy.size) s₁.object.finishOff
      (s₁.object.startAt (s₁.object.startOff - proxy.size))
      (Set.Ico (s₁.object.startOff - proxy.size) s₁.object.finishOff) u
    ∧ u.ops = s₁.ops + proxy.size + 0 + (eb - proxy.size)) ?_ (fun u hu => ⟨hu.1.1, hu.1.2, hu.2⟩)
  refine Prog.Meets.of_pre (fun hp => ?_)
  subst hp
  refine takes_privSegmentedProxyCopyNAndUpdate.bind_meets
    ((@privSegmentedProxyCopyNAndUpdate_via _ _ _ _ _ _ _ _ _ _ _ _ proxy.single ?_ ?_
      proxy.readable_assigned (fun h => proxy.length_assigned.trans (proxy.single_size h))).except
        (fun _ hu => hr.holds_startAt hse hu)) (fun hq₃ _ => Prog.meets_pure (fun u _ => ?_))
  · rw [proxy.length_assigned]
    exact hr.written.mono (hr.Icc_subset_span (by omega) (by omega))
  · rw [proxy.length_assigned]
    exact Set.Ico_subset_Ico (by omega) (by omega)
  · rw [show eb + cost proxy.assigned
      = proxy.size + 0 + (eb - proxy.size) + cost proxy.assigned by omega, Env.blows_add,
      Env.blows_add, Nat.add_zero] at hb
    rcases hb with (h | h) | h
    · exact hq₁ h
    · exact hq₂ h
    · exact hq₃ (by rwa [Nat.add_zero, Nat.add_assoc])

/-- The element that starts the deque is destroyed. -/
theorem insertMiddleMovingFront_few_kept {eb : ℕ}
    (hr : HasRoom o e.trivialDestructor s s₁ (s₁.object.startOff - proxy.size) s₁.object.finishOff)
    (hn : proxy.size ≤ s₁.object.startOff)
    (hroom : privReserveElementsAtFront o rot e proxy.size s = .done () s₁)
    (hle : proxy.size ≤ eb) (heb : eb < s₁.object.protSize)
    (h : (insertMiddleMovingFront o rot e eb proxy s).Meets (fun _ _ => False)
      (Holds o e.trivialDestructor s (ownSlots o s))) :
    proxy.single = true ∨ SourceKept o e s₁.object.startOff proxy.size s₁.ops := by
  by_contra hkept
  have hsize := hr.valid.finish_eq
  obtain ⟨htrans, -⟩ := hr.moveFront hn (hle.trans heb.le)
  have hbad := privSegmentedUninitializedMoveAllocN_destroys htrans hkept hr.owns rfl
  rw [insertMiddleMovingFront_few hroom (Or.inr hle)] at h
  obtain ⟨u, hu, hobj, hdead⟩ := h.elim_of_permits (Prog.bind_permits (Prog.onThrow_permits
    (E := fun u => u.object = s₁.object
      ∧ shape u.heap (addrIn o s₁.object.map s₁.object.startOff) ≠ some true) hbad
    (fun u hu => (protDeallocateNodesIfNotReservable_permits u).imp (fun _ v hv =>
      ⟨hv.1.trans hu.1, hv.2 _ (by rw [hu.2]; decide)⟩) (fun _ => id))) (fun _ _ hq => hq.elim))
  have halive := hu.alive (x := s₁.object.startOff) (by rw [hobj]; exact ⟨le_rfl, by omega⟩)
  rw [hobj] at halive
  exact hdead halive

/-- The first of many elements are constructed before the start. -/
theorem HasRoom.fillFront {vs : List α} {eb mid : ℕ}
    (hr : HasRoom o e.trivialDestructor s s₁ (s₁.object.startOff - vs.length) s₁.object.finishOff)
    (hn : vs.length ≤ s₁.object.startOff) (hmid : vs.length = mid + eb)
    (hfit : CleanupFits o e false (s₁.object.startOff - mid) mid j) :
    Prog.Meets
      (fun u => InRoom o e.trivialDestructor s s₁ (s₁.object.startOff - vs.length)
        s₁.object.finishOff s₁.object s₁.object.elements u ∧ u.ops = j)
      (privSegmentedProxyUninitializedCopyNAndUpdate o e false s₁.object.map
        (s₁.object.startOff - mid) ((vs.map Source.value).take mid))
      (fun _ u => (InRoom o e.trivialDestructor s s₁ (s₁.object.startOff - vs.length)
        s₁.object.finishOff s₁.object (Set.Ico (s₁.object.startOff - mid) s₁.object.finishOff) u
          ∧ u.ops = j + mid) ∧ ¬ e.Blows j mid)
      (fun u => InRoom o e.trivialDestructor s s₁ (s₁.object.startOff - vs.length)
        s₁.object.finishOff s₁.object s₁.object.elements u ∧ e.Blows j mid) := by
  have hv := hr.valid
  have hcopy := @HasRoom.copy_via _ _ _ _ _ s₁.object.elements s₁.object _ _ _ mid
    (s₁.object.startOff - mid) hr ((vs.map Source.value).take mid)
    (by rw [List.length_take, List.length_map]; omega) (by omega) (by have := hv.start_le; omega)
    (Set.disjoint_left.mpr (fun y hy hy' => absurd hy.1 (by have := hy'.2; omega)))
    (fun src hsrc => readable_values vs src (List.mem_of_mem_take hsrc)) hfit
  have hgrown : s₁.object.elements ∪ Set.Ico (s₁.object.startOff - mid)
      (s₁.object.startOff - mid + mid)
      = Set.Ico (s₁.object.startOff - mid) s₁.object.finishOff := by
    rw [Nat.sub_add_cancel (by omega), Set.union_comm]
    exact Set.Ico_union_Ico_eq_Ico (by omega) hv.start_le
  rwa [hgrown] at hcopy

/-- The elements before the position are moved before those. -/
theorem HasRoom.moveBefore {eb mid : ℕ}
    (hr : HasRoom o t s s₁ (s₁.object.startOff - n) s₁.object.finishOff)
    (hn : n ≤ s₁.object.startOff) (hmid : n = mid + eb) (heb : eb ≤ s₁.object.protSize) :
    Transfer o s₁.object.map s₁.object.map (addrIn o s₁.object.map) 0 s₁.object.startOff
        (s₁.object.startOff - n) eb
        (slotsOf o.blockSize (s₁.object.span o (s₁.object.startOff - n) s₁.object.finishOff))
        (Set.Ico (s₁.object.startOff - mid) s₁.object.finishOff)
      ∧ Set.Ico (s₁.object.startOff - mid) s₁.object.finishOff
          ∪ Set.Ico (s₁.object.startOff - n) (s₁.object.startOff - n + eb)
        = Set.Ico (s₁.object.startOff - n) s₁.object.finishOff := by
  have hsize := hr.valid.finish_eq
  refine ⟨hr.transfer (by omega) (by omega) le_rfl (by omega)
    (Set.Ico_subset_Ico (by omega) (by omega))
    (Set.disjoint_left.mpr (fun y hy hy' => absurd hy.1 (by have := hy'.2; omega))), ?_⟩
  rw [show s₁.object.startOff - n + eb = s₁.object.startOff - mid by omega, Set.union_comm]
  exact Set.Ico_union_Ico_eq_Ico (by omega) (by omega)

/-- The part of an insertion of many elements that its cleanup guards. -/
theorem insertMiddleMovingFront_many_guarded {vs : List α} {eb mid : ℕ}
    (hr : HasRoom o e.trivialDestructor s s₁ (s₁.object.startOff - vs.length) s₁.object.finishOff)
    (hse : o.singleEnded = false) (hn : vs.length ≤ s₁.object.startOff)
    (hmid : vs.length = mid + eb) (heb : eb ≤ s₁.object.protSize)
    (hfit : CleanupFits o e false (s₁.object.startOff - mid) mid s₁.ops)
    (hkept : SourceKept o e s₁.object.startOff eb (s₁.ops + mid)) :
    Prog.Meets
      (fun u => InRoom o e.trivialDestructor s s₁ (s₁.object.startOff - vs.length)
        s₁.object.finishOff s₁.object s₁.object.elements u ∧ u.ops = s₁.ops)
      (do
        privSegmentedProxyUninitializedCopyNAndUpdate o e false s₁.object.map
          (s₁.object.startOff - mid) ((vs.map Source.value).take mid)
        setObject (Members.decStart o mid)
        privSegmentedUninitializedMoveAllocN o e false s₁.object.map s₁.object.startOff eb
          (s₁.object.startOff - vs.length))
      (fun _ u => (InRoom o e.trivialDestructor s s₁ (s₁.object.startOff - vs.length)
        s₁.object.finishOff (s₁.object.startAt (s₁.object.startOff - mid))
        (Set.Ico (s₁.object.startOff - vs.length) s₁.object.finishOff) u
          ∧ u.ops = s₁.ops + vs.length) ∧ ¬ e.Blows s₁.ops vs.length)
      (fun u => InRoom o e.trivialDestructor s s₁ (s₁.object.startOff - vs.length)
          s₁.object.finishOff s₁.object s₁.object.elements u ∧ e.Blows s₁.ops mid
        ∨ InRoom o e.trivialDestructor s s₁ (s₁.object.startOff - vs.length)
          s₁.object.finishOff (s₁.object.startAt (s₁.object.startOff - mid))
          (Set.Ico (s₁.object.startOff - mid) s₁.object.finishOff) u
            ∧ e.Blows (s₁.ops + mid) eb) := by
  have hv := hr.valid
  refine Prog.Meets.bind ((hr.fillFront hn hmid hfit).except (fun u hu => Or.inl hu))
    (fun _ => Prog.Meets.of_pre_right (fun hq₁ => ?_))
  refine Takes.bind_meets (e := e) takes_setObject (setStart_via (x := s₁.object.startOff)
    (k := s₁.object) hse (hv.lt_stored hr.null hv.start_le)).no_throw (fun _ _ => ?_)
  obtain ⟨htrans, hunion⟩ := hr.moveBefore hn hmid heb
  have hmoved := @privSegmentedUninitializedMoveAllocN_via _ _ e s (ownSlots o s) _ _
    (s₁.object.startAt (s₁.object.startOff - mid)) _ _ _ (s₁.ops + mid) _ false
    htrans (fun h => absurd h Bool.false_ne_true) (Or.inr hkept)
  rw [hunion] at hmoved
  refine hmoved.conseq (fun u hu => ⟨hu.1, hu.2⟩) (fun _ u hu => ⟨⟨hu.1.1, ?_⟩, ?_⟩)
    (fun u hu => Or.inr hu)
  · rw [hu.1.2, hmid, Nat.add_assoc]
  · rw [hmid, Env.blows_add, not_or]
    exact ⟨hq₁, hu.2⟩

theorem insertMiddleMovingFront_many_meets {vs : List α} {eb mid : ℕ}
    (hr : HasRoom o e.trivialDestructor s s₁ (s₁.object.startOff - vs.length) s₁.object.finishOff)
    (hse : o.singleEnded = false) (hn : vs.length ≤ s₁.object.startOff)
    (hroom : privReserveElementsAtFront o rot e vs.length s = .done () s₁)
    (hmid : vs.length = mid + eb) (hpos : 0 < mid) (heb : eb ≤ s₁.object.protSize)
    (hb : e.Blows s₁.ops (vs.length + eb))
    (hfit : CleanupFits o e false (s₁.object.startOff - mid) mid s₁.ops)
    (hkept : SourceKept o e s₁.object.startOff eb (s₁.ops + mid))
    (hnodes : e.Blows (s₁.ops + mid) eb →
      o.reservable = true ∨ mid ≤ s₁.object.startOff % o.blockSize) :
    (insertMiddleMovingFront o rot e eb (.range vs) s).Meets (fun _ _ => False)
      (Holds o e.trivialDestructor s (ownSlots o s)) := by
  have hbs := o.blockSize_pos
  have hv := hr.valid
  have hsize := hv.finish_eq
  rw [insertMiddleMovingFront_many hroom hmid hpos]
  have hguarded := insertMiddleMovingFront_many_guarded hr hse hn hmid heb hfit hkept
  refine (Prog.Meets.bind (Prog.Meets.onThrow hguarded (fun u hu => ?_))
    (fun _ => Prog.Meets.of_pre_right (fun hq₁ => ?_))) s₁ ⟨hr.owns, rfl⟩
  · rcases hu with hu | hu
    · exact hr.freeFront (x := s₁.object.startOff) hse (by omega) hv.start_le (Or.inr rfl) u hu.1
    · refine hr.freeFront (x := s₁.object.startOff - mid) hse (by omega) (by omega) ?_ u hu.1
      exact (hnodes hu.2).imp_right (fun h => (sub_div_of_le_mod hbs h).symm)
  -- from here on, whatever throws leaves a deque
  have hset := @setStart_via _ _ e.trivialDestructor s s₁ (Set.Ico (s₁.object.startOff - vs.length)
    s₁.object.finishOff) s₁.object (s₁.object.startOff - vs.length) s₁.object.finishOff eb _ hse
    (hv.lt_stored hr.null (show s₁.object.startOff - mid ≤ s₁.object.finishOff by omega))
  rw [show s₁.object.startOff - mid - eb = s₁.object.startOff - vs.length by omega] at hset
  refine Takes.bind_meets (e := e) takes_setObject hset.no_throw (fun _ _ => ?_)
  have hrest : ((vs.map Source.value).drop mid).length = eb := by
    rw [List.length_drop, List.length_map]
    omega
  refine takes_privSegmentedProxyCopyNAndUpdate.bind_meets
    ((privSegmentedProxyCopyNAndUpdate_via ?_ ?_
      (fun src hsrc => readable_values vs src (List.mem_of_mem_drop hsrc))
      (fun h => absurd h Bool.false_ne_true)).except
        (fun _ hu => hr.holds_startAt hse hu)) (fun hq₂ _ => Prog.meets_pure (fun u _ => ?_))
  · rw [hrest]
    exact hr.written.mono (hr.Icc_subset_span (by omega) (by omega))
  · rw [hrest]
    exact Set.Ico_subset_Ico (by omega) (by omega)
  · rw [← List.map_drop, cost_values, List.length_drop, show vs.length - mid = eb by omega] at hq₂
    rcases (Env.blows_add _ _ _).mp hb with h | h
    · exact hq₁ h
    · exact hq₂ h

/-- The cleanup of an insertion of many elements leaves the elements of the deque,
those that were inserted before the others were moved among them. -/
theorem insertMiddleMovingFront_many_kept {vs : List α} {eb mid : ℕ}
    (hr : HasRoom o e.trivialDestructor s s₁ (s₁.object.startOff - vs.length) s₁.object.finishOff)
    (hse : o.singleEnded = false) (hn : vs.length ≤ s₁.object.startOff)
    (hroom : privReserveElementsAtFront o rot e vs.length s = .done () s₁)
    (hmid : vs.length = mid + eb) (hpos : 0 < mid) (heb : eb < s₁.object.protSize)
    (h : (insertMiddleMovingFront o rot e eb (.range vs) s).Meets (fun _ _ => False)
      (Holds o e.trivialDestructor s (ownSlots o s))) :
    CleanupFits o e false (s₁.object.startOff - mid) mid s₁.ops
      ∧ SourceKept o e s₁.object.startOff eb (s₁.ops + mid)
      ∧ (e.Blows (s₁.ops + mid) eb →
        o.reservable = true ∨ mid ≤ s₁.object.startOff % o.blockSize) := by
  have hbs := o.blockSize_pos
  have hv := hr.valid
  have hsize := hv.finish_eq
  rw [insertMiddleMovingFront_many hroom hmid hpos] at h
  have hlen : ((vs.map Source.value).take mid).length = mid := by
    rw [List.length_take, List.length_map]
    omega
  have hd : Disjoint s₁.object.elements
      (Set.Ico (s₁.object.startOff - mid) (s₁.object.startOff - mid + mid)) :=
    Set.disjoint_left.mpr (fun y hy hy' => absurd hy.1 (by have := hy'.2; omega))
  have hread : ∀ src ∈ (vs.map Source.value).take mid, src.Readable ∅ :=
    fun src hsrc => readable_values vs src (List.mem_of_mem_take hsrc)
  have hfit : CleanupFits o e false (s₁.object.startOff - mid) mid s₁.ops := by
    by_contra hfit
    have hundef := hr.copy_undefined hlen (by omega) (by omega) hd hread hfit hr.owns rfl
    rw [Prog.bind_of_undefined (Prog.onThrow_of_undefined (Prog.bind_of_undefined hundef))] at h
    exact h
  have hset := @setStart_via _ _ e.trivialDestructor s s₁ (Set.Ico (s₁.object.startOff - mid)
    s₁.object.finishOff) s₁.object (s₁.object.startOff - vs.length) s₁.object.finishOff mid _ hse
    (hv.lt_stored hr.null hv.start_le)
  have hkept : SourceKept o e s₁.object.startOff eb (s₁.ops + mid) := by
    by_contra hkept
    have hb : e.Blows (s₁.ops + mid) eb := by
      rw [SourceKept, not_or, not_or, not_not] at hkept
      exact hkept.2.1
    obtain ⟨htrans, -⟩ := hr.moveBefore hn hmid heb.le
    have hbad : ((do
        privSegmentedProxyUninitializedCopyNAndUpdate o e false s₁.object.map
          (s₁.object.startOff - mid) ((vs.map Source.value).take mid)
        setObject (Members.decStart o mid)
        privSegmentedUninitializedMoveAllocN o e false s₁.object.map s₁.object.startOff eb
          (s₁.object.startOff - vs.length) : Prog (State Members α) Unit) s₁).Permits
        (fun _ _ => False) (fun u => u.object = s₁.object.startAt (s₁.object.startOff - mid)
          ∧ shape u.heap (addrIn o s₁.object.map s₁.object.startOff) = some false) := by
      refine Prog.bind_permits (((hr.fillFront hn hmid hfit) s₁ ⟨hr.owns, rfl⟩).permits.imp
        (fun _ _ => id) (fun _ hu => absurd hu.2 hb.not_before)) (fun _ u hu => ?_)
      refine Prog.bind_permits (((Takes.meets (e := e) takes_setObject hset) u hu.1).permits.imp
        (fun _ _ => id) (fun _ hw => hw.1.elim)) (fun _ w hw => ?_)
      exact privSegmentedUninitializedMoveAllocN_destroys htrans
        (not_or_intro Bool.false_ne_true hkept) hw.1.1 hw.1.2
    obtain ⟨u, hu, hobj, hdead⟩ := h.elim_of_permits (Prog.bind_permits (Prog.onThrow_permits
      (E := fun u => u.object = s₁.object.startAt (s₁.object.startOff - mid)
        ∧ shape u.heap (addrIn o s₁.object.map s₁.object.startOff) ≠ some true) hbad
      (fun u hu => (protDeallocateNodesIfNotReservable_permits u).imp (fun _ w hw =>
        ⟨hw.1.trans hu.1, hw.2 _ (by rw [hu.2]; decide)⟩) (fun _ => id))) (fun _ _ hq => hq.elim))
    have halive := hu.alive (x := s₁.object.startOff) (by
      rw [hobj]
      exact ⟨Nat.sub_le _ _, show s₁.object.startOff < s₁.object.finishOff by omega⟩)
    rw [hobj] at halive
    exact hdead halive
  refine ⟨hfit, hkept, fun hb => ?_⟩
  by_contra hnot
  rw [not_or] at hnot
  -- the node of the first new element is one of those that are freed
  have hgone : (s₁.object.startOff - mid) / o.blockSize
      ∈ Set.Ico ((s₁.object.startOff - vs.length) / o.blockSize)
        (s₁.object.startOff / o.blockSize) := by
    have hdm := Nat.div_add_mod s₁.object.startOff o.blockSize
    refine ⟨Nat.div_le_div_right (by omega), ?_⟩
    rw [Nat.div_lt_iff_lt_mul hbs, Nat.mul_comm]
    omega
  have hfreed : Set.Ico ((s₁.object.startOff - vs.length) / o.blockSize)
      (s₁.object.startOff / o.blockSize)
      ⊆ s₁.object.span o (s₁.object.startOff - vs.length) s₁.object.finishOff :=
    fun i hi => hr.Icc_subset_span le_rfl hv.start_le ⟨hi.1, hi.2.le⟩
  have hlen' := Nat.add_sub_cancel' (hgone.1.trans hgone.2.le)
  have hall : e.Blows s₁.ops vs.length := by
    rw [hmid]
    exact (Env.blows_add _ _ _).mpr (Or.inr hb)
  have hguarded := (insertMiddleMovingFront_many_guarded hr hse hn hmid heb.le hfit hkept s₁
    ⟨hr.owns, rfl⟩).permits.imp (fun _ _ hq => hq.2 hall) (fun _ => id)
  have hcleanup : ∀ u : State Members α, u.object = s₁.object.startAt (s₁.object.startOff - mid) →
      (protDeallocateNodesIfNotReservable o ((s₁.object.startOff - vs.length) / o.blockSize)
        (s₁.object.startOff / o.blockSize) u).Permits
        (fun _ w => w.object = s₁.object.startAt (s₁.object.startOff - mid)
          ∧ w.heap (addrIn o s₁.object.map (s₁.object.startOff - mid)) = none)
        (fun _ => True) := by
    intro u hobj
    have hloop : (protDeallocateNodesIfNotReservable o
        ((s₁.object.startOff - vs.length) / o.blockSize) (s₁.object.startOff / o.blockSize)
        u).Permits (fun _ w => w.heap (addrIn o s₁.object.map (s₁.object.startOff - mid)) = none)
        (fun _ => True) := by
      rw [protDeallocateNodesIfNotReservable, if_neg hnot.1]
      show (protDeallocateNodesLoop o u.object.map _ _ u).Permits _ _
      rw [hobj]
      refine (protDeallocateNodesLoop_permits (hr.written.mono ?_) u).imp
        (fun _ w hw => hw.2 _ ?_ _ (Nat.mod_lt _ hbs)) (fun _ => id)
      · rw [hlen']
        exact hfreed
      · rw [hlen']
        exact hgone
    exact ((protDeallocateNodesIfNotReservable_permits u).and hloop).imp
      (fun _ w hw => ⟨hw.1.1.trans hobj, hw.2⟩) (fun _ _ => trivial)
  obtain ⟨u, hu, hobj, hnone⟩ := h.elim_of_permits (Prog.bind_permits (Prog.onThrow_permits hguarded
    (fun u hu => hcleanup u (hu.elim (fun hu => absurd hu.2 hb.not_before)
      (fun hu => hu.1.owns.object_eq)))) (fun _ _ hq => hq.elim))
  have hmem : s₁.object.startOff - mid
      ∈ (s₁.object.startAt (s₁.object.startOff - mid)).slots o := by
    have hvalid := hr.valid_startAt (x := s₁.object.startOff - mid) hse (by omega) (by omega)
    exact hvalid.mem_nodes hr.null le_rfl hvalid.node_le
  have hpres := hu.owns.owns.present (addrIn o s₁.object.map (s₁.object.startOff - mid))
  rw [hobj] at hpres
  exact hpres (Set.mem_image_of_mem _ hmem) hnone

/-! ## The elements after are moved -/

/-- Elements reach to the end of the room. -/
theorem HasRoom.holds_finishAt (hr : HasRoom o t s s₁ s₁.object.startOff b)
    (h : InRoom o t s s₁ s₁.object.startOff b (s₁.object.finishAt b)
      (Set.Ico s₁.object.startOff b) s') : Holds o t s (ownSlots o s) s' :=
  holds_of_owns (k := s₁.object.finishAt b) h (slots_finishAt_self _ hr.null) rfl
    (hr.valid_finishAt (hr.valid.start_le.trans hr.finish_le) le_rfl)

/-- `insertMiddleMovingBack`, where no more is inserted than is moved. -/
theorem insertMiddleMovingBack_few {eb ea : ℕ}
    (hroom : privReserveElementsAtBack o rot e proxy.size s = .done () s₁)
    (hle : proxy.single = true ∨ proxy.size ≤ ea) :
    insertMiddleMovingBack o rot e eb (eb + ea) proxy s = (do
      (privSegmentedUninitializedMoveAllocN o e proxy.single s₁.object.map
        (s₁.object.finishOff - proxy.size) proxy.size s₁.object.finishOff).onThrow
        (protDeallocateNodesIfNotReservable o (s₁.object.finishOff / o.blockSize + 1)
          ((s₁.object.finishOff + proxy.size) / o.blockSize + 1))
      setObject (Members.protIncFinish o proxy.size)
      let _ ← privSegmentedMoveBackwardN o e s₁.object.map (s₁.object.finishOff - proxy.size)
        (ea - proxy.size) s₁.object.finishOff
      privSegmentedProxyCopyNAndUpdate o e proxy.single s₁.object.map
        (s₁.object.finishOff - proxy.size - (ea - proxy.size)) proxy.assigned
      pure (s₁.object.finishOff - proxy.size - (ea - proxy.size)) :
        Prog (State Members α) ℕ) s₁ := by
  have hafter : eb + ea - eb = ea := Nat.add_sub_cancel_left _ _
  refine (Prog.bind_of_done hroom).trans ?_
  rw [hafter]
  exact congrFun (if_pos hle) s₁

/-- `insertMiddleMovingBack`, where more is inserted than is moved. -/
theorem insertMiddleMovingBack_many {vs : List α} {eb ea gap : ℕ}
    (hroom : privReserveElementsAtBack o rot e vs.length s = .done () s₁)
    (hgap : vs.length = ea + gap) (hpos : 0 < gap) :
    insertMiddleMovingBack o rot e eb (eb + ea) (.range vs) s = (do
      (do
        privSegmentedUninitializedMoveAllocN o e false s₁.object.map (s₁.object.finishOff - ea) ea
          (s₁.object.finishOff + gap)
        (do
          privSegmentedProxyCopyNAndUpdate o e false s₁.object.map (s₁.object.finishOff - ea)
            ((vs.map Source.value).take ea)
          privSegmentedProxyUninitializedCopyNAndUpdate o e false s₁.object.map
            s₁.object.finishOff ((vs.map Source.value).drop ea)).onThrow
          (protDestroyRange o e s₁.object.map s₁.object.finishOff
            (s₁.object.finishOff + ea))).onThrow
        (protDeallocateNodesIfNotReservable o (s₁.object.finishOff / o.blockSize + 1)
          ((s₁.object.finishOff + vs.length) / o.blockSize + 1))
      setObject (Members.protIncFinish o vs.length)
      pure (s₁.object.finishOff - ea) : Prog (State Members α) ℕ) s₁ := by
  have hsize : (InsertProxy.range vs).size = vs.length := List.length_map _
  have hlt : ¬ ((InsertProxy.range vs).single = true ∨ (InsertProxy.range vs).size ≤ ea) := by
    rw [hsize]
    exact not_or_intro Bool.false_ne_true (by omega)
  have hafter : eb + ea - eb = ea := Nat.add_sub_cancel_left _ _
  refine (Prog.bind_of_done (hsize.symm ▸ hroom)).trans ?_
  rw [hafter]
  refine (congrFun (if_neg hlt) s₁).trans ?_
  rw [hsize, show vs.length - ea = gap by omega]
  rfl

/-- **The slots after the finish are filled by moving**, if the cleanup leaves the
elements. -/
theorem HasRoom.moveBack (hr : HasRoom o t s s₁ s₁.object.startOff (s₁.object.finishOff + n))
    (hle : n ≤ s₁.object.protSize) :
    Transfer o s₁.object.map s₁.object.map (addrIn o s₁.object.map) 0 (s₁.object.finishOff - n)
        s₁.object.finishOff n
        (slotsOf o.blockSize (s₁.object.span o s₁.object.startOff (s₁.object.finishOff + n)))
        s₁.object.elements
      ∧ s₁.object.elements ∪ Set.Ico s₁.object.finishOff (s₁.object.finishOff + n)
        = Set.Ico s₁.object.startOff (s₁.object.finishOff + n) := by
  have hsize := hr.valid.finish_eq
  exact ⟨hr.transfer (by omega) (by omega) (by omega) le_rfl
    (Set.Ico_subset_Ico (by omega) (by omega))
    (Set.disjoint_left.mpr (fun y hy hy' => absurd hy.2 (by have := hy'.1; omega))),
    Set.Ico_union_Ico_eq_Ico hr.valid.start_le (by omega)⟩

theorem insertMiddleMovingBack_few_meets {eb ea : ℕ}
    (hr : HasRoom o e.trivialDestructor s s₁ s₁.object.startOff
      (s₁.object.finishOff + proxy.size))
    (hroom : privReserveElementsAtBack o rot e proxy.size s = .done () s₁)
    (hle : proxy.size ≤ ea) (hea : ea ≤ s₁.object.protSize)
    (hb : e.Blows s₁.ops (ea + cost proxy.assigned))
    (hkept : proxy.single = true
      ∨ SourceKept o e (s₁.object.finishOff - proxy.size) proxy.size s₁.ops) :
    (insertMiddleMovingBack o rot e eb (eb + ea) proxy s).Meets (fun _ _ => False)
      (Holds o e.trivialDestructor s (ownSlots o s)) := by
  have hv := hr.valid
  have hsize := hv.finish_eq
  obtain ⟨htrans, hunion⟩ := hr.moveBack (hle.trans hea)
  have hmoved := @privSegmentedUninitializedMoveAllocN_via _ o e s (ownSlots o s) _ _ s₁.object _ _
    _ s₁.ops _ _ htrans
    (fun h => (proxy.single_size h : proxy.size = 1)) hkept
  rw [hunion] at hmoved
  have hnodes : Set.Ico s₁.object.startOff (s₁.object.finishOff + proxy.size)
      ⊆ slotsOf o.blockSize (s₁.object.span o s₁.object.startOff
        (s₁.object.finishOff + proxy.size)) :=
    Ico_subset_slotsOf (hr.Icc_subset_span le_rfl le_rfl)
  have hset : Prog.Meets
      (InRoom o e.trivialDestructor s s₁ s₁.object.startOff (s₁.object.finishOff + proxy.size)
        s₁.object (Set.Ico s₁.object.startOff (s₁.object.finishOff + proxy.size)))
      (setObject (Members.protIncFinish o proxy.size))
      (fun _ => InRoom o e.trivialDestructor s s₁ s₁.object.startOff
        (s₁.object.finishOff + proxy.size)
        (s₁.object.finishAt (s₁.object.finishOff + proxy.size))
        (Set.Ico s₁.object.startOff (s₁.object.finishOff + proxy.size))) (fun _ => False) := by
    rw [← Members.protIncFinish_eq (k := s₁.object) (n := proxy.size)
      (lt_of_lt_of_le hr.lt_length hv.fits)]
    exact setObject_via
  rw [insertMiddleMovingBack_few hroom (Or.inr hle)]
  refine (Prog.Meets.bind (Prog.Meets.onThrow hmoved (hr.freeBack.pre (fun u hu => hu.1)))
    (fun _ => Prog.Meets.of_pre_right (fun hq₁ => ?_))) s₁ ⟨hr.owns, rfl⟩
  -- from here on, whatever throws leaves a deque
  refine Takes.bind_meets (e := e) takes_setObject hset.no_throw (fun _ _ => ?_)
  refine takes_privSegmentedMoveBackwardN.bind_meets ((privSegmentedMoveBackwardN_via
    (n := ea - proxy.size) hr.written (by omega) (by omega)
    ((Set.Ico_subset_Ico (by omega) (by omega)).trans hnodes)
    ((Set.Ico_subset_Ico (by omega) (by omega)).trans hnodes)
    (Set.Ico_subset_Ico (by omega) (by omega))
    (Set.Ico_subset_Ico (by omega) (by omega))).conseq (fun _ => id) (fun _ _ hu => hu.2)
      (fun _ hu => hr.holds_finishAt hu)) (fun hq₂ _ => ?_)
  refine takes_privSegmentedProxyCopyNAndUpdate.bind_meets
    ((@privSegmentedProxyCopyNAndUpdate_via _ _ _ _ _ _ _ _ _ _ _ _ proxy.single ?_ ?_
      proxy.readable_assigned (fun h => proxy.length_assigned.trans (proxy.single_size h))).except
        (fun _ hu => hr.holds_finishAt hu)) (fun hq₃ _ => Prog.meets_pure (fun u _ => ?_))
  · rw [proxy.length_assigned]
    exact hr.written.mono (hr.Icc_subset_span (by omega) (by omega))
  · rw [proxy.length_assigned]
    exact Set.Ico_subset_Ico (by omega) (by omega)
  · rw [show ea + cost proxy.assigned
      = proxy.size + 0 + (ea - proxy.size) + cost proxy.assigned by omega, Env.blows_add,
      Env.blows_add, Nat.add_zero] at hb
    rcases hb with (h | h) | h
    · exact hq₁ h
    · exact hq₂ h
    · exact hq₃ (by rwa [Nat.add_zero, Nat.add_assoc])

/-- An element that was moved is destroyed, although it is among the elements. -/
theorem insertMiddleMovingBack_few_kept {eb ea : ℕ}
    (hr : HasRoom o e.trivialDestructor s s₁ s₁.object.startOff
      (s₁.object.finishOff + proxy.size))
    (hroom : privReserveElementsAtBack o rot e proxy.size s = .done () s₁)
    (hsize : 0 < proxy.size) (hle : proxy.size ≤ ea) (hea : ea ≤ s₁.object.protSize)
    (h : (insertMiddleMovingBack o rot e eb (eb + ea) proxy s).Meets (fun _ _ => False)
      (Holds o e.trivialDestructor s (ownSlots o s))) :
    proxy.single = true
      ∨ SourceKept o e (s₁.object.finishOff - proxy.size) proxy.size s₁.ops := by
  by_contra hkept
  have hfinish := hr.valid.finish_eq
  obtain ⟨htrans, -⟩ := hr.moveBack (hle.trans hea)
  have hbad := privSegmentedUninitializedMoveAllocN_destroys htrans hkept hr.owns rfl
  rw [insertMiddleMovingBack_few hroom (Or.inr hle)] at h
  obtain ⟨u, hu, hobj, hdead⟩ := h.elim_of_permits (Prog.bind_permits (Prog.onThrow_permits
    (E := fun u => u.object = s₁.object
      ∧ shape u.heap (addrIn o s₁.object.map (s₁.object.finishOff - proxy.size)) ≠ some true) hbad
    (fun u hu => (protDeallocateNodesIfNotReservable_permits u).imp (fun _ v hv =>
      ⟨hv.1.trans hu.1, hv.2 _ (by rw [hu.2]; decide)⟩) (fun _ => id))) (fun _ _ hq => hq.elim))
  have halive := hu.alive (x := s₁.object.finishOff - proxy.size) (by
    rw [hobj]
    exact ⟨by omega, by omega⟩)
  rw [hobj] at halive
  exact hdead halive

/-- The elements after the position are moved, past the slots of new elements. -/
theorem HasRoom.moveAfter {ea gap : ℕ}
    (hr : HasRoom o t s s₁ s₁.object.startOff (s₁.object.finishOff + n))
    (hgap : n = ea + gap) (hea : ea ≤ s₁.object.protSize) :
    Transfer o s₁.object.map s₁.object.map (addrIn o s₁.object.map) 0 (s₁.object.finishOff - ea)
        (s₁.object.finishOff + gap) ea
        (slotsOf o.blockSize (s₁.object.span o s₁.object.startOff (s₁.object.finishOff + n)))
        s₁.object.elements := by
  have hsize := hr.valid.finish_eq
  exact hr.transfer (by omega) (by omega) (by omega) (by omega)
    (Set.Ico_subset_Ico (by omega) (by omega))
    (Set.disjoint_left.mpr (fun y hy hy' => absurd hy.2 (by have := hy'.1; omega)))

/-- Elements that were moved are assigned to. -/
theorem HasRoom.assignAfter {vs : List α} {ea gap : ℕ}
    (hr : HasRoom o t s s₁ s₁.object.startOff (s₁.object.finishOff + vs.length))
    (hgap : vs.length = ea + gap) (hea : ea ≤ s₁.object.protSize)
    (hl : s₁.object.elements ⊆ live) :
    Prog.Meets (fun u => InRoom o t s s₁ s₁.object.startOff (s₁.object.finishOff + vs.length) k
        live u ∧ u.ops = j)
      (privSegmentedProxyCopyNAndUpdate o e false s₁.object.map (s₁.object.finishOff - ea)
        ((vs.map Source.value).take ea))
      (fun _ u => (InRoom o t s s₁ s₁.object.startOff (s₁.object.finishOff + vs.length) k live u
        ∧ u.ops = j + ea) ∧ ¬ e.Blows j ea)
      (fun u => InRoom o t s s₁ s₁.object.startOff (s₁.object.finishOff + vs.length) k live u
        ∧ e.Blows j ea) := by
  have hsize := hr.valid.finish_eq
  have hlen : ((vs.map Source.value).take ea).length = ea := by
    rw [List.length_take, List.length_map]
    omega
  have hcost : cost ((vs.map Source.value).take ea) = ea := by
    rw [← List.map_take, cost_values, List.length_take]
    omega
  have h := takes_privSegmentedProxyCopyNAndUpdate.meets (j := j) (e := e)
    (@privSegmentedProxyCopyNAndUpdate_via _ _ _ t s (ownSlots o s)
      (slotsOf o.blockSize (s₁.object.span o s₁.object.startOff
        (s₁.object.finishOff + vs.length))) live k _ (s₁.object.finishOff - ea)
          ((vs.map Source.value).take ea) false
      (by rw [hlen]; exact hr.written.mono (hr.Icc_subset_span (by omega) (by omega)))
      (by rw [hlen]; exact (Set.Ico_subset_Ico (by omega) (by omega)).trans hl)
      (fun src hsrc => readable_values vs src (List.mem_of_mem_take hsrc))
      (fun h => absurd h Bool.false_ne_true))
  rwa [hcost] at h

theorem insertMiddleMovingBack_many_meets {vs : List α} {eb ea gap : ℕ}
    (hr : HasRoom o e.trivialDestructor s s₁ s₁.object.startOff
      (s₁.object.finishOff + vs.length))
    (hroom : privReserveElementsAtBack o rot e vs.length s = .done () s₁)
    (hgap : vs.length = ea + gap) (hpos : 0 < gap) (hea : ea ≤ s₁.object.protSize)
    (hb : e.Blows s₁.ops (ea + vs.length))
    (hkept : SourceKept o e (s₁.object.finishOff - ea) ea s₁.ops)
    (hlater : e.trivialDestructor = true ∨ ¬ e.Blows (s₁.ops + ea) vs.length) :
    (insertMiddleMovingBack o rot e eb (eb + ea) (.range vs) s).Meets (fun _ _ => False)
      (Holds o e.trivialDestructor s (ownSlots o s)) := by
  have hmoved := @privSegmentedUninitializedMoveAllocN_via _ _ e s (ownSlots o s) _ _ s₁.object _ _
    _ s₁.ops _ false (hr.moveAfter hgap hea)
    (fun h => absurd h Bool.false_ne_true) (Or.inr hkept)
  rw [insertMiddleMovingBack_many hroom hgap hpos]
  refine Prog.bind_meets_of_throws ((Prog.Meets.onThrow (Prog.Meets.bind
    (hmoved.except (fun _ hu => hu.1)) (fun _ => Prog.Meets.of_pre_right (fun hq₁ => ?_)))
    hr.freeBack) s₁ ⟨hr.owns, rfl⟩)
  have hb₂ : e.Blows (s₁.ops + ea) vs.length := ((Env.blows_add _ _ _).mp hb).resolve_left hq₁
  have ht : e.trivialDestructor = true := hlater.resolve_right (not_not.mpr hb₂)
  have hcopy := @HasRoom.copy_via _ _ _ _ _ (s₁.object.elements ∪ Set.Ico
    (s₁.object.finishOff + gap)
      (s₁.object.finishOff + gap + ea)) s₁.object _ _ (s₁.ops + ea + ea) gap s₁.object.finishOff hr
        ((vs.map Source.value).drop ea) (by rw [List.length_drop, List.length_map]; omega)
    hr.valid.start_le (by omega) (Set.disjoint_left.mpr (fun y hy hy' => ?_))
    (fun src hsrc => readable_values vs src (List.mem_of_mem_drop hsrc)) (Or.inr (Or.inl ht))
  · refine Prog.Meets.onThrow (F := InRoom o e.trivialDestructor s s₁ s₁.object.startOff
      (s₁.object.finishOff + vs.length) s₁.object (s₁.object.elements
        ∪ Set.Ico (s₁.object.finishOff + gap) (s₁.object.finishOff + gap + ea))) ?_ ?_
    · refine Prog.Meets.bind ((hr.assignAfter hgap hea Set.subset_union_left).except
        (fun _ hu => hu.1)) (fun _ => Prog.Meets.of_pre_right (fun hq₂ => ?_))
      refine hcopy.conseq (fun _ => id) (fun _ u hu => ?_) (fun _ hu => hu.1)
      rw [hgap, Env.blows_add] at hb₂
      exact hb₂.elim hq₂ hu.2
    · -- what was moved is forgotten
      rw [protDestroyRange_of_trivial ht]
      refine Prog.meets_pure (fun u hu => hu.forget Set.subset_union_left (fun hf => ?_))
      exact absurd (ht.symm.trans hf).symm Bool.false_ne_true
  · rcases hy with hy | hy
    · exact absurd hy.2 (by have := hy'.1; omega)
    · exact absurd hy.1 (by have := hy'.2; omega)

/-- The inner cleanup destroys from the finish on, where no element was moved. -/
theorem insertMiddleMovingBack_many_kept {vs : List α} {eb ea gap : ℕ}
    (hr : HasRoom o e.trivialDestructor s s₁ s₁.object.startOff
      (s₁.object.finishOff + vs.length))
    (hroom : privReserveElementsAtBack o rot e vs.length s = .done () s₁)
    (hgap : vs.length = ea + gap) (hpos : 0 < gap) (hafter : 0 < ea)
    (hea : ea ≤ s₁.object.protSize)
    (h : (insertMiddleMovingBack o rot e eb (eb + ea) (.range vs) s).Meets (fun _ _ => False)
      (Holds o e.trivialDestructor s (ownSlots o s))) :
    SourceKept o e (s₁.object.finishOff - ea) ea s₁.ops
      ∧ (e.trivialDestructor = true ∨ ¬ e.Blows (s₁.ops + ea) vs.length) := by
  have hsize := hr.valid.finish_eq
  have htrans := hr.moveAfter hgap hea
  rw [insertMiddleMovingBack_many hroom hgap hpos] at h
  have hkept : SourceKept o e (s₁.object.finishOff - ea) ea s₁.ops := by
    by_contra hkept
    have hbad := privSegmentedUninitializedMoveAllocN_destroys htrans
      (not_or_intro Bool.false_ne_true hkept) hr.owns rfl
    obtain ⟨u, hu, hobj, hdead⟩ := h.elim_of_permits (Prog.bind_permits (Prog.onThrow_permits
      (E := fun u => u.object = s₁.object
        ∧ shape u.heap (addrIn o s₁.object.map (s₁.object.finishOff - ea)) ≠ some true)
      (Prog.bind_permits (R := fun _ _ => False) hbad (fun _ _ => False.elim))
      (fun u hu => (protDeallocateNodesIfNotReservable_permits u).imp (fun _ v hv =>
        ⟨hv.1.trans hu.1, hv.2 _ (by rw [hu.2]; decide)⟩) (fun _ => id))) (fun _ _ hq => hq.elim))
    have halive := hu.alive (x := s₁.object.finishOff - ea) (by
      rw [hobj]
      exact ⟨by omega, by omega⟩)
    rw [hobj] at halive
    exact hdead halive
  refine ⟨hkept, ?_⟩
  by_contra hnot
  rw [not_or, not_not] at hnot
  obtain ⟨ht, hb⟩ := hnot
  have ht' : e.trivialDestructor = false := Bool.eq_false_of_not_eq_true ht
  have hmoved := privSegmentedUninitializedMoveAllocN_via (e := e) (k := s₁.object) (j := s₁.ops)
    htrans
    (fun h => absurd h Bool.false_ne_true) (Or.inr hkept) s₁ ⟨hr.owns, rfl⟩
  have hraw : s₁.object.finishOff ∉ s₁.object.elements ∪ Set.Ico (s₁.object.finishOff + gap)
      (s₁.object.finishOff + gap + ea) := by
    rintro (hx | hx)
    · exact absurd hx.2 (lt_irrefl _)
    · exact absurd hx.1 (by omega)
  have hmem : s₁.object.finishOff ∈ slotsOf o.blockSize
      (s₁.object.span o s₁.object.startOff (s₁.object.finishOff + vs.length)) :=
    hr.Icc_subset_span hr.valid.start_le (by omega) ⟨le_rfl, le_rfl⟩
  have hdisj : Disjoint (s₁.object.elements ∪ Set.Ico (s₁.object.finishOff + gap)
      (s₁.object.finishOff + gap + ea))
      (Set.Ico s₁.object.finishOff (s₁.object.finishOff + gap)) := by
    refine Set.disjoint_left.mpr (fun y hy hy' => ?_)
    rcases hy with hy | hy
    · exact absurd hy.2 (by have := hy'.1; omega)
    · exact absurd hy.1 (by have := hy'.2; omega)
  have hread : ∀ src ∈ (vs.map Source.value).drop ea, src.Readable ∅ :=
    fun src hsrc => readable_values vs src (List.mem_of_mem_drop hsrc)
  have hlen : ((vs.map Source.value).drop ea).length = gap := by
    rw [List.length_drop, List.length_map]
    omega
  have hdead : ∀ u, InRoom o e.trivialDestructor s s₁ s₁.object.startOff
      (s₁.object.finishOff + vs.length) s₁.object (s₁.object.elements
        ∪ Set.Ico (s₁.object.finishOff + gap) (s₁.object.finishOff + gap + ea)) u →
      shape u.heap (addrIn o s₁.object.map s₁.object.finishOff) ≠ some true := by
    intro u hu
    rw [hu.vacant_of_notMem ht' hmem hraw]
    decide
  have hwritten := hr.written.mono (hr.Icc_subset_span (m := s₁.object.finishOff)
    (n := s₁.object.finishOff + ea) hr.valid.start_le (by omega))
  have hinner : ∀ u : State Members α, InRoom o e.trivialDestructor s s₁ s₁.object.startOff
      (s₁.object.finishOff + vs.length) s₁.object (s₁.object.elements
        ∪ Set.Ico (s₁.object.finishOff + gap) (s₁.object.finishOff + gap + ea)) u →
      u.ops = s₁.ops + ea → ((do
        privSegmentedProxyCopyNAndUpdate o e false s₁.object.map (s₁.object.finishOff - ea)
          ((vs.map Source.value).take ea)
        privSegmentedProxyUninitializedCopyNAndUpdate o e false s₁.object.map
          s₁.object.finishOff ((vs.map Source.value).drop ea) : Prog (State Members α) Unit)
            u).Permits
        (fun _ _ => False)
        (fun w => shape w.heap (addrIn o s₁.object.map s₁.object.finishOff) ≠ some true) := by
    intro u hu hops
    refine Prog.bind_permits ((hr.assignAfter hgap hea Set.subset_union_left u
      ⟨hu, hops⟩).permits.imp (fun _ _ => id) (fun w hw => hdead w hw.1)) (fun _ w hw => ?_)
    by_cases hfit : CleanupFits o e false s₁.object.finishOff gap (s₁.ops + ea + ea)
    · refine ((hr.copy_via hlen hr.valid.start_le (by omega) hdisj hread hfit w
        hw.1).permits).imp (fun _ v hv => ?_) (fun v hv => hdead v hv.1)
      rw [hgap, Env.blows_add] at hb
      exact hb.elim hw.2 hv.2
    · rw [hr.copy_undefined hlen hr.valid.start_le (by omega) hdisj hread hfit hw.1.1 hw.1.2]
      trivial
  -- so the inner cleanup starts with a raw slot, and nothing that is defined is left
  have hguarded : ((do
      privSegmentedUninitializedMoveAllocN o e false s₁.object.map (s₁.object.finishOff - ea) ea
        (s₁.object.finishOff + gap)
      (do
        privSegmentedProxyCopyNAndUpdate o e false s₁.object.map (s₁.object.finishOff - ea)
          ((vs.map Source.value).take ea)
        privSegmentedProxyUninitializedCopyNAndUpdate o e false s₁.object.map
          s₁.object.finishOff ((vs.map Source.value).drop ea)).onThrow
        (protDestroyRange o e s₁.object.map s₁.object.finishOff
          (s₁.object.finishOff + ea)) : Prog (State Members α) Unit) s₁).Permits
      (fun _ _ => False) (fun _ => False) :=
    Prog.bind_permits (hmoved.permits.imp (fun _ _ => id) (fun _ hu => hb.not_before hu.2))
      (fun _ u hu => Prog.onThrow_permits (hinner u hu.1.1 hu.1.2)
        (fun w hw => (protDestroyRange_of_dead ht' hwritten hafter hw).imp
          (fun _ _ => id) (fun _ => False.elim)))
  obtain ⟨u, -, hfalse⟩ := h.elim_of_permits (Prog.bind_permits
    (Prog.onThrow_permits hguarded (fun _ => False.elim)) (fun _ _ => False.elim))
  exact hfalse

/-! ## The guarantee -/

/-- Whether an insertion in the middle moves the elements before it. -/
def Members.movesFront (o : Options) (k : Members) (elemsbefore : ℕ) : Prop :=
  o.singleEnded = false ∧ elemsbefore < k.protSize / 2

instance (k : Members) (elemsbefore : ℕ) : Decidable (k.movesFront o elemsbefore) :=
  inferInstanceAs (Decidable (_ ∧ _))

/-- How many elements an insertion in the middle moves. -/
def Members.moved (o : Options) (k : Members) (elemsbefore : ℕ) : ℕ :=
  if k.movesFront o elemsbefore then elemsbefore else k.protSize - elemsbefore

/-- The part of the call that makes room. -/
def reserveMiddle (o : Options) (rot : Rotation) (e : Env α) (k : Members) (elemsbefore n : ℕ) :
    Prog (State Members α) Unit :=
  if k.movesFront o elemsbefore then privReserveElementsAtFront o rot e n
  else privReserveElementsAtBack o rot e n

/-- **When an insertion in the middle leaves a deque**, if operation `i` throws. As
the elements before are moved, and there are enough of them: the operation is no
construction, or it needs no cleanup, or the cleanup has nothing to read. As there are
not, the first of the new elements are constructed before them; these must not be
in nodes that the cleanup frees. -/
def MiddleKept (o : Options) (e : Env α) (k : Members) (elemsbefore : ℕ) (proxy : InsertProxy α)
    (i : ℕ) : Prop :=
  if k.movesFront o elemsbefore then
    if proxy.single = true ∨ proxy.size ≤ elemsbefore then
      proxy.single = true ∨ e.trivialDestructor = true ∨ proxy.size ≤ i
        ∨ k.startOff % o.blockSize = 0 ∧ i < o.blockSize
    else
      let mid := proxy.size - elemsbefore
      (i < mid → e.trivialDestructor = true ∨ mid = k.startOff % o.blockSize
        ∨ k.startOff % o.blockSize < mid
          ∧ (mid - k.startOff % o.blockSize) % o.blockSize ≤ i)
      ∧ (mid ≤ i → i < proxy.size →
        (e.trivialDestructor = true ∨ k.startOff % o.blockSize = 0 ∧ i - mid < o.blockSize)
          ∧ (o.reservable = true ∨ mid ≤ k.startOff % o.blockSize))
  else
    let elemsafter := k.protSize - elemsbefore
    if proxy.single = true ∨ proxy.size ≤ elemsafter then
      proxy.single = true ∨ e.trivialDestructor = true ∨ proxy.size ≤ i
        ∨ (k.finishOff - proxy.size) % o.blockSize = 0 ∧ i < o.blockSize
    else
      e.trivialDestructor = true
        ∨ i < elemsafter ∧ (k.finishOff - elemsafter) % o.blockSize = 0 ∧ i < o.blockSize

/-- A deque has room for nothing. -/
theorem Sound.hasRoom (hs : Sound o t s) (hne : s.object.map ≠ []) :
    HasRoom o t s s s.object.startOff s.object.finishOff := by
  have hv := hs.holds.valid
  have hspan : s.object.span o s.object.startOff s.object.finishOff = s.object.nodes o :=
    (Members.Valid.nodes_eq hne).symm
  refine ⟨?_, ?_, SameElements.refl s, hv, hne, le_rfl, le_rfl, hv.finish_lt hne⟩
  · rw [hspan]
    exact hs.holds.owns
  · rw [hspan]
    exact hv.written

/-- Room at the front of a deque that has elements, for any number. -/
theorem reserveAtFront_hasRoom_of_ne (hs : Sound o t s) (hse : o.singleEnded = false)
    (hne : s.object.map ≠ []) (hroom : privReserveElementsAtFront o rot e n s = .done () s₁) :
    HasRoom o t s s₁ (s₁.object.startOff - n) s₁.object.finishOff ∧ n ≤ s₁.object.startOff
      ∧ s₁.object.startOff % o.blockSize = s.object.startOff % o.blockSize ∧ s₁.ops = s.ops := by
  rcases Nat.eq_zero_or_pos n with rfl | hn
  · obtain rfl : s = s₁ := (Outcome.done.inj hroom).2
    exact ⟨hs.hasRoom hne, Nat.zero_le _, rfl, rfl⟩
  · have h := reserveAtFront_hasRoom hs hse hn hroom
    rwa [if_neg hne] at h

theorem reserveAtBack_hasRoom_of_ne (hs : Sound o t s) (hne : s.object.map ≠ [])
    (hroom : privReserveElementsAtBack o rot e n s = .done () s₁) :
    HasRoom o t s s₁ s₁.object.startOff (s₁.object.finishOff + n)
      ∧ s₁.object.finishOff % o.blockSize = s.object.finishOff % o.blockSize
      ∧ s₁.ops = s.ops := by
  rcases Nat.eq_zero_or_pos n with rfl | hn
  · obtain rfl : s = s₁ := (Outcome.done.inj hroom).2
    exact ⟨hs.hasRoom hne, rfl, rfl⟩
  · exact reserveAtBack_hasRoom hs hn hroom

/-- Offsets in the same place of their block, before them as many. -/
theorem sub_mod_congr {bs y : ℕ} (h : x % bs = y % bs) (hx : n ≤ x) (hy : n ≤ y) :
    (x - n) % bs = (y - n) % bs :=
  Nat.ModEq.add_right_cancel' n (by rw [Nat.sub_add_cancel hx, Nat.sub_add_cancel hy]; exact h)

theorem insertMiddle_front_iff (hs : Sound o e.trivialDestructor s) (proxy : InsertProxy α)
    {eb i : ℕ} (hmoves : s.object.movesFront o eb) (hpos : 0 < eb)
    (heb : eb < s.object.protSize) (hi : i < eb + cost proxy.assigned)
    (hfuse : e.fuse = some (s.ops + i))
    (hroom : privReserveElementsAtFront o rot e proxy.size s = .done () s₁) :
    (insertMiddleMovingFront o rot e eb proxy s).Meets (fun _ _ => False)
        (Holds o e.trivialDestructor s (ownSlots o s))
      ↔ MiddleKept o e s.object eb proxy i := by
  have hne : s.object.map ≠ [] := by
    intro h0
    rw [Members.protSize, hs.holds.valid.null h0, Nat.zero_sub] at heb
    exact absurd heb (Nat.not_lt_zero _)
  obtain ⟨hr, hn, hmod, hops⟩ := reserveAtFront_hasRoom_of_ne hs hmoves.1 hne hroom
  have hsize : s₁.object.protSize = s.object.protSize := hr.same.size_eq
  rw [MiddleKept, if_pos hmoves, ← hmod]
  rw [← hops] at hfuse
  rw [← hsize] at heb
  have hb : e.Blows s₁.ops (eb + cost proxy.assigned) := (blows_iff hfuse).mpr hi
  by_cases hfew : proxy.single = true ∨ proxy.size ≤ eb
  · have hle : proxy.size ≤ eb :=
      hfew.elim (fun h => (proxy.single_size h : proxy.size = 1).trans_le hpos) id
    rw [if_pos hfew, ← sourceKept_iff hfuse]
    exact ⟨insertMiddleMovingFront_few_kept hr hn hroom hle heb,
      insertMiddleMovingFront_few_meets hr hmoves.1 hn hroom hle heb.le hb⟩
  · rw [if_neg hfew]
    cases proxy with
    | value v => exact absurd (Or.inl rfl) hfew
    | emplace v => exact absurd (Or.inl rfl) hfew
    | range vs =>
      have hlen : (InsertProxy.range vs).size = vs.length := List.length_map _
      have hcost : cost (InsertProxy.range vs).assigned = vs.length := cost_values vs
      rw [hlen] at hr hn hroom hfew ⊢
      rw [hcost] at hb
      rw [not_or, Nat.not_le] at hfew
      obtain ⟨mid, hmid⟩ : ∃ mid, vs.length = mid + eb := ⟨vs.length - eb, by omega⟩
      have hmidpos : 0 < mid := by omega
      rw [show vs.length - eb = mid by omega]
      have hiff : (CleanupFits o e false (s₁.object.startOff - mid) mid s₁.ops
          ∧ SourceKept o e s₁.object.startOff eb (s₁.ops + mid)
          ∧ (e.Blows (s₁.ops + mid) eb →
            o.reservable = true ∨ mid ≤ s₁.object.startOff % o.blockSize))
          ↔ (i < mid → e.trivialDestructor = true ∨ mid = s₁.object.startOff % o.blockSize
              ∨ s₁.object.startOff % o.blockSize < mid
                ∧ (mid - s₁.object.startOff % o.blockSize) % o.blockSize ≤ i)
            ∧ (mid ≤ i → i < vs.length →
              (e.trivialDestructor = true
                  ∨ s₁.object.startOff % o.blockSize = 0 ∧ i - mid < o.blockSize)
                ∧ (o.reservable = true ∨ mid ≤ s₁.object.startOff % o.blockSize)) := by
        rcases Nat.lt_or_ge i mid with hlt | hge
        · -- a new element, before any was moved
          have hb₁ : ¬ e.Blows (s₁.ops + mid) eb :=
            fun h => h.not_before ((blows_iff hfuse).mpr hlt)
          rw [cleanupFits_front_iff (by omega) hlt hfuse]
          have hkept : SourceKept o e s₁.object.startOff eb (s₁.ops + mid) := Or.inr (Or.inl hb₁)
          constructor
          · rintro ⟨hfit, -⟩
            exact ⟨fun _ => by simpa using hfit, fun h => absurd h (Nat.not_le.mpr hlt)⟩
          · rintro ⟨hfit, -⟩
            exact ⟨by simpa using hfit hlt, hkept, fun h => absurd h hb₁⟩
        · -- an element that is moved, or one that is assigned
          have hfit : CleanupFits o e false (s₁.object.startOff - mid) mid s₁.ops := by
            refine Or.inr (Or.inr (Or.inr ?_))
            rw [blows_iff hfuse]
            omega
          have hfuse' : e.fuse = some (s₁.ops + mid + (i - mid)) := by
            rw [hfuse]
            congr 1
            omega
          rw [sourceKept_iff hfuse', blows_iff hfuse']
          constructor
          · rintro ⟨-, hkept, hnodes⟩
            refine ⟨fun h => absurd h (Nat.not_lt.mpr hge), fun _ hlt => ⟨?_, hnodes (by omega)⟩⟩
            rcases hkept with h | h | h
            · exact Or.inl h
            · omega
            · exact Or.inr h
          · rintro ⟨-, hboth⟩
            refine ⟨hfit, ?_, fun h => (hboth hge (by omega)).2⟩
            rcases Nat.lt_or_ge (i - mid) eb with h | h
            · exact (hboth hge (by omega)).1.imp_right Or.inr
            · exact Or.inr (Or.inl h)
      rw [← hiff]
      refine ⟨insertMiddleMovingFront_many_kept hr hmoves.1 hn hroom hmid hmidpos heb, ?_⟩
      rintro ⟨hfit, hkept, hnodes⟩
      exact insertMiddleMovingFront_many_meets hr hmoves.1 hn hroom hmid hmidpos heb.le
        (Nat.add_comm eb vs.length ▸ hb) hfit hkept hnodes

theorem insertMiddle_back_iff (hs : Sound o e.trivialDestructor s) (proxy : InsertProxy α)
    {eb i : ℕ} (hmoves : ¬ s.object.movesFront o eb) (heb : eb < s.object.protSize)
    (hi : i < s.object.protSize - eb + cost proxy.assigned) (hfuse : e.fuse = some (s.ops + i))
    (hroom : privReserveElementsAtBack o rot e proxy.size s = .done () s₁) :
    (insertMiddleMovingBack o rot e eb s.object.protSize proxy s).Meets (fun _ _ => False)
        (Holds o e.trivialDestructor s (ownSlots o s))
      ↔ MiddleKept o e s.object eb proxy i := by
  have hv := hs.holds.valid
  have hne : s.object.map ≠ [] := by
    intro h0
    rw [Members.protSize, hv.null h0, Nat.zero_sub] at heb
    exact absurd heb (Nat.not_lt_zero _)
  obtain ⟨hr, hmod, hops⟩ := reserveAtBack_hasRoom_of_ne hs hne hroom
  have hsize : s₁.object.protSize = s.object.protSize := hr.same.size_eq
  have hfinish := hv.finish_eq
  have hfinish₁ := hr.valid.finish_eq
  obtain ⟨ea, hea⟩ : ∃ ea, s.object.protSize = eb + ea := ⟨s.object.protSize - eb, by omega⟩
  rw [MiddleKept, if_neg hmoves]
  rw [show s.object.protSize - eb = ea by omega] at hi ⊢
  rw [← hops] at hfuse
  have hb : e.Blows s₁.ops (ea + cost proxy.assigned) := (blows_iff hfuse).mpr hi
  rw [hea]
  by_cases hfew : proxy.single = true ∨ proxy.size ≤ ea
  · have hle : proxy.size ≤ ea :=
      hfew.elim (fun h => (proxy.single_size h : proxy.size = 1).trans_le (by omega)) id
    rw [if_pos hfew, ← sub_mod_congr hmod (by omega) (by omega), ← sourceKept_iff hfuse]
    refine ⟨fun h => ?_, insertMiddleMovingBack_few_meets hr hroom hle (by omega) hb⟩
    rcases Nat.eq_zero_or_pos proxy.size with h0 | hpos
    · refine Or.inr (Or.inr (Or.inl ?_))
      rw [h0]
      exact Env.not_blows_zero _
    · exact insertMiddleMovingBack_few_kept hr hroom hpos hle (by omega) h
  · rw [if_neg hfew]
    cases proxy with
    | value v => exact absurd (Or.inl rfl) hfew
    | emplace v => exact absurd (Or.inl rfl) hfew
    | range vs =>
      have hlen : (InsertProxy.range vs).size = vs.length := List.length_map _
      have hcost : cost (InsertProxy.range vs).assigned = vs.length := cost_values vs
      rw [hlen] at hr hroom hfew
      rw [hcost] at hb
      rw [not_or, Nat.not_le] at hfew
      obtain ⟨gap, hgap⟩ : ∃ gap, vs.length = ea + gap := ⟨vs.length - ea, by omega⟩
      have hiff : (SourceKept o e (s₁.object.finishOff - ea) ea s₁.ops
          ∧ (e.trivialDestructor = true ∨ ¬ e.Blows (s₁.ops + ea) vs.length))
          ↔ (e.trivialDestructor = true ∨ i < ea
            ∧ (s.object.finishOff - ea) % o.blockSize = 0 ∧ i < o.blockSize) := by
        have hlater : e.Blows (s₁.ops + ea) vs.length ↔ ea ≤ i := by
          constructor
          · rintro ⟨y, h₁, h₂, h₃⟩
            have := Option.some.inj (hfuse.symm.trans h₃)
            omega
          · intro h
            exact ⟨s₁.ops + i, by omega, by rw [hcost] at hi; omega, hfuse⟩
        rw [sourceKept_iff hfuse, hlater, ← sub_mod_congr hmod (by omega) (by omega)]
        rw [← or_and_left]
        refine or_congr_right ?_
        omega
      rw [← hiff]
      exact ⟨insertMiddleMovingBack_many_kept hr hroom hgap (by omega) (by omega) (by omega),
        fun h => insertMiddleMovingBack_many_meets hr hroom hgap (by omega) (by omega) hb h.1 h.2⟩

/-- **The basic guarantee of insertion in the middle** holds if and only if the
cleanups that run leave what is not theirs. -/
theorem insertMiddle_holds_iff (hs : Sound o e.trivialDestructor s) (proxy : InsertProxy α)
    {eb i : ℕ} (hfront : o.singleEnded = false → 0 < eb) (heb : eb < s.object.protSize)
    (hi : i < s.object.moved o eb + cost proxy.assigned) (hfuse : e.fuse = some (s.ops + i))
    (hroom : reserveMiddle o rot e s.object eb proxy.size s = .done () s₁) :
    (privInsertMiddleAuxImpl o rot e eb proxy s).Meets (fun _ _ => False)
        (Holds o e.trivialDestructor s (ownSlots o s))
      ↔ MiddleKept o e s.object eb proxy i := by
  by_cases hmoves : s.object.movesFront o eb
  · rw [reserveMiddle, if_pos hmoves] at hroom
    rw [Members.moved, if_pos hmoves] at hi
    have hrun : privInsertMiddleAuxImpl o rot e eb proxy s
        = insertMiddleMovingFront o rot e eb proxy s :=
      congrFun (if_pos hmoves : (if o.singleEnded = false ∧ eb < s.object.protSize / 2 then
        insertMiddleMovingFront o rot e eb proxy else _) = _) s
    rw [hrun]
    exact insertMiddle_front_iff hs proxy hmoves (hfront hmoves.1) heb hi hfuse hroom
  · rw [reserveMiddle, if_neg hmoves] at hroom
    rw [Members.moved, if_neg hmoves] at hi
    have hrun : privInsertMiddleAuxImpl o rot e eb proxy s
        = insertMiddleMovingBack o rot e eb s.object.protSize proxy s :=
      congrFun (if_neg hmoves : (if o.singleEnded = false ∧ eb < s.object.protSize / 2 then
        _ else insertMiddleMovingBack o rot e eb s.object.protSize proxy) = _) s
    rw [hrun]
    exact insertMiddle_back_iff hs proxy hmoves heb hi hfuse hroom

theorem insertMiddle_holds_single :
    (privInsertMiddleAuxImpl .fours .parts (throwingAt 0) 1 (.value 7)
      (oneBlock .fours 100 0 2 5)).Meets (fun _ _ => False)
      (Holds .fours false (oneBlock .fours 100 0 2 5)
        (ownSlots .fours (oneBlock .fours 100 0 2 5))) := by
  have hs : Sound .fours false (oneBlock .fours 100 0 2 5) := sound_fours (by decide) (by decide)
  refine (insertMiddle_holds_iff (e := throwingAt 0) (i := 0) hs (.value 7) (fun _ => Nat.one_pos)
    (by decide) (by decide)
    rfl rfl).mpr ?_
  show true = true ∨ false = true ∨ 1 ≤ 0 ∨ (4 + 2 - 1) % 4 = 0 ∧ 0 < 4
  exact Or.inl rfl

/-- A range of one element is inserted before the last of two, and the last cannot
be moved to its new slot: the cleanup starts inside the block it ends at. -/
theorem not_insertMiddle_holds :
    Sound .fours false (oneBlock .fours 100 0 2 5)
      ∧ ¬ (privInsertMiddleAuxImpl .fours .parts (throwingAt 0) 1 (.range [7])
        (oneBlock .fours 100 0 2 5)).Meets (fun _ _ => False)
        (Holds .fours false (oneBlock .fours 100 0 2 5)
          (ownSlots .fours (oneBlock .fours 100 0 2 5))) := by
  have hs : Sound .fours false (oneBlock .fours 100 0 2 5) := sound_fours (by decide) (by decide)
  refine ⟨hs, fun h => ?_⟩
  have hkept := (@insertMiddle_back_iff _ _ .parts (throwingAt 0) _ (oneBlock .fours 100 0 2 5) hs
    (.range [7]) 1 0 (by decide) (by decide) (by decide) rfl rfl).mp h
  revert hkept
  show ¬ (false = true ∨ false = true ∨ 1 ≤ 0 ∨ (4 + 2 - 1) % 4 = 0 ∧ 0 < 4)
  decide

end DequeImpl
