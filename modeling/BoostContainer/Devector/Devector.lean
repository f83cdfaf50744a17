import BoostContainer.Lib.SlotCells

/-!
# A devector and its buffer

A devector keeps its elements anywhere in its buffer, so that there may be raw
slots before the first element and after the last one. Two indices say where
the elements are; the buffer, the indices and the capacity are the object of
the programs, and an iterator is an address. A devector without capacity has
no buffer.

Assigning overwrites the buffer from its start: elements are constructed in
the raw slots there, assigned to where there are some, and constructed again
behind them. Two guards hold what was constructed, and what remains of the old
elements is destroyed at the end.
-/

open Slots

namespace Devector

/-- `devector::impl` -/
structure Impl where
  buffer : ℕ
  frontIdx : ℕ
  backIdx : ℕ
  capacity : ℕ
  deriving DecidableEq

variable {α : Type*}

namespace Impl

variable (m : Impl)

/-- `priv_raw_begin` -/
def rawBegin : ℕ := m.buffer + m.frontIdx

/-- `priv_raw_end` -/
def rawEnd : ℕ := m.buffer + m.backIdx

/-- `size` -/
def size : ℕ := m.backIdx - m.frontIdx

/-- `front_free_capacity` -/
def frontFreeCapacity : ℕ := m.frontIdx

/-- `back_free_capacity` -/
def backFreeCapacity : ℕ := m.capacity - m.backIdx

/-- The slots of the buffer. -/
def slots : Set ℕ := Set.Ico m.buffer (m.buffer + m.capacity)

/-- The slots with elements. -/
def elements : Set ℕ := Set.Ico m.rawBegin m.rawEnd

/-- `invariants_ok`, and that there is a buffer only where there is capacity. -/
structure Sound : Prop where
  front_le : m.frontIdx ≤ m.backIdx
  back_le : m.backIdx ≤ m.capacity
  null_iff : m.buffer = 0 ↔ m.capacity = 0

end Impl

/-- **A devector has given elements**, in its buffer and nowhere else. Since a state `s₀`
no slots were touched but `S₀` and what was allocated, and the ledger was kept. -/
structure Contains (e : Env α) (s₀ : State Impl α) (S₀ : Set ℕ) (m : Impl) (xs : List α)
    (s : State Impl α) : Prop where
  sound : m.Sound
  length_eq : xs.length = m.size
  owns : Owns e.trivialDestructor s₀ S₀ m m.slots m.elements s
  list : At (cells s.heap) m.rawBegin xs

/-- **A devector with given elements**, at the start of a call. -/
def Valid (e : Env α) (s : State Impl α) (xs : List α) : Prop :=
  Contains e s s.object.slots s.object xs s

/-- A devector with given elements, with room before and after them. -/
def ofList (front : ℕ) (xs : List α) (back : ℕ) : State Impl α :=
  State.start
    (fun q => if 1 ≤ q ∧ q < 1 + (front + xs.length + back) then
      some ⟨0, if 1 + front ≤ q then xs[q - (1 + front)]? else none⟩ else none)
    ⟨1, front, front + xs.length, front + xs.length + back⟩

variable {e : Env α} {s₀ s t : State Impl α} {S₀ : Set ℕ} {m : Impl} {xs vs : List α}
  {srcs : List (Source α)} {front back pos stop n p r : ℕ} {c : Cells α} {src : Source α}

theorem Impl.Sound.rawEnd_eq (h : m.Sound) : m.rawEnd = m.rawBegin + m.size := by
  have hle := h.front_le
  unfold Impl.rawEnd Impl.rawBegin Impl.size
  omega

theorem Impl.Sound.elements_sub (h : m.Sound) : m.elements ⊆ m.slots := by
  refine Set.Ico_subset_Ico (Nat.le_add_right _ _) ?_
  exact Nat.add_le_add_left h.back_le _

theorem Contains.valid (h : Contains e s₀ S₀ m xs s) : Valid e s xs := by
  have hobj := h.owns.object_eq
  unfold Valid
  rw [hobj]
  exact ⟨h.sound, h.length_eq, h.owns.restart, h.list⟩

theorem valid_ofList (e : Env α) (front : ℕ) (xs : List α) (back : ℕ)
    (hpos : 0 < front + xs.length + back) : Valid e (ofList front xs back) xs := by
  have hheap : ∀ q, 1 ≤ q → q < 1 + (front + xs.length + back) → (ofList front xs back).heap q
      = some ⟨0, if 1 + front ≤ q then xs[q - (1 + front)]? else none⟩ :=
    fun q hq hq' => if_pos ⟨hq, hq'⟩
  have hsound : (ofList front xs back).object.Sound :=
    ⟨Nat.le_add_right _ _, Nat.le_add_right _ _, iff_of_false one_ne_zero hpos.ne'⟩
  refine ⟨hsound, (Nat.add_sub_cancel_left _ _).symm, ⟨rfl, Heap.Exchange.refl _ _,
    hsound.elements_sub, ?_, ?_, ?_, fun _ _ => rfl⟩, fun j hj => ?_⟩
  · rintro q ⟨hq, hq'⟩
    rw [hheap q hq hq']
    exact Option.some_ne_none _
  · rintro q ⟨hq, hq'⟩
    have hq₁ : 1 + front ≤ q := hq
    have hq₂ : q < 1 + (front + xs.length) := hq'
    rw [shape, hheap q (by omega) (by omega), if_pos hq₁, List.getElem?_eq_getElem (by omega)]
    rfl
  · rintro - q ⟨hq, hq'⟩ hl
    have hq₁ : 1 ≤ q := hq
    have hq₂ : q < 1 + (front + xs.length + back) := hq'
    have hout : q < 1 + front ∨ 1 + (front + xs.length) ≤ q := by
      by_contra hin
      exact hl ⟨by show 1 + front ≤ q; omega, by show q < 1 + (front + xs.length); omega⟩
    rw [shape, hheap q hq₁ hq₂]
    rcases hout with hout | hout
    · rw [if_neg (by omega)]
      rfl
    · rw [if_pos (by omega), List.getElem?_eq_none (by omega)]
      rfl
  · show ((ofList front xs back).heap (1 + front + j)).bind Slot.element = _
    rw [hheap _ (by omega) (by omega), if_pos (Nat.le_add_right _ _), Nat.add_sub_cancel_left]
    rfl

/-! ## Overwriting the buffer -/

section Overwrite

variable (e)

/-- `destroy_elements` -/
def destroyElements (b stop : ℕ) : Prog (State Impl α) Unit := destroyN e b (stop - b)

/-- A loop that constructs elements, and the `construction_guard` that is extended in it.
It stops where there are no more sources, or no more slots, and returns the slot. -/
def constructLoop (back pos stop : ℕ) : List (Source α) → Prog (State Impl α) ℕ
  | [] => pure pos
  | src :: srcs =>
    if pos ≠ stop then do
      (construct e pos src).onThrow (destroyN e back (pos - back))
      constructLoop back (pos + 1) stop srcs
    else pure pos

/-- A loop that assigns to elements. -/
def assignLoop (pos stop : ℕ) : List (Source α) → Prog (State Impl α) ℕ
  | [] => pure pos
  | src :: srcs =>
    if pos ≠ stop then do
      assign e pos src
      assignLoop (pos + 1) stop srcs
    else pure pos

/-- **`overwrite_buffer_impl`**, for elements that have to be destroyed. It returns how many
sources found a place. -/
def overwriteBufferImpl (srcs : List (Source α)) : Prog (State Impl α) ℕ := do
  let m ← object
  let pos ← constructLoop e m.buffer m.buffer m.rawBegin srcs
  let frontGuard := destroyN e m.buffer (pos - m.buffer)
  let pos ← (assignLoop e pos m.rawEnd (srcs.drop (pos - m.buffer))).onThrow frontGuard
  let capacityEnd := m.buffer + m.capacity
  let pos ← (constructLoop e pos pos capacityEnd (srcs.drop (pos - m.buffer))).onThrow frontGuard
  let destroyAfter := min (max m.rawBegin pos) m.rawEnd
  destroyElements e destroyAfter m.rawEnd
  setObject fun m => { m with frontIdx := 0, backIdx := pos - m.buffer }
  pure (pos - m.buffer)

end Overwrite

/-! ## What the loops do -/

section Loops

theorem constructLoop_eq (h : pos ≤ stop) :
    constructLoop e back pos stop srcs = (do
      uninitializedCopyLoop e back pos (srcs.take (min srcs.length (stop - pos)))
      pure (pos + min srcs.length (stop - pos))) := by
  induction srcs generalizing pos with
  | nil =>
    rw [List.take_nil, List.length_nil, Nat.zero_min, Nat.add_zero]
    rfl
  | cons src srcs ih =>
    unfold constructLoop
    by_cases hpos : pos = stop
    · subst hpos
      rw [Nat.sub_self, Nat.min_zero, List.take_zero, Nat.add_zero, if_neg (not_not_intro rfl)]
      rfl
    · have hmin : min (src :: srcs).length (stop - pos)
          = min srcs.length (stop - (pos + 1)) + 1 := by
        rw [List.length_cons]
        omega
      have hnext : pos + (min srcs.length (stop - (pos + 1)) + 1)
          = pos + 1 + min srcs.length (stop - (pos + 1)) := by omega
      rw [if_pos hpos, hmin, List.take_succ_cons, hnext, ih (by omega), uninitializedCopyLoop,
        Prog.bind_assoc]

theorem assignLoop_eq (h : pos ≤ stop) :
    assignLoop e pos stop srcs = (do
      copy e pos (srcs.take (min srcs.length (stop - pos)))
      pure (pos + min srcs.length (stop - pos))) := by
  induction srcs generalizing pos with
  | nil =>
    rw [List.take_nil, List.length_nil, Nat.zero_min, Nat.add_zero]
    rfl
  | cons src srcs ih =>
    unfold assignLoop
    by_cases hpos : pos = stop
    · subst hpos
      rw [Nat.sub_self, Nat.min_zero, List.take_zero, Nat.add_zero, if_neg (not_not_intro rfl)]
      rfl
    · have hmin : min (src :: srcs).length (stop - pos)
          = min srcs.length (stop - (pos + 1)) + 1 := by
        rw [List.length_cons]
        omega
      have hnext : pos + (min srcs.length (stop - (pos + 1)) + 1)
          = pos + 1 + min srcs.length (stop - (pos + 1)) := by omega
      rw [if_pos hpos, hmin, List.take_succ_cons, hnext, ih (by omega), copy, Prog.bind_assoc]

variable {own live : Set ℕ} (hs : Steady srcs) (hr : ∀ src ∈ srcs, src.Readable live)

include hs hr

/-- **Elements are constructed**, as many as there are, or as there is room for, or none. -/
theorem constructLoop_meets (h : pos ≤ stop) (hin : Set.Ico pos stop ⊆ own)
    (hd : Disjoint live (Set.Ico pos (pos + min srcs.length (stop - pos)))) :
    Prog.Meets (Holds e.trivialDestructor s₀ S₀ m own live c) (constructLoop e pos pos stop srcs)
      (fun p s => p = pos + min srcs.length (stop - pos)
        ∧ Holds e.trivialDestructor s₀ S₀ m own (live ∪ Set.Ico pos p)
          (fillCells pos (srcs.take (min srcs.length (stop - pos))) c) s)
      (Owns e.trivialDestructor s₀ S₀ m own live) := by
  have hlen : (srcs.take (min srcs.length (stop - pos))).length = min srcs.length (stop - pos) :=
    List.length_take_of_le (Nat.min_le_left _ _)
  have hm := @uninitializedCopy_meets Impl α e s₀ S₀ own live m pos
    (srcs.take (min srcs.length (stop - pos)))
    ((Set.Ico_subset_Ico le_rfl (by omega)).trans hin) (hlen.symm ▸ hd)
    (fun src hsrc => hr src (List.mem_of_mem_take hsrc))
  rw [hlen] at hm
  rw [constructLoop_eq h]
  exact Prog.Meets.bind (meets_holds hm (turns_uninitializedFill (hs.take _)))
    (fun _ => Prog.meets_pure (fun s h => ⟨rfl, h⟩))

/-- **Elements are assigned to**, as many as there are sources, or elements. -/
theorem assignLoop_meets (h : pos ≤ stop)
    (hin : Set.Ico pos (pos + min srcs.length (stop - pos)) ⊆ live) :
    Prog.Meets (Holds e.trivialDestructor s₀ S₀ m own live c) (assignLoop e pos stop srcs)
      (fun p s => p = pos + min srcs.length (stop - pos)
        ∧ Holds e.trivialDestructor s₀ S₀ m own live
          (fillCells pos (srcs.take (min srcs.length (stop - pos))) c) s)
      (Owns e.trivialDestructor s₀ S₀ m own live) := by
  have hlen : (srcs.take (min srcs.length (stop - pos))).length = min srcs.length (stop - pos) :=
    List.length_take_of_le (Nat.min_le_left _ _)
  have hm := @copy_meets Impl α e e.trivialDestructor s₀ S₀ own live m pos
    (srcs.take (min srcs.length (stop - pos))) (hlen.symm ▸ hin)
    (fun src hsrc => hr src (List.mem_of_mem_take hsrc))
  rw [assignLoop_eq h]
  exact Prog.Meets.bind (meets_holds hm (turns_fill (hs.take _)))
    (fun _ => Prog.meets_pure (fun s h => ⟨rfl, h⟩))

end Loops

/-- What a guard holds is destroyed, and the elements are what they were. -/
theorem guard_meets {own live : Set ℕ} (hd : Disjoint live (Set.Ico p (p + n))) :
    Prog.Meets (Owns e.trivialDestructor s₀ S₀ m own (live ∪ Set.Ico p (p + n)))
      (destroyN e p n) (fun _ => Owns e.trivialDestructor s₀ S₀ m own live) (fun _ => False) :=
  (destroyN_meets Set.subset_union_right).post
    (fun _ _ h => h.congr rfl (by rw [Set.union_sdiff_right, hd.sdiff_eq_left]))

/-- **The buffer is overwritten** from its start, as far as it goes; if this throws, there
are as many elements as there were, where they were. -/
theorem overwriteBufferImpl_meets (hm : m.Sound) (hs : ∀ src ∈ srcs, src.External) :
    Prog.Meets (Holds e.trivialDestructor s₀ S₀ m m.slots m.elements c)
      (overwriteBufferImpl e srcs)
      (fun n s => n = min srcs.length m.capacity
        ∧ HoldsOn e.trivialDestructor s₀ S₀ { m with frontIdx := 0, backIdx := n } m.slots
          (Set.Ico m.buffer (m.buffer + n)) (fillCells m.buffer (srcs.take n) c) s)
      (Owns e.trivialDestructor s₀ S₀ m m.slots m.elements) := by
  obtain ⟨hfront, hback, -⟩ := hm
  have hst : ∀ n, Steady (srcs.drop n) :=
    fun n => Or.inl (fun src hsrc => hs src (List.mem_of_mem_drop hsrc))
  have hread : ∀ (n : ℕ) (live : Set ℕ), ∀ src ∈ srcs.drop n, src.Readable live :=
    fun n live src hsrc => (hs src (List.mem_of_mem_drop hsrc)).readable
  have hbegin : m.rawBegin = m.buffer + m.frontIdx := rfl
  have hend : m.rawEnd = m.buffer + m.backIdx := rfl
  have helems : m.elements = Set.Ico (m.buffer + m.frontIdx) (m.buffer + m.backIdx) := rfl
  have hslots : m.slots = Set.Ico m.buffer (m.buffer + m.capacity) := rfl
  unfold overwriteBufferImpl
  refine meets_object_bind (Prog.Meets.bind (constructLoop_meets (hst 0) (hread 0 _) (by omega)
    (Set.Ico_subset_Ico le_rfl (by omega)) (Set.disjoint_left.mpr (fun q hq hq' => ?_)))
    (fun p => Prog.Meets.of_pre (fun hp => ?_)))
  · rw [helems, Set.mem_Ico] at hq
    rw [Set.mem_Ico] at hq'
    omega
  rw [hbegin, Nat.add_sub_cancel_left] at hp ⊢
  obtain ⟨l, hl⟩ : ∃ l, l = min srcs.length m.frontIdx := ⟨_, rfl⟩
  rw [← hl] at hp ⊢
  subst hp
  have hguard : Disjoint m.elements (Set.Ico m.buffer (m.buffer + l)) := by
    refine Set.disjoint_left.mpr (fun q hq hq' => ?_)
    rw [helems, Set.mem_Ico] at hq
    rw [Set.mem_Ico] at hq'
    omega
  have hlen : (srcs.drop l).length = srcs.length - l := List.length_drop
  rw [Nat.add_sub_cancel_left]
  refine Prog.Meets.bind (Prog.Meets.onThrow (assignLoop_meets (hst l) (hread l _) (by omega)
    (fun q hq => Or.inl ?_)) (guard_meets hguard)) (fun p => Prog.Meets.of_pre (fun hp => ?_))
  · rw [hlen, Set.mem_Ico] at hq
    rw [helems, Set.mem_Ico]
    omega
  obtain ⟨k, hk⟩ : ∃ k, k = min (srcs.length - l) (m.rawEnd - (m.buffer + l)) := ⟨_, rfl⟩
  rw [hlen, ← hk] at hp ⊢
  subst hp
  have hpos : m.buffer + l + k - m.buffer = l + k := by omega
  have hlen' : (srcs.drop (l + k)).length = srcs.length - (l + k) := List.length_drop
  rw [fillCells_take (Or.inl hs) (by omega), hpos]
  refine Prog.Meets.bind (Prog.Meets.onThrow (constructLoop_meets (hst (l + k)) (hread (l + k) _)
    (by omega) (Set.Ico_subset_Ico (by omega) le_rfl)
    (Set.disjoint_left.mpr (fun q hq hq' => ?_))) (guard_meets hguard))
    (fun p => Prog.Meets.of_pre (fun hp => ?_))
  · rw [Set.mem_union, helems, Set.mem_Ico, Set.mem_Ico] at hq
    rw [hlen', Set.mem_Ico] at hq'
    omega
  obtain ⟨j, hj⟩ : ∃ j, j = min (srcs.length - (l + k))
      (m.buffer + m.capacity - (m.buffer + l + k)) := ⟨_, rfl⟩
  rw [hlen', ← hj] at hp ⊢
  subst hp
  have hall : l + k + j = min srcs.length m.capacity := by omega
  have hassoc : m.buffer + l + k = m.buffer + (l + k) := Nat.add_assoc _ _ _
  have hpos' : m.buffer + (l + k) + j - m.buffer = l + k + j := by omega
  rw [hassoc, fillCells_take (Or.inl hs) (by omega)]
  refine Prog.Meets.bind (Prog.Meets.no_throw (meets_holds (destroyN_meets (fun q hq => ?_))
    turns_destroyN)) (fun _ => Prog.Meets.bind meets_setHolder (fun _ =>
      Prog.meets_pure (fun s hs' => ?_)))
  · rw [Set.mem_Ico] at hq
    simp only [Set.mem_union, helems, Set.mem_Ico]
    omega
  · rw [hpos'] at hs' ⊢
    refine ⟨hall, hs'.on.congr ?_ (fun q hq => ?_)⟩
    · ext q
      simp only [Set.mem_union, Set.mem_sdiff, helems, Set.mem_Ico]
      omega
    · rw [Set.mem_Ico] at hq
      exact clearCells_of_notMem (by omega)

/-- Elements that throw are as many as before, with the values they have then. -/
theorem contains_of_owns (hm : m.Sound) (hlen : xs.length = m.size)
    (h : Owns e.trivialDestructor s₀ S₀ m m.slots m.elements s) :
    ∃ ys, ys.length = xs.length ∧ Contains e s₀ S₀ m ys s := by
  have hsub : Set.Ico m.rawBegin (m.rawBegin + m.size) ⊆ m.elements := by
    rw [← hm.rawEnd_eq]
    exact subset_rfl
  obtain ⟨ys, hys, hlist⟩ := h.exists_at hsub
  exact ⟨ys, hys.trans hlen.symm, hm, hys, h, hlist⟩

/-- Elements with destructors, and calls that do not throw. -/
def keeping : Env ℕ where
  fuse := none
  refusal := none
  address _ _ := none
  moved x := x
  trivialDestructor := false

end Devector
