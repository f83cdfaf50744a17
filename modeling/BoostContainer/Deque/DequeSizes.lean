import BoostContainer.Deque.DequeBase
import BoostContainer.Lib.Word
import BoostContainer.Lib.Run

/-!
# The numbers that a deque stores

`m_map_size` and the two offsets are kept in `stored_size_type`, computed in
`size_type`, and limited by `test_size_against_n_nodes`. All of these have a
width, so the functions that write them are given an arithmetic here: that of
the machine, or that of numbers. What a deque stores is right where both
compute the same.

The functions are those of `deque_base` that write the three numbers. What
they do with nodes and elements is left out (`DequeBase` has it): an allocator
only answers whether it grants the map, and the nodes, that it is asked for.
-/

namespace DequeImpl

/-- **An arithmetic** for sizes. -/
structure SizeArith where
  /-- A value of `size_type`. -/
  size : ℕ → ℕ
  /-- A difference in `size_type`. -/
  sub : ℕ → ℕ → ℕ
  /-- A cast to `stored_size_type`. -/
  stored : ℕ → ℕ
  /-- `test_size_against_max` throws. -/
  refuses : ℕ → Bool

namespace SizeArith

/-- **What the machine computes**, with `size_type` of `W` bits. -/
def machine (o : Options) (W : ℕ) : SizeArith where
  size v := v % 2 ^ W
  sub := Word.sub W
  stored := o.stored
  refuses n := o.maxSize < n

/-- **The mathematical values**: nothing wraps, and nothing is refused. -/
def exact : SizeArith where
  size v := v
  sub a b := a - b
  stored v := v
  refuses _ := false

end SizeArith

/-- **What a deque stores** of its map. -/
structure Sizes where
  /-- Whether `m_map` is not null. -/
  mapped : Bool
  /-- `m_map_size` -/
  mapSize : ℕ
  /-- `m_start_off` -/
  startOff : ℕ
  /-- `m_finish_off` -/
  finishOff : ℕ
  deriving DecidableEq

/-- **How a call ends**: `length_error` is told from an exception of the allocator. -/
inductive SizesResult where
  | returned (m : Sizes)
  | lengthError (m : Sizes)
  | outOfMemory (m : Sizes)
  deriving DecidableEq

/-- What a call leaves. -/
def SizesResult.sizes : SizesResult → Sizes
  | returned m | lengthError m | outOfMemory m => m

/-- Whether the allocator grants the map, and the nodes. -/
structure Grants where
  map : Bool
  nodes : Bool

namespace Sizes

variable (A : SizeArith) (o : Options) (g : Grants)

/-- `prot_start_node` -/
def startNode (m : Sizes) : ℕ := m.startOff / o.blockSize

/-- `prot_finish_node` -/
def finishNode (m : Sizes) : ℕ := m.finishOff / o.blockSize

/-- `set_start_off` -/
def setStartOff (v : ℕ) (m : Sizes) : Sizes :=
  if o.singleEnded then m else { m with startOff := A.stored v }

/-- `prot_start_update_node` -/
def startUpdateNode (newStart : ℕ) (m : Sizes) : Sizes :=
  m.setStartOff A o
    (A.stored (A.size (A.stored (A.size (newStart * o.blockSize)) + m.startOff % o.blockSize)))

/-- `prot_finish_update_node` -/
def finishUpdateNode (newFinish : ℕ) (m : Sizes) : Sizes :=
  { m with finishOff :=
      A.stored (A.size (A.stored (A.size (newFinish * o.blockSize)) + m.finishOff % o.blockSize)) }

/-- `test_size_against_n_nodes`, and what comes after it. -/
def testSizeAgainstNNodes (nNodes : ℕ) (m : Sizes) (rest : SizesResult) : SizesResult :=
  if A.refuses (A.sub (A.size (nNodes * o.blockSize)) 1) then .lengthError m else rest

/-- `prot_allocate_map`, and what comes after it. -/
def allocateMap (m : Sizes) (rest : SizesResult) : SizesResult :=
  if g.map then rest else .outOfMemory m

/-- `prot_allocate_nodes`, and what comes after it; `m` is left when it throws. -/
def allocateNodes (m : Sizes) (rest : SizesResult) : SizesResult :=
  if g.nodes then rest else .outOfMemory m

/-- The spare places of `prot_initialize_map_and_nodes`. -/
def spareNodes : ℕ :=
  if o.reservable then 0 else 1 + if o.singleEnded then 0 else 1

/-- **`prot_initialize_map_and_nodes`** -/
def protInitializeMapAndNodes (numElements : ℕ) (m : Sizes) : SizesResult :=
  let numNodes := A.size (numElements / o.blockSize + 1)
  let mapSize := max initialMapSize (A.size (numNodes + spareNodes o))
  let startMapPos := if o.singleEnded then 0 else A.sub mapSize numNodes / 2
  testSizeAgainstNNodes A o mapSize m <| allocateMap g m <|
    allocateNodes g { m with mapped := false, mapSize := 0 } <|
      let m₁ := setStartOff A o (A.stored (A.size (startMapPos * o.blockSize)))
        { m with mapped := true, mapSize := A.stored mapSize }
      .returned { m₁ with finishOff := A.stored (A.size (m₁.startOff + numElements)) }

/-- The nodes for new elements. -/
def additionalNodes (newElems : ℕ) : ℕ := A.size (A.sub newElems 1 / o.blockSize + 1)

/-- `priv_new_offset`, of a double-ended deque. -/
def privNewOffset (addAtFront : Bool) (mapSize activeNodes additionalNodes : ℕ) : ℕ :=
  A.size (A.sub mapSize activeNodes / 2 + if addAtFront then additionalNodes else 0)

/-- `prot_reallocate_map_and_nodes`, reservable and single-ended. -/
def reallocateReservableSingleEnded (newElems : ℕ) (m : Sizes) : SizesResult :=
  let newActiveNodes := A.size (m.mapSize + additionalNodes A o newElems)
  let newMapSize := max (A.size (m.mapSize + m.mapSize / 2)) (A.size (newActiveNodes + 2))
  testSizeAgainstNNodes A o newMapSize m <| allocateMap g m <| allocateNodes g m <|
    .returned { m with mapSize := A.stored newMapSize }

/-- `prot_reallocate_map_and_nodes`, not reservable and single-ended. -/
def reallocateSingleEnded (newElems : ℕ) (m : Sizes) : SizesResult :=
  let additional := additionalNodes A o newElems
  let oldActiveNodes := A.size (m.finishNode o + 1)
  let unusedSlots := A.sub m.mapSize oldActiveNodes
  if additional > unusedSlots then
    let newActiveNodes := A.size (oldActiveNodes + additional)
    let newMapSize := max (A.size (m.mapSize * 2)) (A.size (newActiveNodes + 2))
    testSizeAgainstNNodes A o newMapSize m <| allocateMap g m <|
      let m₁ := { m with mapSize := A.stored newMapSize }
      allocateNodes g m₁ (.returned m₁)
  else allocateNodes g m (.returned m)

/-- `prot_reallocate_map_and_nodes`, reservable and double-ended. -/
def reallocateReservable (newElems : ℕ) (addAtFront : Bool) (m : Sizes) : SizesResult :=
  let nextFinishNode := m.finishNode o + 1
  let oldActiveNodes := A.sub nextFinishNode (m.startNode o)
  let additional := additionalNodes A o newElems
  let unusedSlots := if addAtFront then m.startNode o else A.sub m.mapSize nextFinishNode
  let newActiveNodes := A.size (additional + unusedSlots + oldActiveNodes)
  let moved (m₁ : Sizes) (newNstart : ℕ) : Sizes :=
    (m₁.startUpdateNode A o newNstart).finishUpdateNode A o
      (A.size (newNstart + A.sub oldActiveNodes 1))
  if m.mapSize / 3 ≥ newActiveNodes / 2 then
    .returned (moved m (privNewOffset A addAtFront m.mapSize newActiveNodes
      (A.size (additional + unusedSlots))))
  else
    let newMapSize := max (A.size (m.mapSize + m.mapSize / 2)) (A.size (newActiveNodes + 1))
    testSizeAgainstNNodes A o newMapSize m <| allocateMap g m <| allocateNodes g m <|
      .returned (moved { m with mapSize := A.stored newMapSize }
        (privNewOffset A addAtFront newMapSize newActiveNodes (A.size (additional + unusedSlots))))

/-- `prot_reallocate_map_and_nodes`, not reservable and double-ended. -/
def reallocateDoubleEnded (newElems : ℕ) (addAtFront : Bool) (m : Sizes) : SizesResult :=
  let additional := additionalNodes A o newElems
  let unusedSlots :=
    if addAtFront then m.startNode o else A.sub (A.sub m.mapSize 1) (m.finishNode o)
  let oldActiveNodes := A.sub (m.finishNode o + 1) (m.startNode o)
  let moved (m₁ : Sizes) (newNstart : ℕ) : Sizes :=
    (m₁.startUpdateNode A o newNstart).finishUpdateNode A o
      (A.size (newNstart + A.sub oldActiveNodes 1))
  if additional > unusedSlots then
    let newActiveNodes := A.size (oldActiveNodes + additional)
    if m.mapSize / 2 ≥ newActiveNodes then
      let m₁ := moved m (privNewOffset A addAtFront m.mapSize newActiveNodes additional)
      allocateNodes g m₁ (.returned m₁)
    else
      let newMapSize := max (A.size (m.mapSize * 2)) (A.size (newActiveNodes + 1))
      testSizeAgainstNNodes A o newMapSize m <| allocateMap g m <|
        let m₁ := moved { m with mapSize := A.stored newMapSize }
          (privNewOffset A addAtFront newMapSize newActiveNodes additional)
        allocateNodes g m₁ (.returned m₁)
  else allocateNodes g m (.returned m)

/-- `prot_front_free_capacity` -/
def frontFreeCapacity (m : Sizes) : ℕ :=
  if o.reservable then m.startOff else m.startOff % o.blockSize

/-- `prot_back_free_capacity` -/
def backFreeCapacity (m : Sizes) : ℕ :=
  if o.reservable then
    A.sub (A.sub (A.size (m.mapSize * o.blockSize)) (if m.mapped then 1 else 0)) m.finishOff
  else if m.mapped then (o.blockSize - 1) - m.finishOff % o.blockSize else 0

/-- What is done to the sizes where a call returned. -/
def andThen (f : Sizes → Sizes) : SizesResult → SizesResult
  | .returned m => .returned (f m)
  | r => r

/-- **`priv_reserve_elements_at_front`** -/
def privReserveElementsAtFront (n : ℕ) (m : Sizes) : SizesResult :=
  let vacancies := m.frontFreeCapacity o
  if n > vacancies then
    if m.mapped then
      if o.reservable then reallocateReservable A o g (A.sub n vacancies) true m
      else reallocateDoubleEnded A o g (A.sub n vacancies) true m
    else
      andThen (fun m₁ => m₁.setStartOff A o m₁.finishOff) (protInitializeMapAndNodes A o g n m)
  else .returned m

/-- **`priv_reserve_elements_at_back`** -/
def privReserveElementsAtBack (n : ℕ) (m : Sizes) : SizesResult :=
  let vacancies := m.backFreeCapacity A o
  if n > vacancies then
    if m.mapped then
      if o.reservable then
        if o.singleEnded then reallocateReservableSingleEnded A o g (A.sub n vacancies) m
        else reallocateReservable A o g (A.sub n vacancies) false m
      else
        if o.singleEnded then reallocateSingleEnded A o g (A.sub n vacancies) m
        else reallocateDoubleEnded A o g (A.sub n vacancies) false m
    else
      andThen (fun m₁ => { m₁ with finishOff := m₁.startOff }) (protInitializeMapAndNodes A o g n m)
  else .returned m

end Sizes

/-- **The functions that write what a deque stores.** Every operation of a deque
is made of calls of these. -/
inductive SizesCall where
  /-- `prot_initialize_map_and_nodes`, of a constructor. -/
  | construct (n : ℕ)
  | reserveFront (n : ℕ)
  | reserveBack (n : ℕ)
  /-- `prot_inc_finish` -/
  | incFinish (n : ℕ)
  /-- `prot_dec_finish` -/
  | decFinish (n : ℕ)
  /-- `inc_start` -/
  | incStart (n : ℕ)
  /-- `dec_start` -/
  | decStart (n : ℕ)
  /-- `prot_reset_finish_to_start` -/
  | resetFinishToStart
  /-- `prot_clear_map` -/
  | clearMap

namespace SizesCall

def run (A : SizeArith) (o : Options) (g : Grants) : SizesCall → Sizes → SizesResult
  | construct n, m => m.protInitializeMapAndNodes A o g n
  | reserveFront n, m => m.privReserveElementsAtFront A o g n
  | reserveBack n, m => m.privReserveElementsAtBack A o g n
  | incFinish n, m => .returned { m with finishOff := A.stored (A.size (m.finishOff + n)) }
  | decFinish n, m => .returned { m with finishOff := A.stored (A.sub m.finishOff n) }
  | incStart n, m => .returned (m.setStartOff A o (A.size (m.startOff + n)))
  | decStart n, m => .returned (m.setStartOff A o (A.sub m.startOff n))
  | resetFinishToStart, m => .returned { m with finishOff := m.startOff }
  | clearMap, m =>
    if m.mapped then
      .returned { (m.setStartOff A o 0) with mapped := false, mapSize := 0, finishOff := 0 }
    else .returned m

end SizesCall

variable {o : Options} {W : ℕ} {g : Grants} {m m₁ : Sizes} {n v M b c d : ℕ}

/-! ## What does not wrap -/

theorem machine_size (h : v < 2 ^ W) : (SizeArith.machine o W).size v = v := Nat.mod_eq_of_lt h

theorem machine_sub {a b : ℕ} (ha : a < 2 ^ W) (h : b ≤ a) :
    (SizeArith.machine o W).sub a b = a - b := Word.sub_of_le ha h

theorem machine_stored (h : v < 2 ^ o.storedBits) : (SizeArith.machine o W).stored v = v :=
  Nat.mod_eq_of_lt h

@[simp] theorem exact_size (v : ℕ) : SizeArith.exact.size v = v := rfl

@[simp] theorem exact_sub (a b : ℕ) : SizeArith.exact.sub a b = a - b := rfl

@[simp] theorem exact_stored (v : ℕ) : SizeArith.exact.stored v = v := rfl

@[simp] theorem exact_refuses (n : ℕ) : SizeArith.exact.refuses n = false := rfl

/-- **A map that is refused**, by the test as the machine makes it. -/
def Refused (o : Options) (W M : ℕ) : Prop := o.maxSize < (M * o.blockSize - 1) % 2 ^ W

instance : Decidable (Refused o W M) := inferInstanceAs (Decidable (_ < _))

/-- **A map whose size is held**, and every offset in it. -/
structure Held (o : Options) (W M : ℕ) : Prop where
  stored : M < 2 ^ o.storedBits
  word : M < 2 ^ W
  offsets : M * o.blockSize ≤ 2 ^ o.storedBits
  size : M * o.blockSize ≤ 2 ^ W

/-- A product less one, as the machine computes it. -/
theorem machine_sub_one (h : 0 < v) :
    (SizeArith.machine o W).sub ((SizeArith.machine o W).size v) 1 = (v - 1) % 2 ^ W := by
  have hpos := Nat.two_pow_pos W
  show (v % 2 ^ W + (2 ^ W - 1 % 2 ^ W)) % 2 ^ W = _
  rw [Nat.mod_add_mod]
  rcases Nat.eq_or_lt_of_le (Nat.succ_le_of_lt hpos) with h1 | h1
  · rw [← h1, Nat.mod_one, Nat.mod_one]
  · rw [Nat.mod_eq_of_lt (a := 1) h1, show v + (2 ^ W - 1) = v - 1 + 2 ^ W by omega,
      Nat.add_mod_right]

/-- **The test of the machine.** -/
theorem testSizeAgainstNNodes_machine (hM : 0 < M) (rest : SizesResult) :
    Sizes.testSizeAgainstNNodes (SizeArith.machine o W) o M m rest
      = if Refused o W M then .lengthError m else rest := by
  have hpos : 0 < M * o.blockSize := Nat.mul_pos hM o.blockSize_pos
  rw [Sizes.testSizeAgainstNNodes, machine_sub_one hpos]
  by_cases h : Refused o W M
  · rw [if_pos h]
    exact if_pos (decide_eq_true h)
  · rw [if_neg h]
    exact if_neg (fun h' => h (of_decide_eq_true h'))

theorem testSizeAgainstNNodes_exact (rest : SizesResult) :
    Sizes.testSizeAgainstNNodes SizeArith.exact o M m rest = rest := rfl

/-- A map that passes the test without a wrap has all its offsets held. -/
theorem offsets_of_not_refused (h : ¬ Refused o W M) (hsize : M * o.blockSize ≤ 2 ^ W) :
    M * o.blockSize ≤ 2 ^ o.storedBits := by
  have hmax : o.maxSize ≤ 2 ^ o.storedBits - 1 := min_le_right _ _
  have hpos := Nat.two_pow_pos o.storedBits
  have hpos' := Nat.two_pow_pos W
  rw [Refused, Nat.mod_eq_of_lt (by omega)] at h
  omega

/-- An offset in a map whose size is held. -/
theorem Held.offset_lt (h : Held o W M) (hn : n < M) :
    n * o.blockSize + v % o.blockSize < 2 ^ o.storedBits
      ∧ n * o.blockSize + v % o.blockSize < 2 ^ W ∧ n * o.blockSize < 2 ^ o.storedBits
      ∧ n * o.blockSize < 2 ^ W := by
  have hmod := Nat.mod_lt v o.blockSize_pos
  have hmul := Nat.mul_le_mul_right o.blockSize (Nat.succ_le_of_lt hn)
  have hoff := h.offsets
  have hsize := h.size
  rw [Nat.succ_mul] at hmul
  exact ⟨by omega, by omega, by omega, by omega⟩

/-! ## The invariant -/

/-- **What is stored is right**: the offsets are in order and in the map, and all
of the numbers are held. -/
structure Sizes.Valid (o : Options) (W : ℕ) (m : Sizes) : Prop where
  start_le : m.startOff ≤ m.finishOff
  null : m.mapped = false → m.mapSize = 0 ∧ m.finishOff = 0
  mapSize_ge : m.mapped = true → initialMapSize ≤ m.mapSize
  finish_lt : m.mapped = true → m.finishOff < m.mapSize * o.blockSize
  held : Held o W m.mapSize
  single : o.singleEnded = true → m.startOff = 0

namespace Sizes

theorem Valid.startNode_le (hv : m.Valid o W) : m.startNode o ≤ m.finishNode o :=
  Nat.div_le_div_right hv.start_le

theorem Valid.finishNode_lt (hv : m.Valid o W) (hm : m.mapped = true) :
    m.finishNode o < m.mapSize :=
  (Nat.div_lt_iff_lt_mul o.blockSize_pos).mpr (hv.finish_lt hm)

/-- The offsets are held. -/
theorem Valid.offsets_lt (hv : m.Valid o W) :
    m.finishOff < 2 ^ o.storedBits ∧ m.finishOff < 2 ^ W := by
  have hpos := Nat.two_pow_pos o.storedBits
  have hpos' := Nat.two_pow_pos W
  have hoff := hv.held.offsets
  have hsize := hv.held.size
  cases hm : m.mapped with
  | false =>
    rw [(hv.null hm).2]
    exact ⟨hpos, hpos'⟩
  | true =>
    have hlt := hv.finish_lt hm
    exact ⟨by omega, by omega⟩

/-- **Nodes at another place**, in a map of size `M`. -/
def movedTo (o : Options) (M b d : ℕ) (m : Sizes) : Sizes :=
  { m with
    mapSize := M
    startOff := b * o.blockSize + m.startOff % o.blockSize
    finishOff := (b + (d - 1)) * o.blockSize + m.finishOff % o.blockSize }

theorem setStartOff_machine (hse : o.singleEnded = false) (h : v < 2 ^ o.storedBits) :
    m.setStartOff (SizeArith.machine o W) o v = { m with startOff := v } := by
  rw [setStartOff, if_neg (by rw [hse]; exact Bool.false_ne_true), machine_stored h]

theorem setStartOff_exact (hse : o.singleEnded = false) :
    m.setStartOff SizeArith.exact o v = { m with startOff := v } := by
  rw [setStartOff, if_neg (by rw [hse]; exact Bool.false_ne_true), exact_stored]

/-- **`prot_start_update_node` and `prot_finish_update_node`** store the offsets of
the nodes at their new place. -/
theorem updateNodes_machine (hse : o.singleEnded = false) (hM : Held o W M) (hd : 0 < d)
    (hb : b + d ≤ M) :
    ({ m with mapSize := M }.startUpdateNode (SizeArith.machine o W) o b).finishUpdateNode
        (SizeArith.machine o W) o (b + (d - 1)) = m.movedTo o M b d := by
  obtain ⟨h₁, h₂, h₃, h₄⟩ := hM.offset_lt (v := m.startOff) (n := b) (by omega)
  obtain ⟨h₅, h₆, h₇, h₈⟩ := hM.offset_lt (v := m.finishOff) (n := b + (d - 1)) (by omega)
  rw [startUpdateNode, machine_size h₄, machine_stored h₃, machine_size h₂, machine_stored h₁,
    setStartOff_machine hse h₁, finishUpdateNode, machine_size h₈, machine_stored h₇,
    machine_size h₆, machine_stored h₅]
  rfl

theorem updateNodes_exact (hse : o.singleEnded = false) :
    ({ m with mapSize := M }.startUpdateNode SizeArith.exact o b).finishUpdateNode
        SizeArith.exact o (b + (d - 1)) = m.movedTo o M b d := by
  rw [startUpdateNode, setStartOff_exact hse, finishUpdateNode]
  rfl

/-- Sizes with nodes at another place are right. -/
theorem Valid.movedTo (hv : m.Valid o W) (hm : m.mapped = true) (hse : o.singleEnded = false)
    (hM : Held o W M) (hge : initialMapSize ≤ M)
    (hb : b + (m.finishNode o + 1 - m.startNode o) ≤ M) :
    (m.movedTo o M b (m.finishNode o + 1 - m.startNode o)).Valid o W := by
  have hle := hv.startNode_le
  have hfr := Nat.mod_lt m.finishOff o.blockSize_pos
  have hsr := Nat.mod_lt m.startOff o.blockSize_pos
  have hs := Nat.div_add_mod m.startOff o.blockSize
  have hf := Nat.div_add_mod m.finishOff o.blockSize
  have hsf := hv.start_le
  refine ⟨?_, fun h => ?_, fun _ => hge, fun _ => ?_, hM, fun h => ?_⟩
  · show b * o.blockSize + _ ≤ (b + _) * o.blockSize + _
    rcases Nat.eq_or_lt_of_le hle with heq | hlt
    · rw [show m.finishNode o + 1 - m.startNode o - 1 = 0 by omega, Nat.add_zero]
      rw [startNode, finishNode] at heq
      rw [heq] at hs
      omega
    · have hmul : (b + 1) * o.blockSize
          ≤ (b + (m.finishNode o + 1 - m.startNode o - 1)) * o.blockSize :=
        Nat.mul_le_mul_right _ (by omega)
      rw [Nat.succ_mul] at hmul
      omega
  · exact absurd (hm.symm.trans h) (by decide)
  · show (b + _) * o.blockSize + _ < M * o.blockSize
    have hmul : (b + (m.finishNode o + 1 - m.startNode o - 1) + 1) * o.blockSize
        ≤ M * o.blockSize := Nat.mul_le_mul_right _ (by omega)
    rw [Nat.succ_mul] at hmul
    omega
  · rw [hse] at h
    exact absurd h Bool.false_ne_true

/-! ## Reallocation -/

/-- **What a call computes**, `m` being what is stored before it: a map that is
refused is refused before anything changes; where the map is held, or none is
asked for, what the machine computes is the mathematical value. -/
structure Computes (o : Options) (W : ℕ) (m : Sizes) (asked : Option ℕ) (r x : SizesResult) :
    Prop where
  refused : ∀ M ∈ asked, Refused o W M → r = .lengthError m
  exact : (∀ M ∈ asked, ¬ Refused o W M ∧ Held o W M) → r = x ∧ x.sizes.Valid o W

/-- A larger map, and nodes for it. -/
theorem computes_grow (hv : m.Valid o W) (hM : 0 < M) {m₀ m₀' m₁ m₁' : Sizes}
    (h₀ : Held o W M → m₀ = m₀' ∧ m₀'.Valid o W) (h₁ : Held o W M → m₁ = m₁' ∧ m₁'.Valid o W) :
    Computes o W m (some M)
      (testSizeAgainstNNodes (SizeArith.machine o W) o M m
        (allocateMap g m (allocateNodes g m₀ (.returned m₁))))
      (allocateMap g m (allocateNodes g m₀' (.returned m₁'))) := by
  refine ⟨fun M' hM' hr => ?_, fun h => ?_⟩
  · obtain rfl : M = M' := Option.some.inj hM'
    rw [testSizeAgainstNNodes_machine hM, if_pos hr]
  · obtain ⟨hr, hh⟩ := h M rfl
    obtain ⟨rfl, hv₀⟩ := h₀ hh
    obtain ⟨rfl, hv₁⟩ := h₁ hh
    rw [testSizeAgainstNNodes_machine hM, if_neg hr]
    refine ⟨rfl, ?_⟩
    unfold allocateMap allocateNodes
    split
    · split
      · exact hv₁
      · exact hv₀
    · exact hv

/-- Nodes for a map that is there. -/
theorem computes_nodes {m₁' : Sizes} (h : m₁ = m₁') (hv : m₁'.Valid o W) :
    Computes o W m none (allocateNodes g m₁ (.returned m₁))
      (allocateNodes g m₁' (.returned m₁')) := by
  subst h
  refine ⟨fun M hM => absurd hM (Option.not_mem_none M), fun _ => ⟨rfl, ?_⟩⟩
  unfold allocateNodes
  split <;> exact hv

/-- The nodes for some elements. -/
theorem additionalNodes_machine (hn : 0 < n) (hlt : n < 2 ^ W) :
    additionalNodes (SizeArith.machine o W) o n = (n - 1) / o.blockSize + 1 := by
  have hle : (n - 1) / o.blockSize ≤ n - 1 := Nat.div_le_self _ _
  rw [additionalNodes, machine_sub (b := 1) hlt hn, machine_size (by omega)]

/-- A larger map with the nodes where they are. -/
theorem Valid.grow (hv : m.Valid o W) (hm : m.mapped = true) (hM : Held o W M)
    (hle : m.mapSize ≤ M) :
    ({ m with mapSize := (SizeArith.machine o W).stored M } : Sizes) = { m with mapSize := M }
      ∧ ({ m with mapSize := M } : Sizes).Valid o W := by
  rw [machine_stored hM.stored]
  exact ⟨rfl, hv.start_le, fun h => absurd (hm.symm.trans h) (by decide),
    fun _ => (hv.mapSize_ge hm).trans hle,
    fun _ => (hv.finish_lt hm).trans_le (Nat.mul_le_mul_right _ hle), hM, hv.single⟩

/-- **Reservable and single-ended.** -/
theorem reallocateReservableSingleEnded_computes (hv : m.Valid o W) (hm : m.mapped = true)
    (hn : 0 < n) (hlt : n < 2 ^ W)
    (hM : M = max (m.mapSize + m.mapSize / 2) (m.mapSize + ((n - 1) / o.blockSize + 1) + 2))
    (hMlt : M < 2 ^ W) :
    Computes o W m (some M) (reallocateReservableSingleEnded (SizeArith.machine o W) o g n m)
      (reallocateReservableSingleEnded SizeArith.exact o g n m) := by
  have hgrow : max (m.mapSize + m.mapSize / 2) (m.mapSize + ((n - 1) / o.blockSize + 1) + 2) = M :=
    hM.symm
  generalize hc : (n - 1) / o.blockSize + 1 = c at hM hgrow
  rw [reallocateReservableSingleEnded, reallocateReservableSingleEnded,
    additionalNodes_machine hn hlt, additionalNodes, hc]
  simp only [exact_size, exact_sub, exact_stored, hc]
  rw [machine_size (v := m.mapSize + c) (by omega), machine_size (by omega),
    machine_size (by omega), hgrow]
  exact computes_grow hv (by omega) (fun _ => ⟨rfl, hv⟩) (fun hh => hv.grow hm hh (by omega))

/-- **Not reservable and single-ended.** -/
theorem reallocateSingleEnded_computes (hv : m.Valid o W) (hm : m.mapped = true) (hn : 0 < n)
    (hlt : n < 2 ^ W) {asked : Option ℕ}
    (hasked : asked = if (n - 1) / o.blockSize + 1 > m.mapSize - (m.finishNode o + 1)
      then some (max (m.mapSize * 2) (m.finishNode o + 1 + ((n - 1) / o.blockSize + 1) + 2))
      else none)
    (hMlt : ∀ M ∈ asked, M < 2 ^ W) :
    Computes o W m asked (reallocateSingleEnded (SizeArith.machine o W) o g n m)
      (reallocateSingleEnded SizeArith.exact o g n m) := by
  have hfin := hv.finishNode_lt hm
  have hms := hv.held.word
  have hadd := additionalNodes_machine (o := o) hn hlt
  generalize hc : (n - 1) / o.blockSize + 1 = c at hasked hadd
  rw [reallocateSingleEnded, reallocateSingleEnded, hadd, additionalNodes]
  simp only [exact_size, exact_sub, exact_stored, hc]
  rw [machine_size (v := m.finishNode o + 1) (by omega),
    machine_sub (a := m.mapSize) hms (by omega)]
  by_cases h : c > m.mapSize - (m.finishNode o + 1)
  · rw [if_pos h] at hasked
    rw [if_pos h, if_pos h]
    subst hasked
    have hM := hMlt _ rfl
    rw [machine_size (v := m.finishNode o + 1 + c) (by omega), machine_size (by omega),
      machine_size (by omega)]
    generalize hgrow : max (m.mapSize * 2) (m.finishNode o + 1 + c + 2) = M at hM
    have hmap := fun hh : Held o W M => hv.grow hm hh (by omega)
    exact computes_grow hv (by omega) hmap hmap
  · rw [if_neg h] at hasked
    rw [if_neg h, if_neg h, hasked]
    exact computes_nodes rfl hv

/-- The place of the active nodes, when they and the others are in the map. -/
theorem privNewOffset_machine {front : Bool} {l active more : ℕ} (hl : l < 2 ^ W)
    (ha : active ≤ l) (hm : more ≤ active) :
    privNewOffset (SizeArith.machine o W) front l active more
      = (l - active) / 2 + if front then more else 0 := by
  rw [privNewOffset, machine_sub hl ha, machine_size]
  split <;> omega

/-- The nodes at their new place, in the map that there is or in a larger one. -/
theorem Valid.updateNodes (hv : m.Valid o W) (hm : m.mapped = true) (hse : o.singleEnded = false)
    (hd : d = m.finishNode o + 1 - m.startNode o) (hM : Held o W M) (hge : initialMapSize ≤ M)
    (hb : b + d ≤ M) :
    ({ m with mapSize := (SizeArith.machine o W).stored M }.startUpdateNode
        (SizeArith.machine o W) o b).finishUpdateNode (SizeArith.machine o W) o
          ((SizeArith.machine o W).size (b + (d - 1)))
      = ({ m with mapSize := M }.startUpdateNode SizeArith.exact o b).finishUpdateNode
          SizeArith.exact o (b + (d - 1))
      ∧ (({ m with mapSize := M }.startUpdateNode SizeArith.exact o b).finishUpdateNode
          SizeArith.exact o (b + (d - 1))).Valid o W := by
  have hle := hv.startNode_le
  have hword := hM.word
  rw [machine_stored hM.stored, machine_size (v := b + (d - 1)) (by omega),
    updateNodes_machine hse hM (by omega) hb, updateNodes_exact hse]
  subst hd
  exact ⟨rfl, hv.movedTo hm hse hM hge hb⟩

/-- **Reservable and double-ended.** -/
theorem reallocateReservable_computes (hv : m.Valid o W) (hm : m.mapped = true)
    (hse : o.singleEnded = false) (hn : 0 < n) (hlt : n < 2 ^ W) {front : Bool} {u : ℕ}
    (hu : u = if front then m.startNode o else m.mapSize - (m.finishNode o + 1))
    (hc : c = (n - 1) / o.blockSize + 1) (hd : d = m.finishNode o + 1 - m.startNode o)
    {asked : Option ℕ}
    (hasked : asked = if m.mapSize / 3 ≥ (c + u + d) / 2 then none
      else some (max (m.mapSize + m.mapSize / 2) (c + u + d + 1)))
    (hMlt : ∀ M ∈ asked, M < 2 ^ W) :
    Computes o W m asked (reallocateReservable (SizeArith.machine o W) o g n front m)
      (reallocateReservable SizeArith.exact o g n front m) := by
  have hle := hv.startNode_le
  have hfin := hv.finishNode_lt hm
  have hms := hv.held.word
  have hge := hv.mapSize_ge hm
  have hadd := additionalNodes_machine (o := o) hn hlt
  rw [initialMapSize] at hge
  rw [← hc] at hadd
  have hu' : (if front = true then m.startNode o
      else (SizeArith.machine o W).sub m.mapSize (m.finishNode o + 1)) = u := by
    rw [machine_sub hms (by omega), hu]
  have hsum : c + u + d < 2 ^ W := by
    by_cases h : m.mapSize / 3 ≥ (c + u + d) / 2
    · omega
    · rw [if_neg h] at hasked
      have hM := hMlt _ hasked
      omega
  rw [reallocateReservable, reallocateReservable, hadd, additionalNodes]
  simp only [exact_size, exact_sub, exact_stored, ← hc, ← hu, ← hd, hu']
  rw [machine_sub (a := m.finishNode o + 1) (by omega) (by omega), ← hd, machine_size hsum,
    machine_size (v := c + u) (by omega), machine_sub (a := d) (b := 1) (by omega) (by omega)]
  by_cases h : m.mapSize / 3 ≥ (c + u + d) / 2
  · rw [if_pos h] at hasked
    rw [if_pos h, if_pos h, hasked, privNewOffset_machine hms (by omega) (by omega), privNewOffset]
    simp only [exact_size, exact_sub]
    obtain ⟨heq, hvalid⟩ := hv.updateNodes (b := (m.mapSize - (c + u + d)) / 2
      + if front = true then c + u else 0) hm hse hd hv.held (hv.mapSize_ge hm) (by split <;> omega)
    rw [machine_stored hv.held.stored] at heq
    exact ⟨fun M hM => absurd hM (Option.not_mem_none M),
      fun _ => ⟨congrArg SizesResult.returned heq, hvalid⟩⟩
  · rw [if_neg h] at hasked
    rw [if_neg h, if_neg h]
    subst hasked
    have hM := hMlt _ rfl
    rw [machine_size (v := m.mapSize + m.mapSize / 2) (by omega),
      machine_size (v := c + u + d + 1) (by omega)]
    generalize hgrow : max (m.mapSize + m.mapSize / 2) (c + u + d + 1) = M at hM
    rw [privNewOffset_machine hM (by omega) (by omega), privNewOffset]
    simp only [exact_size, exact_sub]
    refine computes_grow hv (by omega) (fun _ => ⟨rfl, hv⟩) (fun hh => ?_)
    exact hv.updateNodes hm hse hd hh (by rw [initialMapSize]; omega) (by split <;> omega)

/-- **Not reservable and double-ended.** -/
theorem reallocateDoubleEnded_computes (hv : m.Valid o W) (hm : m.mapped = true)
    (hse : o.singleEnded = false) (hn : 0 < n) (hlt : n < 2 ^ W) {front : Bool} {u : ℕ}
    (hu : u = if front then m.startNode o else m.mapSize - 1 - m.finishNode o)
    (hc : c = (n - 1) / o.blockSize + 1) (hd : d = m.finishNode o + 1 - m.startNode o)
    {asked : Option ℕ}
    (hasked : asked = if c > u then
        if m.mapSize / 2 ≥ d + c then none else some (max (m.mapSize * 2) (d + c + 1))
      else none)
    (hMlt : ∀ M ∈ asked, M < 2 ^ W) :
    Computes o W m asked (reallocateDoubleEnded (SizeArith.machine o W) o g n front m)
      (reallocateDoubleEnded SizeArith.exact o g n front m) := by
  have hle := hv.startNode_le
  have hfin := hv.finishNode_lt hm
  have hms := hv.held.word
  have hge := hv.mapSize_ge hm
  have hadd := additionalNodes_machine (o := o) hn hlt
  rw [initialMapSize] at hge
  rw [← hc] at hadd
  have hu' : (if front = true then m.startNode o
      else (SizeArith.machine o W).sub ((SizeArith.machine o W).sub m.mapSize 1) (m.finishNode o))
        = u := by
    rw [machine_sub (b := 1) hms (by omega), machine_sub (by omega) (by omega), hu]
  rw [reallocateDoubleEnded, reallocateDoubleEnded, hadd, additionalNodes]
  simp only [exact_size, exact_sub, exact_stored, ← hc, ← hu, ← hd, hu']
  rw [machine_sub (a := m.finishNode o + 1) (by omega) (by omega), ← hd,
    machine_sub (a := d) (b := 1) (by omega) (by omega)]
  by_cases h : c > u
  · rw [if_pos h] at hasked
    rw [if_pos h, if_pos h]
    have hsum : d + c < 2 ^ W := by
      by_cases h' : m.mapSize / 2 ≥ d + c
      · omega
      · rw [if_neg h'] at hasked
        have hM := hMlt _ hasked
        omega
    rw [machine_size hsum]
    by_cases h' : m.mapSize / 2 ≥ d + c
    · rw [if_pos h'] at hasked
      rw [if_pos h', if_pos h', hasked, privNewOffset_machine hms (by omega) (by omega),
        privNewOffset]
      simp only [exact_size, exact_sub]
      obtain ⟨heq, hvalid⟩ := hv.updateNodes (b := (m.mapSize - (d + c)) / 2
        + if front = true then c else 0) hm hse hd hv.held (hv.mapSize_ge hm) (by split <;> omega)
      rw [machine_stored hv.held.stored] at heq
      exact computes_nodes heq hvalid
    · rw [if_neg h'] at hasked
      rw [if_neg h', if_neg h']
      subst hasked
      have hM := hMlt _ rfl
      rw [machine_size (v := m.mapSize * 2) (by omega), machine_size (v := d + c + 1) (by omega)]
      generalize hgrow : max (m.mapSize * 2) (d + c + 1) = M at hM
      rw [privNewOffset_machine hM (by omega) (by omega), privNewOffset]
      simp only [exact_size, exact_sub]
      have hmoved := fun hh : Held o W M =>
        hv.updateNodes (b := (M - (d + c)) / 2 + if front = true then c else 0) hm hse hd hh
          (by rw [initialMapSize]; omega) (by split <;> omega)
      exact computes_grow hv (by omega) hmoved hmoved
  · rw [if_neg h] at hasked
    rw [if_neg h, if_neg h, hasked]
    exact computes_nodes rfl hv

/-! ## The first map -/

/-- The places of the first map. -/
def firstMap (o : Options) (n : ℕ) : ℕ :=
  max initialMapSize (n / o.blockSize + 1 + spareNodes o)

theorem spareNodes_le (o : Options) : spareNodes o ≤ 2 := by
  unfold spareNodes
  split
  · omega
  · split <;> omega

theorem andThen_grow {A : SizeArith} {f : Sizes → Sizes} {m₀ : Sizes} :
    andThen f (testSizeAgainstNNodes A o M m (allocateMap g m (allocateNodes g m₀ (.returned m₁))))
      = testSizeAgainstNNodes A o M m
          (allocateMap g m (allocateNodes g m₀ (.returned (f m₁)))) := by
  unfold testSizeAgainstNNodes allocateMap allocateNodes
  split
  · rfl
  · split
    · split <;> rfl
    · rfl

/-- The sizes of a first map, where the elements start at its place `p`. -/
def first (o : Options) (M p n : ℕ) : Sizes :=
  ⟨true, M, p * o.blockSize, p * o.blockSize + n⟩

/-- **The first map**, and what is done once it is there. -/
theorem protInitializeMapAndNodes_computes (hv : m.Valid o W) (hm : m.mapped = false)
    (hlt : firstMap o n < 2 ^ W) {f f' : Sizes → Sizes}
    (hf : ∀ p, (first o (firstMap o n) p n).Valid o W →
      f (first o (firstMap o n) p n) = f' (first o (firstMap o n) p n)
        ∧ (f' (first o (firstMap o n) p n)).Valid o W) :
    Computes o W m (some (firstMap o n))
      (andThen f (protInitializeMapAndNodes (SizeArith.machine o W) o g n m))
      (andThen f' (protInitializeMapAndNodes SizeArith.exact o g n m)) := by
  obtain ⟨hms, hfin⟩ := hv.null hm
  have hstart : m.startOff = 0 := Nat.le_zero.mp (hfin ▸ hv.start_le)
  have hspare := spareNodes_le o
  have hsome : n < (n / o.blockSize + 1) * o.blockSize := by
    rw [Nat.mul_comm]
    exact Nat.lt_mul_div_succ n o.blockSize_pos
  have hbound : n / o.blockSize + 1 + spareNodes o ≤ firstMap o n := le_max_right _ _
  have hpos : 0 < n / o.blockSize + 1 := Nat.succ_pos _
  generalize hc : n / o.blockSize + 1 = c at hbound hsome hpos
  have hl : max initialMapSize (c + spareNodes o) = firstMap o n := by rw [firstMap, hc]
  generalize firstMap o n = M at hbound hl hf hlt
  obtain ⟨p, hp⟩ : ∃ p, p = if o.singleEnded = true then 0 else (M - c) / 2 := ⟨_, rfl⟩
  have hpc : p + c ≤ M := by
    rw [hp]
    split <;> omega
  rw [protInitializeMapAndNodes, protInitializeMapAndNodes, hc]
  simp only [exact_size, exact_sub, exact_stored]
  rw [machine_size (v := c) (by omega), machine_size (v := c + spareNodes o) (by omega), hl,
    machine_sub hlt (by omega), ← hp, andThen_grow, andThen_grow]
  have hnone : ({ m with mapped := false, mapSize := 0 } : Sizes) = m := by
    cases m
    simp only at hm hms
    rw [hm, hms]
  rw [hnone]
  refine computes_grow hv (by omega) (fun _ => ⟨rfl, hv⟩) (fun hh => ?_)
  have hmul := Nat.mul_le_mul_right o.blockSize hpc
  have hoff := hh.offsets
  have hword := hh.size
  rw [Nat.add_mul] at hmul
  -- what is stored is the same with both arithmetics
  have hfirst : ∀ (A : SizeArith), (∀ v, v < M * o.blockSize → A.stored (A.size v) = v) →
      A.stored M = M → A.stored (p * o.blockSize) = p * o.blockSize →
      { (setStartOff A o (A.stored (A.size (p * o.blockSize)))
          { m with mapped := true, mapSize := A.stored M }) with
        finishOff := A.stored (A.size ((setStartOff A o (A.stored (A.size (p * o.blockSize)))
          { m with mapped := true, mapSize := A.stored M }).startOff + n)) } = first o M p n := by
    intro A hA hM hp₀
    rw [hM, hA (p * o.blockSize) (by omega), setStartOff]
    split
    · next hse =>
      rw [if_pos hse] at hp
      show Sizes.mk true M m.startOff (A.stored (A.size (m.startOff + n))) = _
      rw [hstart, Nat.zero_add, hA n (by omega), first, hp, Nat.zero_mul, Nat.zero_add]
    · show Sizes.mk true M (A.stored (p * o.blockSize))
        (A.stored (A.size (A.stored (p * o.blockSize) + n))) = _
      rw [hp₀, hA (p * o.blockSize + n) (by omega)]
      rfl
  have hmachine := hfirst (SizeArith.machine o W) (fun v hlt' => by
    rw [machine_size (by omega), machine_stored (by omega)]) (machine_stored hh.stored)
    (machine_stored (by omega))
  have hexact := hfirst SizeArith.exact (fun _ _ => rfl) rfl rfl
  simp only [exact_size, exact_stored] at hexact
  rw [hmachine, hexact]
  refine hf p ⟨Nat.le_add_right _ _, fun h => Bool.noConfusion h, fun _ => ?_, fun _ => ?_, hh,
    fun hse => ?_⟩
  · exact hl ▸ le_max_left _ _
  · show p * o.blockSize + n < M * o.blockSize
    omega
  · show p * o.blockSize = 0
    rw [hp, if_pos hse, Nat.zero_mul]

/-! ## Reserving room -/

/-- The elements that have room at the back. -/
theorem backFreeCapacity_machine (hv : m.Valid o W) :
    m.backFreeCapacity (SizeArith.machine o W) o = m.backFreeCapacity SizeArith.exact o := by
  have hpos := Nat.two_pow_pos W
  unfold backFreeCapacity
  split
  · simp only [exact_size, exact_sub]
    cases hm : m.mapped with
    | false =>
      obtain ⟨hms, hfin⟩ := hv.null hm
      rw [hms, hfin, Nat.zero_mul, machine_size hpos, if_neg Bool.false_ne_true,
        machine_sub hpos le_rfl, machine_sub hpos le_rfl]
    | true =>
      have hlt := hv.finish_lt hm
      have hsize := hv.held.size
      rw [if_pos rfl, machine_sub_one (by omega), Nat.mod_eq_of_lt (by omega),
        machine_sub (a := m.mapSize * o.blockSize - 1) (by omega) (by omega)]
  · rfl

/-- **The size of the map that a reallocation asks for**, in numbers, where it asks
for one. -/
def reallocationAsks (o : Options) (newElems : ℕ) (front : Bool) (m : Sizes) : Option ℕ :=
  let additional := (newElems - 1) / o.blockSize + 1
  let active := m.finishNode o + 1 - m.startNode o
  let unused := if front then m.startNode o else m.mapSize - (m.finishNode o + 1)
  if o.reservable then
    if o.singleEnded then some (max (m.mapSize + m.mapSize / 2) (m.mapSize + additional + 2))
    else if m.mapSize / 3 ≥ (additional + unused + active) / 2 then none
    else some (max (m.mapSize + m.mapSize / 2) (additional + unused + active + 1))
  else
    if additional ≤ unused then none
    else if o.singleEnded then some (max (m.mapSize * 2) (m.finishNode o + 1 + additional + 2))
    else if m.mapSize / 2 ≥ active + additional then none
    else some (max (m.mapSize * 2) (active + additional + 1))

/-- **The size of the map that a request for room asks for.** -/
def reserveAsks (o : Options) (front : Bool) (n : ℕ) (m : Sizes) : Option ℕ :=
  let vacancies := if front then m.frontFreeCapacity o else m.backFreeCapacity .exact o
  if n ≤ vacancies then none
  else if m.mapped then m.reallocationAsks o (n - vacancies) front
  else some (firstMap o n)

/-- Nothing is done, and nothing is asked for. -/
theorem computes_returned (hv : m.Valid o W) :
    Computes o W m none (.returned m) (.returned m) :=
  ⟨fun M hM => absurd hM (Option.not_mem_none M), fun _ => ⟨rfl, hv⟩⟩

/-- **Reallocation of a double-ended deque.** -/
theorem reallocate_computes (hv : m.Valid o W) (hm : m.mapped = true)
    (hse : o.singleEnded = false) (hn : 0 < n) (hlt : n < 2 ^ W) {front : Bool}
    (hMlt : ∀ M ∈ m.reallocationAsks o n front, M < 2 ^ W) :
    Computes o W m (m.reallocationAsks o n front)
      (if o.reservable then reallocateReservable (SizeArith.machine o W) o g n front m
        else reallocateDoubleEnded (SizeArith.machine o W) o g n front m)
      (if o.reservable then reallocateReservable SizeArith.exact o g n front m
        else reallocateDoubleEnded SizeArith.exact o g n front m) := by
  have hasks : m.reallocationAsks o n front = m.reallocationAsks o n front := rfl
  conv_rhs at hasks => rw [reallocationAsks]
  have hsingle : ¬ o.singleEnded = true := by
    rw [hse]
    exact Bool.false_ne_true
  simp only [if_neg hsingle] at hasks
  by_cases hres : o.reservable = true
  · rw [if_pos hres] at hasks
    rw [if_pos hres, if_pos hres]
    exact reallocateReservable_computes hv hm hse hn hlt rfl rfl rfl hasks hMlt
  · rw [if_neg hres] at hasks
    rw [if_neg hres, if_neg hres]
    refine reallocateDoubleEnded_computes hv hm hse hn hlt rfl rfl rfl (hasks.trans ?_) hMlt
    rw [Nat.sub_sub, Nat.add_comm 1]
    by_cases h : (n - 1) / o.blockSize + 1 ≤ if front = true then m.startNode o
        else m.mapSize - (m.finishNode o + 1)
    · rw [if_pos h, if_neg (Nat.not_lt.mpr h)]
    · rw [if_neg h, if_pos (Nat.lt_of_not_le h)]

/-- **Reallocation of a single-ended deque.** -/
theorem reallocate_computes_single (hv : m.Valid o W) (hm : m.mapped = true)
    (hse : o.singleEnded = true) (hn : 0 < n) (hlt : n < 2 ^ W)
    (hMlt : ∀ M ∈ m.reallocationAsks o n false, M < 2 ^ W) :
    Computes o W m (m.reallocationAsks o n false)
      (if o.reservable then reallocateReservableSingleEnded (SizeArith.machine o W) o g n m
        else reallocateSingleEnded (SizeArith.machine o W) o g n m)
      (if o.reservable then reallocateReservableSingleEnded SizeArith.exact o g n m
        else reallocateSingleEnded SizeArith.exact o g n m) := by
  have hasks : m.reallocationAsks o n false = m.reallocationAsks o n false := rfl
  conv_rhs at hasks => rw [reallocationAsks]
  simp only [if_pos hse, if_neg Bool.false_ne_true] at hasks
  by_cases hres : o.reservable = true
  · rw [if_pos hres] at hasks
    rw [if_pos hres, if_pos hres, hasks]
    exact reallocateReservableSingleEnded_computes hv hm hn hlt rfl (hMlt _ hasks)
  · rw [if_neg hres] at hasks
    rw [if_neg hres, if_neg hres]
    refine reallocateSingleEnded_computes hv hm hn hlt (hasks.trans ?_) hMlt
    by_cases h : (n - 1) / o.blockSize + 1 ≤ m.mapSize - (m.finishNode o + 1)
    · rw [if_pos h, if_neg (Nat.not_lt.mpr h)]
    · rw [if_neg h, if_pos (Nat.lt_of_not_le h)]

/-- **Room at the front.** -/
theorem privReserveElementsAtFront_computes (hv : m.Valid o W) (hse : o.singleEnded = false)
    (hlt : n < 2 ^ W) (hMlt : ∀ M ∈ m.reserveAsks o true n, M < 2 ^ W) :
    Computes o W m (m.reserveAsks o true n)
      (privReserveElementsAtFront (SizeArith.machine o W) o g n m)
      (privReserveElementsAtFront SizeArith.exact o g n m) := by
  rw [reserveAsks] at hMlt ⊢
  rw [if_pos rfl] at hMlt ⊢
  rw [privReserveElementsAtFront, privReserveElementsAtFront]
  simp only [exact_sub]
  by_cases h : n ≤ m.frontFreeCapacity o
  · rw [if_pos h, if_neg (Nat.not_lt.mpr h), if_neg (Nat.not_lt.mpr h)]
    exact computes_returned hv
  · rw [if_neg h] at hMlt ⊢
    rw [if_pos (Nat.lt_of_not_le h), if_pos (Nat.lt_of_not_le h)]
    cases hm : m.mapped with
    | false =>
      rw [hm, if_neg Bool.false_ne_true] at hMlt
      rw [if_neg Bool.false_ne_true, if_neg Bool.false_ne_true, if_neg Bool.false_ne_true]
      refine protInitializeMapAndNodes_computes hv hm (hMlt _ rfl) (fun p hv' => ?_)
      rw [setStartOff_machine hse hv'.offsets_lt.1, setStartOff_exact hse]
      refine ⟨rfl, le_rfl, hv'.null, hv'.mapSize_ge, hv'.finish_lt, hv'.held, fun h => ?_⟩
      rw [hse] at h
      exact absurd h Bool.false_ne_true
    | true =>
      rw [hm, if_pos rfl] at hMlt
      rw [if_pos rfl, if_pos rfl, if_pos rfl, machine_sub hlt (by omega)]
      exact reallocate_computes hv hm hse (by omega) (by omega) hMlt

/-- **Room at the back.** -/
theorem privReserveElementsAtBack_computes (hv : m.Valid o W) (hlt : n < 2 ^ W)
    (hMlt : ∀ M ∈ m.reserveAsks o false n, M < 2 ^ W) :
    Computes o W m (m.reserveAsks o false n)
      (privReserveElementsAtBack (SizeArith.machine o W) o g n m)
      (privReserveElementsAtBack SizeArith.exact o g n m) := by
  rw [reserveAsks] at hMlt ⊢
  rw [if_neg Bool.false_ne_true] at hMlt ⊢
  rw [privReserveElementsAtBack, privReserveElementsAtBack, backFreeCapacity_machine hv]
  simp only [exact_sub]
  by_cases h : n ≤ m.backFreeCapacity .exact o
  · rw [if_pos h, if_neg (Nat.not_lt.mpr h), if_neg (Nat.not_lt.mpr h)]
    exact computes_returned hv
  · rw [if_neg h] at hMlt ⊢
    rw [if_pos (Nat.lt_of_not_le h), if_pos (Nat.lt_of_not_le h)]
    cases hm : m.mapped with
    | false =>
      rw [hm, if_neg Bool.false_ne_true] at hMlt
      rw [if_neg Bool.false_ne_true, if_neg Bool.false_ne_true, if_neg Bool.false_ne_true]
      refine protInitializeMapAndNodes_computes hv hm (hMlt _ rfl) (fun p hv' => ⟨rfl, le_rfl,
        fun h => Bool.noConfusion h, hv'.mapSize_ge, fun h' => ?_, hv'.held, hv'.single⟩)
      exact lt_of_le_of_lt (Nat.le_add_right _ n) (hv'.finish_lt h')
    | true =>
      rw [hm, if_pos rfl] at hMlt
      rw [if_pos rfl, if_pos rfl, if_pos rfl, machine_sub hlt (by omega)]
      by_cases hse : o.singleEnded = true
      · simp only [if_pos hse]
        exact reallocate_computes_single hv hm hse (by omega) (by omega) hMlt
      · simp only [if_neg hse]
        exact reallocate_computes hv hm (Bool.not_eq_true _ ▸ hse) (by omega) (by omega) hMlt

end Sizes

namespace SizesCall

/-- **What callers see to**: numbers are of `size_type`, a constructor has no map
yet, and offsets only move where there is room, or over elements. -/
def Allowed (o : Options) (W : ℕ) (m : Sizes) : SizesCall → Prop
  | construct n => m.mapped = false ∧ n < 2 ^ W
  | reserveFront n => o.singleEnded = false ∧ n < 2 ^ W
  | reserveBack n => n < 2 ^ W
  | incFinish n => n = 0 ∨ m.mapped = true ∧ m.finishOff + n < m.mapSize * o.blockSize
  | decFinish n => m.startOff + n ≤ m.finishOff
  | incStart n => o.singleEnded = false ∧ m.startOff + n ≤ m.finishOff
  | decStart n => o.singleEnded = false ∧ n ≤ m.startOff
  | resetFinishToStart => True
  | clearMap => True

/-- **The size of the map that a call asks for**, in numbers, where it asks for
one. -/
def asks (o : Options) (m : Sizes) : SizesCall → Option ℕ
  | construct n => some (Sizes.firstMap o n)
  | reserveFront n => m.reserveAsks o true n
  | reserveBack n => m.reserveAsks o false n
  | _ => none

/-- What is done without a map being asked for. -/
theorem computes_of_valid {m m' : Sizes} (hv : m'.Valid o W) :
    Sizes.Computes o W m none (.returned m') (.returned m') :=
  ⟨fun M hM => absurd hM (Option.not_mem_none M), fun _ => ⟨rfl, hv⟩⟩

/-- A finish elsewhere in the map. -/
theorem valid_withFinish (hv : m.Valid o W) (hle : m.startOff ≤ v)
    (hlt : m.mapped = true → v < m.mapSize * o.blockSize) (hnull : m.mapped = false → v = 0) :
    ({ m with finishOff := v } : Sizes).Valid o W :=
  ⟨hle, fun h => ⟨(hv.null h).1, hnull h⟩, hv.mapSize_ge, hlt, hv.held, hv.single⟩

/-- A start elsewhere before the finish, in a double-ended deque. -/
theorem valid_withStart (hv : m.Valid o W) (hse : o.singleEnded = false) (hle : v ≤ m.finishOff) :
    ({ m with startOff := v } : Sizes).Valid o W := by
  refine ⟨hle, hv.null, hv.mapSize_ge, hv.finish_lt, hv.held, fun h => ?_⟩
  rw [hse] at h
  exact absurd h Bool.false_ne_true

theorem andThen_id (r : SizesResult) : Sizes.andThen id r = r := by
  cases r <;> rfl

/-- Without a map no number is stored but 0. -/
theorem valid_empty : (⟨false, 0, 0, 0⟩ : Sizes).Valid o W :=
  ⟨le_rfl, fun _ => ⟨rfl, rfl⟩, fun h => Bool.noConfusion h, fun h => Bool.noConfusion h,
    ⟨Nat.two_pow_pos _, Nat.two_pow_pos _, by rw [Nat.zero_mul]; exact Nat.zero_le _,
      by rw [Nat.zero_mul]; exact Nat.zero_le _⟩, fun _ => rfl⟩

/-- **Every call computes** what it would compute with numbers. -/
theorem run_computes (hv : m.Valid o W) {c : SizesCall} (hc : c.Allowed o W m)
    (hlt : ∀ M ∈ c.asks o m, M < 2 ^ W) :
    Sizes.Computes o W m (c.asks o m) (c.run (SizeArith.machine o W) o g m)
      (c.run SizeArith.exact o g m) := by
  have hfin := hv.offsets_lt
  have hle := hv.start_le
  have hoff := hv.held.offsets
  have hsize := hv.held.size
  cases c with
  | construct n =>
    have h := @Sizes.protInitializeMapAndNodes_computes o W g m n hv hc.1 (hlt _ rfl) id id
      (fun p hp => ⟨rfl, hp⟩)
    rwa [andThen_id, andThen_id] at h
  | reserveFront n => exact Sizes.privReserveElementsAtFront_computes hv hc.1 hc.2 hlt
  | reserveBack n => exact Sizes.privReserveElementsAtBack_computes hv hc hlt
  | incFinish n =>
    rcases hc with rfl | ⟨hm, hroom⟩
    · rw [run, run, Nat.add_zero, machine_size hfin.2, machine_stored hfin.1]
      exact computes_of_valid hv
    · rw [run, run, machine_size (by omega), machine_stored (by omega)]
      exact computes_of_valid (valid_withFinish hv (by omega) (fun _ => hroom)
        (fun h => absurd (hm.symm.trans h) (by decide)))
  | decFinish n =>
    have hn : m.startOff + n ≤ m.finishOff := hc
    rw [run, run, machine_sub hfin.2 (by omega), machine_stored (by omega)]
    refine computes_of_valid (valid_withFinish hv (by omega) (fun h => ?_) (fun h => ?_))
    · exact lt_of_le_of_lt (Nat.sub_le _ _) (hv.finish_lt h)
    · rw [(hv.null h).2]
      exact Nat.zero_sub n
  | incStart n =>
    obtain ⟨hse, hn⟩ := hc
    rw [run, run, machine_size (by omega), Sizes.setStartOff_machine hse (by omega),
      Sizes.setStartOff_exact hse]
    exact computes_of_valid (valid_withStart hv hse hn)
  | decStart n =>
    obtain ⟨hse, hn⟩ := hc
    rw [run, run, machine_sub (by omega) hn, Sizes.setStartOff_machine hse (by omega),
      Sizes.setStartOff_exact hse]
    exact computes_of_valid (valid_withStart hv hse ((Nat.sub_le _ _).trans hle))
  | resetFinishToStart =>
    exact computes_of_valid (valid_withFinish hv le_rfl
      (fun h => lt_of_le_of_lt hle (hv.finish_lt h))
      (fun h => Nat.le_zero.mp ((hv.null h).2 ▸ hle)))
  | clearMap =>
    rw [run, run]
    split
    · have hstart : ∀ A : SizeArith, A.stored 0 = 0 →
          { (m.setStartOff A o 0) with mapped := false, mapSize := 0, finishOff := 0 }
            = (⟨false, 0, 0, 0⟩ : Sizes) := by
        intro A hA
        rw [Sizes.setStartOff]
        split
        · next hse =>
          show Sizes.mk false 0 m.startOff 0 = _
          rw [hv.single hse]
        · show Sizes.mk false 0 (A.stored 0) 0 = _
          rw [hA]
      rw [hstart _ (machine_stored (Nat.two_pow_pos _)), hstart _ rfl]
      exact computes_of_valid valid_empty
    · exact computes_of_valid hv

/-- **A call whose map is counted right**: the size that is asked for has no wrap in
`size_type`, neither by itself nor in slots, unless the test refuses it anyway;
and with blocks of one slot it is not one more than what is held. -/
def Counted (o : Options) (W : ℕ) (m : Sizes) (c : SizesCall) : Prop :=
  ∀ M ∈ c.asks o m, M < 2 ^ W
    ∧ (Refused o W M ∨ M * o.blockSize ≤ 2 ^ W ∧ ¬ (o.blockSize = 1 ∧ M = 2 ^ o.storedBits))

/-- A map that passes the test is held, where it is counted right. -/
theorem held_of_counted (hlt : M < 2 ^ W) (hr : ¬ Refused o W M)
    (h : M * o.blockSize ≤ 2 ^ W ∧ ¬ (o.blockSize = 1 ∧ M = 2 ^ o.storedBits)) : Held o W M := by
  have hoff := offsets_of_not_refused hr h.1
  have hbs := o.blockSize_pos
  refine ⟨lt_of_le_of_ne ((Nat.le_mul_of_pos_right M hbs).trans hoff) (fun heq => ?_), hlt, hoff,
    h.1⟩
  refine h.2 ⟨?_, heq⟩
  rw [heq] at hoff
  have hpos := Nat.two_pow_pos o.storedBits
  have hle : 2 ^ o.storedBits * o.blockSize ≤ 2 ^ o.storedBits * 1 := by omega
  exact le_antisymm (Nat.le_of_mul_le_mul_left hle hpos) hbs

/-- With numbers nothing is refused. -/
theorem run_exact_ne (c : SizesCall) (m' : Sizes) :
    c.run SizeArith.exact o g m ≠ .lengthError m' := by
  have hite : ∀ {p : Prop} [Decidable p] {r r' : SizesResult}, r ≠ .lengthError m' →
      r' ≠ .lengthError m' → (if p then r else r') ≠ .lengthError m' := by
    intro p _ r r' hr hr'
    split
    · exact hr
    · exact hr'
  have hret : ∀ {m₁ : Sizes}, SizesResult.returned m₁ ≠ .lengthError m' :=
    fun h => SizesResult.noConfusion h
  have hmem : ∀ {m₁ : Sizes}, SizesResult.outOfMemory m₁ ≠ .lengthError m' :=
    fun h => SizesResult.noConfusion h
  have hnodes : ∀ {m₀ m₁ : Sizes}, Sizes.allocateNodes g m₀ (.returned m₁) ≠ .lengthError m' :=
    hite hret hmem
  have hgrow : ∀ {m₀ m₁ : Sizes}, Sizes.allocateMap g m (Sizes.allocateNodes g m₀ (.returned m₁))
      ≠ .lengthError m' := hite hnodes hmem
  have hthen : ∀ {f : Sizes → Sizes} {n : ℕ},
      Sizes.andThen f (Sizes.protInitializeMapAndNodes SizeArith.exact o g n m)
        ≠ .lengthError m' := by
    intro f n
    rw [Sizes.protInitializeMapAndNodes, Sizes.andThen_grow]
    exact hgrow
  have hdouble : ∀ {n : ℕ} {front : Bool},
      Sizes.reallocateDoubleEnded SizeArith.exact o g n front m ≠ .lengthError m' :=
    hite (hite hnodes hgrow) hnodes
  have hres : ∀ {n : ℕ} {front : Bool},
      Sizes.reallocateReservable SizeArith.exact o g n front m ≠ .lengthError m' :=
    hite hret hgrow
  cases c with
  | construct n =>
    rw [run, ← andThen_id (Sizes.protInitializeMapAndNodes SizeArith.exact o g n m)]
    exact hthen
  | reserveFront n => exact hite (hite (hite hres hdouble) hthen) hret
  | reserveBack n =>
    exact hite (hite (hite (hite hgrow hres) (hite (hite hgrow hnodes) hdouble)) hthen) hret
  | clearMap => exact hite hret hret
  | incFinish | decFinish | incStart | decStart | resetFinishToStart => exact hret

/-- **One call**: it is refused, and nothing changed; or it computes the mathematical
values, which are right. -/
theorem run_exact (hv : m.Valid o W) {c : SizesCall} (hc : c.Allowed o W m)
    (hcount : c.Counted o W m) :
    (∀ g, c.run (SizeArith.machine o W) o g m = .lengthError m)
      ∨ ∀ g, c.run (SizeArith.machine o W) o g m = c.run SizeArith.exact o g m
        ∧ (c.run SizeArith.exact o g m).sizes.Valid o W := by
  have hcomputes := fun g => run_computes (g := g) hv hc (fun M hM => (hcount M hM).1)
  by_cases h : ∃ M ∈ c.asks o m, Refused o W M
  · obtain ⟨M, hM, hr⟩ := h
    exact Or.inl fun g => (hcomputes g).refused M hM hr
  · refine Or.inr fun g => (hcomputes g).exact fun M hM => ?_
    have hr : ¬ Refused o W M := fun hr => h ⟨M, hM, hr⟩
    obtain ⟨hlt, hor⟩ := hcount M hM
    exact ⟨hr, held_of_counted hlt hr (hor.resolve_left hr)⟩

end SizesCall

/-! ## Runs -/

/-- **A deque and its mathematical values.** -/
structure StoredSizes where
  stored : Sizes
  value : Sizes

namespace StoredSizes

/-- What a call leaves. A call that is refused leaves the values as they are. -/
def next (o : Options) (W : ℕ) (c : SizesCall) (g : Grants) (s : StoredSizes) : StoredSizes :=
  match c.run (SizeArith.machine o W) o g s.stored with
  | .lengthError m => ⟨m, s.value⟩
  | r => ⟨r.sizes, (c.run SizeArith.exact o g s.value).sizes⟩

/-- **The calls of a deque**, from the one without a map on, whatever the allocator
answers. -/
def calls (o : Options) (W : ℕ) : TransitionSystem StoredSizes (SizesCall × Grants) where
  Init s := s = ⟨⟨false, 0, 0, 0⟩, ⟨false, 0, 0, 0⟩⟩
  Step s e s' := e.1.Allowed o W s.stored ∧ s' = s.next o W e.1 e.2

/-- Three numbers that `stored_size_type` holds. -/
def Fit (o : Options) (m : Sizes) : Prop :=
  m.mapSize < 2 ^ o.storedBits ∧ m.startOff < 2 ^ o.storedBits ∧ m.finishOff < 2 ^ o.storedBits

theorem fit_of_valid (hv : m.Valid o W) : Fit o m :=
  ⟨hv.held.stored, lt_of_le_of_lt hv.start_le hv.offsets_lt.1, hv.offsets_lt.1⟩

/-- **What is stored is the value**, and the next call that does not fit is refused
before anything changes. -/
structure Exact (o : Options) (W : ℕ) (s : StoredSizes) : Prop where
  stored_eq : s.stored = s.value
  refuses : ∀ c : SizesCall, c.Allowed o W s.stored → c.Counted o W s.stored →
    ¬ Fit o (c.run SizeArith.exact o ⟨true, true⟩ s.value).sizes →
      ∀ g, c.run (SizeArith.machine o W) o g s.stored = .lengthError s.stored

/-- The step lemma: right sizes stay right. -/
theorem next_valid {s : StoredSizes} (heq : s.stored = s.value) (hv : s.stored.Valid o W)
    {c : SizesCall} (hc : c.Allowed o W s.stored) (hcount : c.Counted o W s.stored) :
    (s.next o W c g).stored = (s.next o W c g).value ∧ (s.next o W c g).stored.Valid o W := by
  rw [next]
  rcases SizesCall.run_exact hv hc hcount with hr | hr
  · rw [hr g]
    exact ⟨heq, hv⟩
  · obtain ⟨hrun, hvalid⟩ := hr g
    rw [← heq, hrun]
    cases hx : c.run SizeArith.exact o g s.stored with
    | returned m' =>
      rw [hx] at hvalid
      exact ⟨rfl, hvalid⟩
    | lengthError m' =>
      exact absurd hx (SizesCall.run_exact_ne c m')
    | outOfMemory m' =>
      rw [hx] at hvalid
      exact ⟨rfl, hvalid⟩

/-- **Stored sizes do not truncate**, in any run whose calls are counted right. -/
theorem storedSizes_exact {s : StoredSizes}
    (hs : ((calls o W).restrict fun s e => e.1.Counted o W s.stored).Reachable s) :
    Exact o W s := by
  have hinv : s.stored = s.value ∧ s.stored.Valid o W := by
    refine hs.invariant (I := fun s => s.stored = s.value ∧ s.stored.Valid o W) ?_ ?_
    · rintro _ rfl
      exact ⟨rfl, SizesCall.valid_empty⟩
    · rintro s ⟨c, g⟩ _ ⟨heq, hv⟩ ⟨⟨hc, rfl⟩, hcount⟩
      exact next_valid heq hv hc hcount
  obtain ⟨heq, hv⟩ := hinv
  refine ⟨heq, fun c hc hcount hfit g => ?_⟩
  rcases SizesCall.run_exact hv hc hcount with hr | hr
  · exact hr g
  · rw [← heq] at hfit
    exact absurd (fit_of_valid (hr ⟨true, true⟩).2) hfit

/-- Blocks of one slot, a non-reservable double-ended deque, and sizes stored in a
byte. -/
def byteSizes : Options := ⟨1, by decide, false, false, 8, 2 ^ 64 - 1⟩

/-- A deque of `n` elements, constructed where the allocator grants everything. -/
def constructed (n : ℕ) : StoredSizes :=
  next byteSizes 64 (.construct n) ⟨true, true⟩ ⟨⟨false, 0, 0, 0⟩, ⟨false, 0, 0, 0⟩⟩

theorem storedSizes_exact_ten : Exact byteSizes 64 (constructed 10) := by
  refine storedSizes_exact ((TransitionSystem.Reachable.of_init rfl).step
    (e := (.construct 10, ⟨true, true⟩)) ⟨⟨⟨rfl, by decide⟩, rfl⟩, ?_⟩)
  rintro M hM
  obtain rfl : 13 = M := Option.some.inj hM
  exact ⟨by decide, Or.inr ⟨by decide, by decide⟩⟩

/-- **A map of exactly as many nodes as the stored size has values.** With blocks
of one slot the test lets 256 nodes pass, and a byte holds 0 of them. -/
theorem storedSizes_truncated :
    (calls byteSizes 64).Reachable (constructed 253)
      ∧ (constructed 253).stored.mapSize = 0 ∧ (constructed 253).value.mapSize = 256
      ∧ ¬ Exact byteSizes 64 (constructed 253) := by
  refine ⟨?_, by decide, by decide, fun h => ?_⟩
  · exact (TransitionSystem.Reachable.of_init rfl).step
      (e := (.construct 253, ⟨true, true⟩)) ⟨⟨rfl, by decide⟩, rfl⟩
  · exact absurd h.stored_eq (by decide)

end StoredSizes

end DequeImpl
