import BoostContainer.Lib.SwapRanges
import BoostContainer.Detail.RangeAssign

/-!
# Swapping ranges

Two containers with buffers of their own are swapped element by element: what
both have is exchanged, and the tail of the longer one is moved over to raw
slots and destroyed behind. Where the bytes of an element are all there is to
it, the first part exchanges bytes instead, through a storage of 2 KiB, in a
loop that is unrolled four times and entered in its middle.

The loop exchanges as many blocks as it should, whatever label it is entered
at (`duff_eq`), blocks that follow one another exchange a range of bytes
(`swapStorage_mem`), and a range of the bytes of elements is a range of
elements (`ofBytes_swapRanges`); so both ways exchange the same elements.
-/

namespace Slots

variable {κ : Type} {α : Type*}

/-! ## Swapping ranges -/

/-- `boost::adl_move_swap` of two elements. -/
def adlMoveSwap (e : Env α) (p q : ℕ) : Prog (State κ α) Unit := fun s =>
  match s.heap p, s.heap q with
  | some x, some y =>
    if x.element.isNone || y.element.isNone then .undefined
    else if e.fuse = some s.ops then .threw { s with ops := s.ops + 1 }
    else .done () { s with
      heap := Function.update (Function.update s.heap p (some { x with element := y.element })) q
        (some { y with element := x.element })
      ops := s.ops + 1 }
  | _, _ => .undefined

/-- `for (; n != n_i; ++short_range_f, ++large_range_f, ++n)` -/
def swapEach (e : Env α) (short large : ℕ) : ℕ → Prog (State κ α) Unit
  | 0 => pure ()
  | n + 1 => do
    adlMoveSwap e short large
    swapEach e (short + 1) (large + 1) n

/-- **The variables of a swap of bytes**: the memory, the storage between, and where
the two ranges are. -/
structure Buffers (β : Type*) where
  mem : ℕ → β
  stora : ℕ → β
  largePtr : ℕ
  shortPtr : ℕ

section Bytes

variable {β : Type*}

/-- `memcpy(stora_ptr, large_ptr, n); memcpy(large_ptr, short_ptr, n);
memcpy(short_ptr, stora_ptr, n);` -/
def swapBlock (n : ℕ) (b : Buffers β) : Buffers β :=
  let stora := copyRange 0 b.mem b.largePtr n b.stora
  let mem := copyRange b.largePtr b.mem b.shortPtr n b.mem
  { b with mem := copyRange b.shortPtr stora 0 n mem, stora := stora }

/-- A block of the size of the storage, after which the pointers go on. -/
def swapStep (sizeofStorage : ℕ) (b : Buffers β) : Buffers β :=
  { swapBlock sizeofStorage b with
    largePtr := b.largePtr + sizeofStorage
    shortPtr := b.shortPtr + sizeofStorage }

/-- What is left of the body of the loop from one of its labels on. -/
def swapSteps (sizeofStorage : ℕ) : ℕ → Buffers β → Buffers β
  | 0, b => b
  | k + 1, b => swapSteps sizeofStorage k (swapStep sizeofStorage b)

/-- `do { case 0: … case 3: … case 2: … case 1: … } while (--n);`, entered `entry` blocks
before its end, where `n` is positive. -/
def duff (sizeofStorage : ℕ) : ℕ → ℕ → Buffers β → Buffers β
  | _, 0, b => b
  | entry, n + 1, b => duff sizeofStorage 4 n (swapSteps sizeofStorage entry b)

/-- **The swap of `n_i_bytes` bytes through the storage.** -/
def swapStorage (sizeofStorage nIBytes : ℕ) (b : Buffers β) : Buffers β :=
  let sztTimes := nIBytes / sizeofStorage
  let sztRem := nIBytes % sizeofStorage
  let n := (sztTimes + (4 - 1)) / 4
  let branchNumber := (if sztTimes = 0 then 1 else 0) * 4 + sztTimes % 4
  let b := match branchNumber with
    | 4 => b
    | 0 => duff sizeofStorage 4 n b
    | 3 => duff sizeofStorage 3 n b
    | 2 => duff sizeofStorage 2 n b
    | 1 => duff sizeofStorage 1 n b
    | _ => b
  swapBlock sztRem b

end Bytes

namespace Representation

variable (R : Representation α)

/-- `sizeof(aligned_storage<DeepSwapAllocNMaxStorage, alignment>::type)` -/
def sizeofStorage : ℕ := (2 ^ 11 + (R.alignment - 1)) / R.alignment * R.alignment

/-- The byte at an address. -/
def byteAt (c : Cells α) (a : ℕ) : Option UInt8 :=
  (c (a / R.size)).map fun v => R.bytes v ⟨a % R.size, Nat.mod_lt a R.pos⟩

/-- The elements with these bytes. -/
def ofBytes (c : Cells α) (m : ℕ → Option UInt8) : Cells α := fun p =>
  (c p).map fun v => R.bytes.symm fun i => (m (p * R.size + i)).getD (R.bytes v i)

end Representation

/-- A heap whose slots hold other elements. -/
def setCells (h : Heap (Slot α)) (c : Cells α) : Heap (Slot α) := fun q =>
  (h q).map fun slot => { slot with element := c q }

/-- The swap of bytes, as a program: all bytes have to be there. -/
def swapBytes (R : Representation α) (short nI large : ℕ) : Prog (State κ α) Unit := fun s =>
  let bytes := R.byteAt (cells s.heap)
  if ∀ i < R.size * nI, (bytes (large * R.size + i)).isSome
      ∧ (bytes (short * R.size + i)).isSome then
    .done () { s with
      heap := setCells s.heap (R.ofBytes (cells s.heap)
        (swapStorage R.sizeofStorage (R.size * nI)
          ⟨bytes, fun _ => none, large * R.size, short * R.size⟩).mem) }
  else .undefined

namespace Traits

variable (T : Traits α) (e : Env α)

/-- What both ranges have is exchanged, in the overload the types choose. -/
def swapFront (short nI large : ℕ) : Prog (State κ α) Unit :=
  match T.copyAssignable with
  | none => swapEach e short large nI
  | some R => swapBytes R short nI large

/-- **`deep_swap_alloc_n`**. The overload with a buffer for all of the shorter range is
never chosen. -/
def deepSwapAllocN (short nI large nJ : ℕ) : Prog (State κ α) Unit := do
  T.swapFront e short nI large
  let _ ← T.uninitializedMoveAllocN e .pointer (large + nI) (nJ - nI) (short + nI)
  destroyAllocN e (large + nI) (nJ - nI)

/-- **`priv_deep_swap`**, which returns the sizes of this container and the other. -/
def privDeepSwap (firstThis thisSize firstX xSize : ℕ) : Prog (State κ α) (ℕ × ℕ) :=
  if thisSize < xSize then do
    T.deepSwapAllocN e firstThis thisSize firstX xSize
    return (xSize, thisSize)
  else do
    T.deepSwapAllocN e firstX xSize firstThis thisSize
    return (xSize, thisSize)

end Traits

/-! ## The unrolled loop -/

section Bytes

variable {β : Type*} {B n k entry large short : ℕ} {b : Buffers β} {m : ℕ → β}

theorem swapSteps_add (k n : ℕ) (b : Buffers β) :
    swapSteps B (k + n) b = swapSteps B n (swapSteps B k b) := by
  induction k generalizing b with
  | zero => rw [Nat.zero_add, swapSteps]
  | succ k ih => rw [Nat.succ_add, swapSteps, swapSteps, ih]

/-- **The loop that is entered in the middle** makes the blocks from there on, and
four for each round after that. -/
theorem duff_eq (entry n : ℕ) (b : Buffers β) :
    duff B entry (n + 1) b = swapSteps B (entry + 4 * n) b := by
  induction n generalizing entry b with
  | zero => rfl
  | succ n ih =>
    rw [duff, ih, ← swapSteps_add]
    congr 1
    omega

theorem swapBlock_mem (hd : b.largePtr + n ≤ b.shortPtr ∨ b.shortPtr + n ≤ b.largePtr) :
    (swapBlock n b).mem = swapRanges b.largePtr b.shortPtr n b.mem :=
  copyRange_thrice hd

/-- **Blocks exchange ranges.** -/
theorem swapSteps_mem
    (hd : b.largePtr + k * B ≤ b.shortPtr ∨ b.shortPtr + k * B ≤ b.largePtr) :
    (swapSteps B k b).mem = swapRanges b.largePtr b.shortPtr (k * B) b.mem
      ∧ (swapSteps B k b).largePtr = b.largePtr + k * B
      ∧ (swapSteps B k b).shortPtr = b.shortPtr + k * B := by
  induction k generalizing b with
  | zero =>
    rw [Nat.zero_mul, swapRanges_zero]
    exact ⟨rfl, rfl, rfl⟩
  | succ k ih =>
    have hsum : (k + 1) * B = B + k * B := by
      rw [Nat.succ_mul, Nat.add_comm]
    rw [hsum] at hd ⊢
    have hstep : (swapStep B b).mem = swapRanges b.largePtr b.shortPtr B b.mem :=
      swapBlock_mem (by omega)
    have hlarge : (swapStep B b).largePtr = b.largePtr + B := rfl
    have hshort : (swapStep B b).shortPtr = b.shortPtr + B := rfl
    obtain ⟨hmem, hl, hs⟩ := ih (b := swapStep B b) (by rw [hlarge, hshort]; omega)
    rw [hlarge] at hmem hl
    rw [hshort] at hmem hs
    refine ⟨?_, ?_, ?_⟩
    · rw [swapSteps, hmem, hstep, swapRanges_add hd]
    · rw [swapSteps, hl, Nat.add_assoc]
    · rw [swapSteps, hs, Nat.add_assoc]

/-- **The `switch` makes every block**: the one it is entered at, and all after it. -/
theorem swapStorage_eq (B nIBytes : ℕ) (b : Buffers β) :
    swapStorage B nIBytes b
      = swapBlock (nIBytes % B) (swapSteps B (nIBytes / B) b) := by
  unfold swapStorage
  generalize nIBytes / B = times
  by_cases hzero : times = 0
  · subst hzero
    rfl
  · obtain ⟨n, hn⟩ : ∃ n, (times + (4 - 1)) / 4 = n + 1 :=
      Nat.exists_eq_succ_of_ne_zero (by omega)
    have hbranch : (if times = 0 then 1 else 0) * 4 + times % 4 = times % 4 := by
      rw [if_neg hzero, Nat.zero_mul, Nat.zero_add]
    have hlabel : times % 4 = 0 ∨ times % 4 = 1 ∨ times % 4 = 2 ∨ times % 4 = 3 := by omega
    simp only [hbranch, hn, duff_eq]
    obtain h | h | h | h := hlabel
    · simp only [h, show 4 + 4 * n = times by omega]
    · simp only [h, show 1 + 4 * n = times by omega]
    · simp only [h, show 2 + 4 * n = times by omega]
    · simp only [h, show 3 + 4 * n = times by omega]

/-- **The bytes of two ranges are exchanged**, whatever their number. -/
theorem swapStorage_mem (hd : b.largePtr + n ≤ b.shortPtr ∨ b.shortPtr + n ≤ b.largePtr) :
    (swapStorage B n b).mem = swapRanges b.largePtr b.shortPtr n b.mem := by
  have hsum : n / B * B + n % B = n := Nat.div_add_mod' n B
  obtain ⟨hmem, hl, hs⟩ := swapSteps_mem (k := n / B) (b := b) (B := B) (by omega)
  rw [swapStorage_eq, swapBlock_mem (by rw [hl, hs]; omega), hmem, hl, hs,
    swapRanges_add (by rw [hsum]; exact hd), hsum]

end Bytes

/-! ## Bytes of elements -/

section Elements

variable {R : Representation α} {c : Cells α} {p short large n : ℕ}

theorem byteAt_mul_add (c : Cells α) (p : ℕ) (i : Fin R.size) :
    R.byteAt c (p * R.size + i) = (c p).map fun v => R.bytes v i := by
  have hdiv : (p * R.size + i) / R.size = p := by
    rw [Nat.mul_comm, Nat.mul_add_div R.pos, Nat.div_eq_of_lt i.isLt, Nat.add_zero]
  have hmod : (p * R.size + i) % R.size = i := by
    rw [Nat.mul_comm, Nat.mul_add_mod, Nat.mod_eq_of_lt i.isLt]
  simp only [Representation.byteAt, hdiv, hmod, Fin.eta]

/-- The bytes of elements that live are there. -/
theorem byteAt_isSome (h : ∀ j < n, (c (p + j)).isSome) {i : ℕ} (hi : i < R.size * n) :
    (R.byteAt c (p * R.size + i)).isSome := by
  have hdiv : (p * R.size + i) / R.size = p + i / R.size := by
    rw [Nat.mul_comm, Nat.mul_add_div R.pos]
  rw [Representation.byteAt, Option.isSome_map, hdiv]
  exact h _ (Nat.div_lt_of_lt_mul hi)

/-- An element is read back from its bytes. -/
theorem ofBytes_eq {m : ℕ → Option UInt8} {w : α} (hp : (c p).isSome)
    (hm : ∀ i : Fin R.size, m (p * R.size + i) = some (R.bytes w i)) :
    R.ofBytes c m p = some w := by
  obtain ⟨v, hv⟩ := Option.isSome_iff_exists.mp hp
  simp only [Representation.ofBytes, hv, hm, Option.map_some, Option.getD_some,
    Equiv.symm_apply_apply]

/-- **A range of bytes is a range of elements.** -/
theorem ofBytes_swapRanges (hshort : ∀ j < n, (c (short + j)).isSome)
    (hlarge : ∀ j < n, (c (large + j)).isSome)
    (hd : large + n ≤ short ∨ short + n ≤ large) :
    R.ofBytes c (swapRanges (large * R.size) (short * R.size) (R.size * n) (R.byteAt c))
      = swapRanges large short n c := by
  have hdb : large * R.size + R.size * n ≤ short * R.size
      ∨ short * R.size + R.size * n ≤ large * R.size := by
    rw [Nat.mul_comm R.size n, ← Nat.add_mul, ← Nat.add_mul]
    exact hd.imp (Nat.mul_le_mul_right _) (Nat.mul_le_mul_right _)
  have haddr : ∀ (p j : ℕ) (i : Fin R.size),
      (p + j) * R.size + i = p * R.size + (j * R.size + i) := fun p j i => by
    rw [Nat.add_mul, Nat.add_assoc]
  have hin : ∀ (j : ℕ) (i : Fin R.size), j < n → j * R.size + i < R.size * n := by
    intro j i hj
    calc j * R.size + i < j * R.size + R.size := Nat.add_lt_add_left i.isLt _
      _ = (j + 1) * R.size := (Nat.succ_mul j R.size).symm
      _ ≤ n * R.size := Nat.mul_le_mul_right _ hj
      _ = R.size * n := Nat.mul_comm _ _
  funext p
  obtain ⟨j, hj, rfl⟩ | ⟨j, hj, rfl⟩ | ⟨hl, hs⟩ := mem_ranges large short n p
  · obtain ⟨w, hw⟩ := Option.isSome_iff_exists.mp (hshort j hj)
    rw [swapRanges_left hj, hw]
    refine ofBytes_eq (hlarge j hj) (fun i => ?_)
    rw [haddr, swapRanges_left (hin j i hj), ← haddr, byteAt_mul_add, hw, Option.map_some]
  · obtain ⟨w, hw⟩ := Option.isSome_iff_exists.mp (hlarge j hj)
    rw [swapRanges_right hd hj, hw]
    refine ofBytes_eq (hshort j hj) (fun i => ?_)
    rw [haddr, swapRanges_right hdb (hin j i hj), ← haddr, byteAt_mul_add, hw, Option.map_some]
  · rw [swapRanges_of_notMem hl hs]
    have hout : ∀ (q : ℕ) (i : Fin R.size), (p < q ∨ q + n ≤ p) →
        p * R.size + i < q * R.size ∨ q * R.size + R.size * n ≤ p * R.size + i := by
      intro q i hq
      rcases hq with hq | hq
      · left
        calc p * R.size + i < p * R.size + R.size := Nat.add_lt_add_left i.isLt _
          _ = (p + 1) * R.size := (Nat.succ_mul p R.size).symm
          _ ≤ q * R.size := Nat.mul_le_mul_right _ hq
      · right
        rw [Nat.mul_comm R.size n, ← Nat.add_mul]
        exact (Nat.mul_le_mul_right _ hq).trans (Nat.le_add_right _ _)
    cases hc : c p with
    | none => rw [Representation.ofBytes, hc, Option.map_none]
    | some v =>
      refine ofBytes_eq (by rw [hc]; rfl) (fun i => ?_)
      rw [swapRanges_of_notMem (hout large i hl) (hout short i hs), byteAt_mul_add, hc,
        Option.map_some]

end Elements

/-! ## What is exchanged -/

variable {T : Traits α} {e : Env α} {s t u : State κ α} {p q n a b short large : ℕ}
  {c : Cells α} {xs ys : List α}

/-- **Elements are exchanged**, and none begins or ends to live. -/
structure Rearranged (c : Cells α) (s t : State κ α) : Prop where
  cells_eq : cells t.heap = c
  allocator_eq : ∀ q, (t.heap q).map Slot.allocator = (s.heap q).map Slot.allocator
  constructed_eq : t.constructed = s.constructed
  destroyed_eq : t.destroyed = s.destroyed
  requests_eq : t.requests = s.requests
  object_eq : t.object = s.object

theorem swapRanges_comm (hd : p + n ≤ q ∨ q + n ≤ p) :
    swapRanges p q n c = swapRanges q p n c := by
  funext x
  obtain ⟨i, hi, rfl⟩ | ⟨i, hi, rfl⟩ | ⟨hp, hq⟩ := mem_ranges p q n x
  · rw [swapRanges_left hi, swapRanges_right hd.symm hi]
  · rw [swapRanges_right hd hi, swapRanges_left hi]
  · rw [swapRanges_of_notMem hp hq, swapRanges_of_notMem hq hp]

theorem adlMoveSwap_rearranged (hp : shape s.heap p = some true) (hq : shape s.heap q = some true)
    (hne : p ≠ q) (he : e.fuse = none) :
    ∃ t, adlMoveSwap e p q s = .done () t
      ∧ Rearranged (swapRanges p q 1 (cells s.heap)) s t := by
  obtain ⟨x, hx, hxe⟩ := exists_of_shape_eq hp
  obtain ⟨y, hy, hye⟩ := exists_of_shape_eq hq
  have hdef : ¬ (x.element.isNone || y.element.isNone) = true := by
    simp [Option.isSome_iff_ne_none.mp hxe, Option.isSome_iff_ne_none.mp hye]
  have hdone : adlMoveSwap e p q s = .done () { s with
      heap := Function.update (Function.update s.heap p (some { x with element := y.element })) q
        (some { y with element := x.element })
      ops := s.ops + 1 } := by
    unfold adlMoveSwap
    simp only [hx, hy, if_neg hdef, he]
    rw [if_neg (Option.some_ne_none _).symm]
  refine ⟨_, hdone, ?_, fun z => ?_, rfl, rfl, rfl, rfl⟩
  · show cells (Function.update (Function.update s.heap p _) q _) = _
    rw [cells_update, cells_update]
    funext z
    have hcx : cells s.heap p = x.element := by rw [cells, hx, Option.bind_some]
    have hcy : cells s.heap q = y.element := by rw [cells, hy, Option.bind_some]
    unfold swapRanges
    by_cases hzq : z = q
    · subst hzq
      rw [Function.update_self, if_neg (by omega), if_pos (by omega), Nat.sub_self, Nat.add_zero,
        hcx]
    · rw [Function.update_of_ne hzq]
      by_cases hzp : z = p
      · subst hzp
        rw [Function.update_self, if_pos (by omega), Nat.sub_self, Nat.add_zero, hcy]
      · rw [Function.update_of_ne hzp, if_neg (by omega), if_neg (by omega)]
  · show (Function.update (Function.update s.heap p _) q _ z).map _ = _
    by_cases hzq : z = q
    · rw [hzq, Function.update_self, hy]
      rfl
    · rw [Function.update_of_ne hzq]
      by_cases hzp : z = p
      · rw [hzp, Function.update_self, hx]
        rfl
      · rw [Function.update_of_ne hzp]

theorem live_iff {h : Heap (Slot α)} : shape h q = some true ↔ (cells h q).isSome := by
  rw [shape_eq_some_true, Option.isSome_iff_exists]

/-- **The loop of swaps exchanges two ranges.** -/
theorem swapEach_rearranged (hs : ∀ j < n, shape s.heap (short + j) = some true)
    (hl : ∀ j < n, shape s.heap (large + j) = some true)
    (hd : short + n ≤ large ∨ large + n ≤ short) (he : e.fuse = none) :
    ∃ t, swapEach e short large n s = .done () t
      ∧ Rearranged (swapRanges short large n (cells s.heap)) s t := by
  induction n generalizing short large s with
  | zero =>
    refine ⟨s, rfl, ?_, fun _ => rfl, rfl, rfl, rfl, rfl⟩
    rw [swapRanges_zero]
  | succ n ih =>
    have hs₀ : shape s.heap short = some true := hs 0 (Nat.succ_pos n)
    have hl₀ : shape s.heap large = some true := hl 0 (Nat.succ_pos n)
    obtain ⟨t, hdone, ht⟩ := adlMoveSwap_rearranged hs₀ hl₀ (by omega) he
    have hkeep : ∀ z, (z < short ∨ short + 1 ≤ z) → (z < large ∨ large + 1 ≤ z) →
        shape s.heap z = some true → shape t.heap z = some true := by
      intro z hzs hzl hz
      rw [live_iff, ht.cells_eq, swapRanges_of_notMem hzs hzl, ← live_iff]
      exact hz
    have hs' : ∀ j < n, shape t.heap (short + 1 + j) = some true := fun j hj =>
      hkeep _ (by omega) (by omega) (by
        rw [Nat.add_assoc, Nat.add_comm 1 j]
        exact hs (j + 1) (by omega))
    have hl' : ∀ j < n, shape t.heap (large + 1 + j) = some true := fun j hj =>
      hkeep _ (by omega) (by omega) (by
        rw [Nat.add_assoc, Nat.add_comm 1 j]
        exact hl (j + 1) (by omega))
    obtain ⟨u, hrun, hu⟩ := ih hs' hl' (by omega)
    refine ⟨u, ?_, ?_, fun z => (hu.allocator_eq z).trans (ht.allocator_eq z),
      hu.constructed_eq.trans ht.constructed_eq, hu.destroyed_eq.trans ht.destroyed_eq,
      hu.requests_eq.trans ht.requests_eq, hu.object_eq.trans ht.object_eq⟩
    · rw [swapEach, Prog.bind_of_done hdone, hrun]
    · rw [hu.cells_eq, ht.cells_eq, Nat.add_comm n 1, swapRanges_add (by omega)]

/-- **The swap of bytes exchanges two ranges.** -/
theorem swapBytes_rearranged (R : Representation α)
    (hs : ∀ j < n, shape s.heap (short + j) = some true)
    (hl : ∀ j < n, shape s.heap (large + j) = some true)
    (hd : short + n ≤ large ∨ large + n ≤ short) :
    ∃ t, swapBytes R short n large s = .done () t
      ∧ Rearranged (swapRanges short large n (cells s.heap)) s t := by
  have hsc : ∀ j < n, (cells s.heap (short + j)).isSome := fun j hj => live_iff.mp (hs j hj)
  have hlc : ∀ j < n, (cells s.heap (large + j)).isSome := fun j hj => live_iff.mp (hl j hj)
  have hdb : large * R.size + R.size * n ≤ short * R.size
      ∨ short * R.size + R.size * n ≤ large * R.size := by
    rw [Nat.mul_comm R.size n, ← Nat.add_mul, ← Nat.add_mul]
    exact hd.symm.imp (Nat.mul_le_mul_right _) (Nat.mul_le_mul_right _)
  refine ⟨_, if_pos (fun i hi => ⟨byteAt_isSome hlc hi, byteAt_isSome hsc hi⟩), ?_,
    fun z => ?_, rfl, rfl, rfl, rfl⟩
  · show cells (setCells s.heap _) = _
    rw [swapStorage_mem hdb]
    show cells (setCells s.heap (R.ofBytes (cells s.heap) (swapRanges _ _ _ _))) = _
    rw [ofBytes_swapRanges hsc hlc hd.symm, swapRanges_comm hd.symm]
    funext z
    unfold setCells
    cases hz : s.heap z with
    | some slot => rw [cells, hz, Option.map_some, Option.bind_some]
    | none =>
      -- a slot that is not there is in neither range
      have hnone : cells s.heap z = none := by rw [cells, hz, Option.bind_none]
      have hout : ∀ r, (∀ j < n, (cells s.heap (r + j)).isSome) → z < r ∨ r + n ≤ z := by
        intro r hr
        by_contra hin
        have hsome := hr (z - r) (by omega)
        rw [show r + (z - r) = z by omega, hnone] at hsome
        exact Bool.noConfusion hsome
      rw [swapRanges_of_notMem (hout short hsc) (hout large hlc), hnone, cells, hz,
        Option.map_none, Option.bind_none]
  · show (setCells s.heap _ z).map _ = _
    rw [setCells, Option.map_map]
    rfl

/-- Both overloads exchange the same. -/
theorem Traits.swapFront_rearranged (hs : ∀ j < n, shape s.heap (short + j) = some true)
    (hl : ∀ j < n, shape s.heap (large + j) = some true)
    (hd : short + n ≤ large ∨ large + n ≤ short) (he : e.fuse = none) :
    ∃ t, T.swapFront e short n large s = .done () t
      ∧ Rearranged (swapRanges short large n (cells s.heap)) s t := by
  unfold swapFront
  cases T.copyAssignable with
  | none => exact swapEach_rearranged hs hl hd he
  | some R => exact swapBytes_rearranged R hs hl hd

/-! ## What a deep swap does -/

/-- **Two sequences in slots that can be swapped**: the buffers are apart, and each has
raw slots for what the other has more. -/
structure Swappable (a b : ℕ) (xs ys : List α) (s : State κ α) : Prop where
  null : NothingAtNull s
  first : At (cells s.heap) a xs
  second : At (cells s.heap) b ys
  first_raw : ∀ j, xs.length ≤ j → j < ys.length → shape s.heap (a + j) = some false
  second_raw : ∀ j, ys.length ≤ j → j < xs.length → shape s.heap (b + j) = some false
  apart : a + max xs.length ys.length ≤ b ∨ b + max xs.length ys.length ≤ a

/-- **Two sequences were swapped**: each stands where the other stood, with no live
element after it; every element that was missing on one side was constructed
once, every one that was too many on the other was destroyed once, and no other
slot is touched. -/
structure DeepSwapped (a b : ℕ) (xs ys : List α) (s t : State κ α) : Prop where
  first : At (cells t.heap) a ys
  second : At (cells t.heap) b xs
  first_raw : ∀ j, ys.length ≤ j → j < xs.length → shape t.heap (a + j) = some false
  second_raw : ∀ j, xs.length ≤ j → j < ys.length → shape t.heap (b + j) = some false
  constructed_eq : ∀ q, t.constructed q = s.constructed q
    + within (a + xs.length) (ys.length - xs.length) q
    + within (b + ys.length) (xs.length - ys.length) q
  destroyed_eq : ∀ q, t.destroyed q = s.destroyed q
    + within (b + xs.length) (ys.length - xs.length) q
    + within (a + ys.length) (xs.length - ys.length) q
  kept : ∀ q, q < a ∨ a + max xs.length ys.length ≤ q →
    q < b ∨ b + max xs.length ys.length ≤ q → t.heap q = s.heap q
  requests_eq : t.requests = s.requests
  object_eq : t.object = s.object

theorem Swappable.symm (h : Swappable a b xs ys s) : Swappable b a ys xs s :=
  ⟨h.null, h.second, h.first, h.second_raw, h.first_raw, by
    rw [max_comm]
    exact h.apart.symm⟩

theorem DeepSwapped.symm (h : DeepSwapped a b xs ys s t) : DeepSwapped b a ys xs s t :=
  ⟨h.second, h.first, h.second_raw, h.first_raw,
    fun q => (h.constructed_eq q).trans (Nat.add_right_comm _ _ _),
    fun q => (h.destroyed_eq q).trans (Nat.add_right_comm _ _ _),
    fun q ha hb => h.kept q (by rwa [max_comm]) (by rwa [max_comm]), h.requests_eq, h.object_eq⟩

/-- A list that stands in slots lives there. -/
theorem At.live {h : Heap (Slot α)} (hx : At (cells h) p xs) :
    ∀ j < xs.length, shape h (p + j) = some true :=
  fun j hj => shape_eq_some_true.mpr ⟨xs[j], by rw [hx j hj, List.getElem?_eq_getElem hj]⟩

/-- The tail of the longer side is moved over, and destroyed behind. -/
theorem deepSwapped_of_parts (hs : Swappable a b xs ys s) (hle : xs.length ≤ ys.length)
    (ht : Rearranged (swapRanges a b xs.length (cells s.heap)) s t)
    (hu : Stored true .slot (b + xs.length) (a + xs.length) (ys.length - xs.length) t u) :
    DeepSwapped a b xs ys s { u with
      heap := rawRange u.heap (b + xs.length) (ys.length - xs.length)
      destroyed := fun q => u.destroyed q + within (b + xs.length) (ys.length - xs.length) q } := by
  have happ := hs.apart
  rw [max_eq_right hle] at happ
  have hd : a + xs.length ≤ b ∨ b + xs.length ≤ a := by omega
  have hout : ∀ q, q < b + xs.length ∨ b + ys.length ≤ q →
      rawRange u.heap (b + xs.length) (ys.length - xs.length) q = u.heap q :=
    fun q hq => rawRange_of_notMem (by omega)
  have hcells : ∀ q, q < b + xs.length ∨ b + ys.length ≤ q →
      cells (rawRange u.heap (b + xs.length) (ys.length - xs.length)) q = cells u.heap q :=
    fun q hq => by rw [cells, hout q hq, cells]
  -- what the tail does not touch
  have hkept : ∀ q, (q < a + xs.length ∨ a + ys.length ≤ q) →
      (q < b + xs.length ∨ b + ys.length ≤ q) →
      cells u.heap q = swapRanges a b xs.length (cells s.heap) q := by
    intro q hqa hqb
    rw [← ht.cells_eq]
    refine hu.kept q (by omega) (fun j hj hslot => ?_)
    have := Source.slot.inj hslot
    omega
  have halloc : ∀ q, (u.heap q).map Slot.allocator = (s.heap q).map Slot.allocator :=
    fun q => (hu.allocator_eq q).trans (ht.allocator_eq q)
  refine ⟨fun j hj => ?_, fun j hj => ?_, fun j hyj hjx => ?_, fun j hxj hjy => ?_, fun q => ?_,
    fun q => ?_, fun q hqa hqb => ?_, hu.requests_eq.trans ht.requests_eq,
    hu.object_eq.trans ht.object_eq⟩
  · rw [← hs.second j hj]
    refine (hcells _ (by omega)).trans ?_
    by_cases hjx : j < xs.length
    · rw [hkept _ (by omega) (by omega), swapRanges_left hjx]
    · obtain ⟨i, rfl⟩ := Nat.exists_eq_add_of_le (Nat.le_of_not_lt hjx)
      rw [← Nat.add_assoc, hu.value_eq i (by omega)]
      show cells t.heap _ = _
      rw [ht.cells_eq, Nat.add_assoc, swapRanges_of_notMem (by omega) (by omega)]
  · rw [← hs.first j hj]
    refine (hcells _ (by omega)).trans ?_
    rw [hkept _ (by omega) (by omega), swapRanges_right hd hj]
  · omega
  · have hlive : shape s.heap (b + j) = some true := hs.second.live j hjy
    obtain ⟨slot, hslot, -⟩ := exists_of_shape_eq hlive
    have ha := halloc (b + j)
    rw [hslot, Option.map_some] at ha
    obtain ⟨slot', hslot', -⟩ := Option.map_eq_some_iff.mp ha
    show shape (rawRange _ _ _) (b + j) = _
    rw [shape, rawRange, if_pos (by omega), hslot']
    rfl
  · show u.constructed q = _
    rw [hu.constructed_eq, if_pos rfl, ht.constructed_eq, Nat.sub_eq_zero_of_le hle, within_zero,
      Nat.add_zero]
  · show u.destroyed q + _ = _
    rw [hu.destroyed_eq, ht.destroyed_eq, Nat.sub_eq_zero_of_le hle, within_zero, Nat.add_zero]
  · rw [max_eq_right hle] at hqa hqb
    refine (hout q (by omega)).trans (heap_eq_of_cells ?_ (halloc q))
    rw [hkept q (by omega) (by omega), swapRanges_of_notMem (by omega) (by omega)]

/-- **A deep swap swaps**, given the shorter side first. -/
theorem Traits.deepSwapAllocN_swapped (hs : Swappable a b xs ys s) (hle : xs.length ≤ ys.length)
    (he : e.fuse = none) :
    ∃ t, T.deepSwapAllocN e a xs.length b ys.length s = .done () t
      ∧ DeepSwapped a b xs ys s t := by
  have happ := hs.apart
  rw [max_eq_right hle] at happ
  have hlive := hs.second.live
  obtain ⟨t, hdone, ht⟩ := T.swapFront_rearranged hs.first.live
    (fun j hj => hlive j (by omega)) (by omega) he
  have hnull : NothingAtNull t := by
    have hz := ht.allocator_eq 0
    rw [hs.null] at hz
    exact Option.map_eq_none_iff.mp hz
  have hraw : ∀ j < ys.length - xs.length, shape t.heap (a + xs.length + j) = some false := by
    intro j hj
    have hfalse := hs.first_raw (xs.length + j) (by omega) (by omega)
    rw [← Nat.add_assoc] at hfalse
    refine shape_eq_some_false ?_ (ht.allocator_eq _) (by rw [hfalse]; exact Option.some_ne_none _)
    rw [ht.cells_eq, swapRanges_of_notMem (by omega) (by omega)]
    obtain ⟨slot, hslot, helem⟩ := exists_of_shape_eq hfalse
    rw [cells, hslot, Option.bind_some]
    exact Option.not_isSome_iff_eq_none.mp (by simp [helem])
  have hsrc : Sources (Iterator.pointer.derefMove : ℕ → Source α) (b + xs.length) (a + xs.length)
      (ys.length - xs.length) t := by
    refine ⟨fun j hj => ?_, untangled_slots (by omega)⟩
    show shape t.heap _ = _
    rw [live_iff, ht.cells_eq, swapRanges_of_notMem (by omega) (by omega), Nat.add_assoc,
      ← live_iff]
    exact hlive _ (by omega)
  obtain ⟨u, hdone', hu⟩ := T.uninitializedMoveAllocN_stored hnull he hraw hsrc
  refine ⟨_, ?_, deepSwapped_of_parts hs hle ht hu⟩
  rw [deepSwapAllocN, Prog.bind_of_done hdone, Prog.bind_of_done hdone']
  refine destroyAllocN_eq (fun j hj => ?_)
  rw [hu.shape_eq _ (by omega)]
  exact hsrc.readable j hj

/-- **Two containers are swapped**, whichever is longer. -/
theorem Traits.privDeepSwap_swapped (hs : Swappable a b xs ys s) (he : e.fuse = none) :
    ∃ t, T.privDeepSwap e a xs.length b ys.length s = .done (ys.length, xs.length) t
      ∧ DeepSwapped a b xs ys s t := by
  unfold privDeepSwap
  split
  · rename_i hlt
    obtain ⟨t, hdone, ht⟩ := T.deepSwapAllocN_swapped hs hlt.le he
    exact ⟨t, Prog.bind_of_done hdone, ht⟩
  · rename_i hge
    obtain ⟨t, hdone, ht⟩ := T.deepSwapAllocN_swapped hs.symm (Nat.le_of_not_lt hge) he
    exact ⟨t, Prog.bind_of_done hdone, ht.symm⟩

/-- **Ranges are swapped and assigned**, where nothing throws: a deep swap exchanges
two sequences of any lengths, and an assignment, by copies or by moves, makes
elements and raw slots equal to a range of any length. -/
theorem ranges_swapped_and_assigned (T : Traits α) (he : e.fuse = none) :
    (∀ (s : State κ α) (a b : ℕ) (xs ys : List α), Swappable a b xs ys s →
      ∃ t, T.privDeepSwap e a xs.length b ys.length s = .done (ys.length, xs.length) t
        ∧ DeepSwapped a b xs ys s t)
    ∧ (∀ (I : Iterator α) (s : State κ α) (f n r m : ℕ), Assignable I.deref f n r m s →
      ∃ t, T.copyAssignRangeAllocN e I f n r m s = .done () t
        ∧ RangeAssigned I.deref f n r m s t)
    ∧ ∀ (I : Iterator α) (s : State κ α) (f n r m : ℕ), Assignable I.derefMove f n r m s →
      ∃ t, T.moveAssignRangeAllocN e I f n r m s = .done () t
        ∧ RangeAssigned I.derefMove f n r m s t :=
  ⟨fun _ _ _ _ _ hs => T.privDeepSwap_swapped hs he,
    fun _ _ _ _ _ _ hs => T.copyAssignRangeAllocN_assigned hs he,
    fun _ _ _ _ _ _ hs => T.moveAssignRangeAllocN_assigned hs he⟩

/-- Two buffers of two slots, which hold one element and two. -/
def oneAndTwo : State Unit (Fin 1 → UInt8) :=
  State.start (fun p => match p with
    | 1 => some ⟨0, some fun _ => 7⟩
    | 2 => some ⟨0, none⟩
    | 3 => some ⟨0, some fun _ => 8⟩
    | 4 => some ⟨0, some fun _ => 9⟩
    | _ => none) ()

/-- One element of a byte and two are swapped, as bytes. -/
theorem ranges_swapped_of_one_and_two :
    ∃ t, (Traits.mk (some ⟨1, Nat.one_pos, 1, Nat.one_pos, Equiv.refl _⟩) true).privDeepSwap
        ⟨none, none, fun _ _ => none, id, false⟩ 1 1 3 2 oneAndTwo = .done (2, 1) t
      ∧ DeepSwapped 1 3 [fun _ => 7] [fun _ => 8, fun _ => 9] oneAndTwo t := by
  refine (ranges_swapped_and_assigned _ rfl).1 oneAndTwo 1 3 [fun _ => 7]
    [fun _ => 8, fun _ => 9] ⟨rfl, fun j hj => ?_, fun j hj => ?_, fun j hxj hjy => ?_,
      fun j hyj hjx => ?_, by decide⟩
  · obtain rfl : j = 0 := Nat.lt_one_iff.mp hj
    rfl
  · obtain rfl | rfl : j = 0 ∨ j = 1 := by
      have : j < 2 := hj
      omega
    · rfl
    · rfl
  · obtain rfl : j = 1 := by
      have : 1 ≤ j ∧ j < 2 := ⟨hxj, hjy⟩
      omega
    rfl
  · exact absurd (hyj.trans_lt hjx) (by decide)

end Slots
