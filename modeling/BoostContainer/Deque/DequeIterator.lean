import BoostContainer.Deque.DequeEnds

/-!
# Iterators of a deque

A `deque_iterator` is a pair of pointers: `m_cur` to an element, `m_node` to
the place of the map that holds the node of the element. What is between two
elements of different nodes is told by the map alone, so arithmetic goes
through offsets in a block, with a division for the nodes that are passed.

Pointers are integers here, counted in what they point to, and `0` is null. The
map is read where it is: a read of a place outside, or of one that no node was
written to, has no result.

The segmented view takes an iterator apart again: the node is the segment, the
pointer to the element is the local iterator.
-/

open Slots

namespace DequeImpl

/-- **Where the map is**: the address of a map, null where there is none. -/
structure MapAt (map : List (Option ℕ)) where
  addr : ℕ
  null_iff : addr = 0 ↔ map = []

/-- **`deque_iterator`** -/
structure DequeIterator where
  /-- `m_cur` -/
  cur : ℤ
  /-- `m_node` -/
  node : ℤ
  deriving DecidableEq

section Operators

variable {map : List (Option ℕ)} (o : Options) (w : MapAt map)

/-- `*m_node`, of a pointer to the map. -/
def MapAt.read (p : ℤ) : Option ℤ :=
  if p < w.addr then none else (map[(p - w.addr).toNat]?.join).map Int.ofNat

namespace DequeIterator

/-- `operator-` -/
def diff (l x : DequeIterator) : Option ℤ :=
  if l.cur = x.cur then some 0
  else do
    let first ← w.read l.node
    let xfirst ← w.read x.node
    some (o.blockSize * (l.node - x.node) + (l.cur - first) - (x.cur - xfirst))

/-- `operator++` -/
def increment (it : DequeIterator) : Option DequeIterator := do
  let cur := it.cur + 1
  let last := (← w.read it.node) + o.blockSize
  if cur = last then
    let node := it.node + 1
    some ⟨← w.read node, node⟩
  else some ⟨cur, it.node⟩

/-- `operator--` -/
def decrement (it : DequeIterator) : Option DequeIterator := do
  let first ← w.read it.node
  if it.cur = first then
    let node := it.node - 1
    some ⟨(← w.read node) + (o.blockSize - 1), node⟩
  else some ⟨it.cur - 1, it.node⟩

/-- The nodes that are passed, of `operator+=` and `operator[]`. -/
def nodeOffset (offset : ℤ) : ℤ :=
  if 0 < offset then offset.tdiv o.blockSize
  else -(-offset - 1).tdiv o.blockSize - 1

/-- `operator+=` -/
def add (n : ℤ) (it : DequeIterator) : Option DequeIterator :=
  if n = 0 then some it
  else do
    let offset := n + (it.cur - (← w.read it.node))
    if 0 ≤ offset ∧ offset < o.blockSize then some ⟨it.cur + n, it.node⟩
    else
      let node := it.node + nodeOffset o offset
      some ⟨(← w.read node) + (offset - nodeOffset o offset * o.blockSize), node⟩

/-- `operator-=` -/
def sub (n : ℤ) (it : DequeIterator) : Option DequeIterator := it.add o w (-n)

/-- `operator[]`, the address of what it refers to. -/
def subscript (n : ℤ) (it : DequeIterator) : Option ℤ := do
  let offset := n + (it.cur - (← w.read it.node))
  if 0 ≤ offset ∧ offset < o.blockSize then some (it.cur + n)
  else
    some ((← w.read (it.node + nodeOffset o offset))
      + (offset - nodeOffset o offset * o.blockSize))

/-- `operator==` -/
def eq (l r : DequeIterator) : Bool := l.cur = r.cur

/-- `operator<` -/
def lt (l r : DequeIterator) : Bool :=
  if l.node = r.node then l.cur < r.cur else l.node < r.node

end DequeIterator

/-- `prot_it_to_off` -/
def protItToOff (it : DequeIterator) : Option ℕ :=
  if it.node ≠ 0 then do
    let first ← w.read it.node
    some (o.stored ((it.node - w.addr).toNat * o.blockSize + (it.cur - first).toNat))
  else some 0

/-- `prot_off_to_it` -/
def protOffToIt (off : ℕ) : Option DequeIterator :=
  let node : ℤ := w.addr + ↑(off / o.blockSize)
  if node ≠ 0 then do
    some ⟨(← w.read node) + ↑(off % o.blockSize), node⟩
  else some ⟨0, node⟩

/-! ## The segmented view -/

/-- `segmented_iterator_traits::segment` -/
def segment (it : DequeIterator) : ℤ := it.node

/-- `segmented_iterator_traits::local` -/
def localOf (it : DequeIterator) : ℤ := it.cur

/-- `segmented_iterator_traits::begin` -/
def segmentBegin (s : ℤ) : Option ℤ := w.read s

/-- `segmented_iterator_traits::end` -/
def segmentEnd (s : ℤ) : Option ℤ := (w.read s).map (· + o.blockSize)

/-- `segmented_iterator_traits::compose` -/
def compose (s l : ℤ) : Option DequeIterator :=
  if s ≠ 0 then do
    let last ← segmentEnd o w s
    if l = last then some ⟨← w.read (s + 1), s + 1⟩ else some ⟨l, s⟩
  else some ⟨l, s⟩

/-- The local ranges of `n` whole segments and of the last one, up to `last`. -/
def localRangesFrom (last : ℤ) : ℕ → ℤ → Option (List (ℤ × ℤ))
  | 0, s => do
    let first ← segmentBegin w s
    some [(first, last)]
  | n + 1, s => do
    let first ← segmentBegin w s
    let rest ← localRangesFrom last n (s + 1)
    some ((first, ← segmentEnd o w s) :: rest)

/-- **The local ranges of a range**, as the algorithms on segmented iterators go
through them (`segmented_for_each`). -/
def localRanges (first last : DequeIterator) : Option (List (ℤ × ℤ)) :=
  if segment first = segment last then some [(localOf first, localOf last)]
  else if segment first < segment last then do
    let sfirst := segment first + 1
    let rest ← localRangesFrom o w (localOf last) (segment last - sfirst).toNat sfirst
    some ((localOf first, ← segmentEnd o w (segment first)) :: rest)
  else none

/-- The positions of a local range. -/
def positions (r : ℤ × ℤ) : List ℤ := (List.range (r.2 - r.1).toNat).map fun j => r.1 + ↑j

end Operators

variable {α : Type*} {o : Options} {t : Bool} {s₀ s : State Members α} {S₀ N : Set ℕ}
  {map : List (Option ℕ)} {w : MapAt map} {x y a b i : ℕ}

/-! ## Positions -/

/-- The iterator at an offset. -/
def iteratorAt (o : Options) (w : MapAt map) (x : ℕ) : DequeIterator :=
  ⟨addrIn o map x, w.addr + ↑(x / o.blockSize)⟩

/-- A node that was written is read. -/
theorem MapAt.read_node (hw : Written map N) (hi : i ∈ N) :
    w.read (w.addr + ↑i) = some ↑(nodeOf map i) := by
  obtain ⟨p, hp⟩ := hw i hi
  have hsub : ((w.addr : ℤ) + ↑i - ↑w.addr).toNat = i := by
    rw [add_sub_cancel_left, Int.toNat_natCast]
  rw [read, if_neg (by omega), hsub, nodeOf, hp]
  rfl

theorem addrIn_cast (o : Options) (map : List (Option ℕ)) (x : ℕ) :
    ((addrIn o map x : ℕ) : ℤ) = ↑(nodeOf map (x / o.blockSize)) + ↑(x % o.blockSize) :=
  Nat.cast_add _ _

theorem iteratorAt_cur (x : ℕ) : (iteratorAt o w x).cur
    = ↑(nodeOf map (x / o.blockSize)) + ↑(x % o.blockSize) := addrIn_cast o map x

theorem iteratorAt_node (x : ℕ) :
    (iteratorAt o w x).node = ↑w.addr + ↑(x / o.blockSize) := rfl

/-- Two pointers are the iterator at an offset. -/
theorem mk_eq_iteratorAt {c n : ℤ}
    (hc : c = ↑(nodeOf map (y / o.blockSize)) + ↑(y % o.blockSize))
    (hn : n = ↑w.addr + ↑(y / o.blockSize)) :
    some (DequeIterator.mk c n) = some (iteratorAt o w y) := by
  rw [iteratorAt, addrIn_cast, hc, hn]

/-- The node of an iterator is read. -/
theorem MapAt.read_iteratorAt (hw : Written map N) (hx : x / o.blockSize ∈ N) :
    w.read (iteratorAt o w x).node = some ↑(nodeOf map (x / o.blockSize)) :=
  w.read_node hw hx

/-- The offset of an iterator in its block. -/
theorem iteratorAt_sub_node (x : ℕ) :
    (iteratorAt o w x).cur - ↑(nodeOf map (x / o.blockSize)) = ↑(x % o.blockSize) := by
  rw [iteratorAt_cur, add_sub_cancel_left]

/-- **The next offset** is in the next block, or in the same. -/
theorem div_mod_succ {bs : ℕ} (hbs : 0 < bs) (x : ℕ) :
    (x % bs + 1 = bs ∧ (x + 1) / bs = x / bs + 1 ∧ (x + 1) % bs = 0)
      ∨ (x % bs + 1 < bs ∧ (x + 1) / bs = x / bs ∧ (x + 1) % bs = x % bs + 1) := by
  have hdm := Nat.div_add_mod x bs
  rcases Nat.lt_or_ge (x % bs + 1) bs with hlt | hge
  · refine Or.inr ⟨hlt, ?_⟩
    have hx : x + 1 = bs * (x / bs) + (x % bs + 1) := by omega
    rw [hx, Nat.mul_add_div hbs, Nat.mul_add_mod, Nat.div_eq_of_lt hlt, Nat.mod_eq_of_lt hlt,
      Nat.add_zero]
    exact ⟨rfl, rfl⟩
  · have hmod : x % bs + 1 = bs := le_antisymm (Nat.mod_lt x hbs) hge
    have hx : x + 1 = bs * (x / bs + 1) := by
      rw [Nat.mul_succ]
      omega
    refine Or.inl ⟨hmod, ?_⟩
    rw [hx, Nat.mul_div_cancel_left _ hbs, Nat.mul_mod_right]
    exact ⟨rfl, rfl⟩

theorem div_mul_add_mod (x bs : ℕ) : (bs : ℤ) * ↑(x / bs) + ↑(x % bs) = ↑x := by
  exact_mod_cast Nat.div_add_mod x bs

/-- **The nodes that are passed** are a quotient that is rounded down. -/
theorem DequeIterator.nodeOffset_eq {q : ℤ} {r : ℕ} (hr : r < o.blockSize)
    (hout : ¬ (0 ≤ o.blockSize * q + r ∧ o.blockSize * q + r < o.blockSize)) :
    nodeOffset o (o.blockSize * q + r) = q := by
  have hbs : (0 : ℤ) < o.blockSize := by exact_mod_cast o.blockSize_pos
  have hr' : (r : ℤ) < o.blockSize := by exact_mod_cast hr
  have hdiv : ∀ (p : ℤ) (c : ℤ), 0 ≤ c → c < o.blockSize →
      (o.blockSize * p + c) / o.blockSize = p := by
    intro p c h₀ h₁
    rw [Int.add_comm, Int.add_mul_ediv_left _ _ hbs.ne', Int.ediv_eq_zero_of_lt h₀ h₁,
      Int.zero_add]
  rw [nodeOffset]
  split
  · next hpos =>
    rw [Int.tdiv_eq_ediv_of_nonneg hpos.le]
    exact hdiv q r (Int.natCast_nonneg r) hr'
  · next hneg =>
    -- the dividend counts back from the last slot of a node
    have hnonneg : 0 ≤ -(o.blockSize * q + r) - 1 := by
      by_contra hlt
      exact hout ⟨by omega, by omega⟩
    have hsplit : -((o.blockSize : ℤ) * q + r) - 1
        = o.blockSize * (-q - 1) + (o.blockSize - 1 - r) := by
      rw [Int.mul_sub, Int.mul_neg, Int.mul_one]
      omega
    rw [Int.tdiv_eq_ediv_of_nonneg hnonneg, hsplit, hdiv (-q - 1) _ (by omega) (by omega)]
    omega

namespace DequeIterator

/-- How far another position is from the node of an iterator. -/
theorem offset_eq (x y : ℕ) : ((y : ℤ) - x) + ↑(x % o.blockSize)
    = o.blockSize * (↑(y / o.blockSize) - ↑(x / o.blockSize)) + ↑(y % o.blockSize) := by
  have hx := div_mul_add_mod x o.blockSize
  have hy := div_mul_add_mod y o.blockSize
  rw [Int.mul_sub]
  omega

/-- **Two positions of one node.** -/
theorem same_node_of_offset
    (h : 0 ≤ (o.blockSize : ℤ) * (↑(y / o.blockSize) - ↑(x / o.blockSize))
        + ↑(y % o.blockSize)
      ∧ (o.blockSize : ℤ) * (↑(y / o.blockSize) - ↑(x / o.blockSize)) + ↑(y % o.blockSize)
        < o.blockSize) : y / o.blockSize = x / o.blockSize := by
  have hbs : (0 : ℤ) < o.blockSize := by exact_mod_cast o.blockSize_pos
  have hr : ((y % o.blockSize : ℕ) : ℤ) < o.blockSize := by
    exact_mod_cast Nat.mod_lt y o.blockSize_pos
  have hlt : (↑(y / o.blockSize) - ↑(x / o.blockSize) : ℤ) < 1 := by
    by_contra hge
    have := Int.mul_le_mul_of_nonneg_left (Int.not_lt.mp hge) hbs.le
    omega
  have hgt : (-1 : ℤ) < ↑(y / o.blockSize) - ↑(x / o.blockSize) := by
    by_contra hge
    have := Int.mul_le_mul_of_nonneg_left (Int.not_lt.mp hge) hbs.le
    omega
  omega

/-- **`operator+=`** goes to the position as far away as it is told. -/
theorem add_iteratorAt (hw : Written map N) (hx : x / o.blockSize ∈ N)
    (hy : y / o.blockSize ∈ N) :
    (iteratorAt o w x).add o w (y - x) = some (iteratorAt o w y) := by
  rw [add]
  split
  · next h =>
    rw [show x = y by omega]
  · next h =>
    simp only [w.read_iteratorAt hw hx, bind, Option.bind]
    rw [iteratorAt_sub_node, offset_eq]
    split
    · next hin =>
      have hsame := same_node_of_offset hin
      refine mk_eq_iteratorAt ?_ (by rw [hsame, iteratorAt_node])
      have hx := div_mul_add_mod x o.blockSize
      have hy := div_mul_add_mod y o.blockSize
      rw [hsame] at hy ⊢
      rw [iteratorAt_cur]
      omega
    · next hout =>
      rw [nodeOffset_eq (Nat.mod_lt y o.blockSize_pos) hout]
      have hnode : (iteratorAt o w x).node + (↑(y / o.blockSize) - ↑(x / o.blockSize))
          = ↑w.addr + ↑(y / o.blockSize) := by
        rw [iteratorAt_node]
        ring
      rw [hnode, w.read_node hw hy]
      exact mk_eq_iteratorAt (by ring) rfl

/-- **`operator[]`** is the address of that position. -/
theorem subscript_iteratorAt (hw : Written map N) (hx : x / o.blockSize ∈ N)
    (hy : y / o.blockSize ∈ N) :
    (iteratorAt o w x).subscript o w (y - x) = some ↑(addrIn o map y) := by
  simp only [subscript, w.read_iteratorAt hw hx, bind, Option.bind]
  rw [iteratorAt_sub_node, offset_eq, addrIn_cast]
  split
  · next hin =>
    have hsame := same_node_of_offset hin
    have hx := div_mul_add_mod x o.blockSize
    have hy := div_mul_add_mod y o.blockSize
    rw [hsame] at hy ⊢
    rw [iteratorAt_cur]
    exact congrArg some (by omega)
  · next hout =>
    rw [nodeOffset_eq (Nat.mod_lt y o.blockSize_pos) hout]
    have hnode : (iteratorAt o w x).node + (↑(y / o.blockSize) - ↑(x / o.blockSize))
        = ↑w.addr + ↑(y / o.blockSize) := by
      rw [iteratorAt_node]
      ring
    rw [hnode, w.read_node hw hy]
    exact congrArg some (by ring)

/-- **`operator++`** goes to the next position, the first of the next node where a
node ends. -/
theorem increment_iteratorAt (hw : Written map N) (hx : x / o.blockSize ∈ N)
    (hy : (x + 1) / o.blockSize ∈ N) :
    (iteratorAt o w x).increment o w = some (iteratorAt o w (x + 1)) := by
  have hcur := iteratorAt_cur (o := o) (w := w) x
  simp only [increment, w.read_iteratorAt hw hx, bind, Option.bind]
  rcases div_mod_succ o.blockSize_pos x with ⟨hmod, hdiv, hmod'⟩ | ⟨hmod, hdiv, hmod'⟩
  · have hnode : (iteratorAt o w x).node + 1 = ↑w.addr + ↑((x + 1) / o.blockSize) := by
      rw [iteratorAt_node, hdiv]
      push_cast
      ring
    rw [if_pos (by omega), hnode, w.read_node hw hy]
    exact mk_eq_iteratorAt (by rw [hmod', Nat.cast_zero, Int.add_zero]) rfl
  · rw [if_neg (by omega)]
    exact mk_eq_iteratorAt (by rw [hdiv, hmod']; omega) (by rw [hdiv, iteratorAt_node])

/-- **`operator--`** goes to the position before, the last of the node before
where a node starts. -/
theorem decrement_iteratorAt (hw : Written map N) (hx : x / o.blockSize ∈ N)
    (hy : (x + 1) / o.blockSize ∈ N) :
    (iteratorAt o w (x + 1)).decrement o w = some (iteratorAt o w x) := by
  have hcur := iteratorAt_cur (o := o) (w := w) (x + 1)
  simp only [decrement, w.read_iteratorAt hw hy, bind, Option.bind]
  rcases div_mod_succ o.blockSize_pos x with ⟨hmod, hdiv, hmod'⟩ | ⟨hmod, hdiv, hmod'⟩
  · have hnode : (iteratorAt o w (x + 1)).node - 1 = ↑w.addr + ↑(x / o.blockSize) := by
      rw [iteratorAt_node, hdiv]
      push_cast
      ring
    rw [if_pos (by omega), hnode, w.read_node hw hx]
    exact mk_eq_iteratorAt (by omega) rfl
  · rw [if_neg (by omega)]
    exact mk_eq_iteratorAt (by rw [hcur, hdiv]; omega) (by rw [iteratorAt_node, hdiv])

/-- **`operator-`** is how far apart two positions are. -/
theorem diff_iteratorAt (hw : Written map N)
    (hinj : Set.InjOn (addrIn o map) (slotsOf o.blockSize N))
    (hx : x / o.blockSize ∈ N) (hy : y / o.blockSize ∈ N) :
    (iteratorAt o w y).diff o w (iteratorAt o w x) = some ((y : ℤ) - x) := by
  rw [diff]
  split
  · next h =>
    have hxy : y = x := hinj hy hx (Int.ofNat_inj.mp h)
    rw [hxy, sub_self]
  · next h =>
    simp only [w.read_iteratorAt hw hx, w.read_iteratorAt hw hy, bind, Option.bind]
    rw [iteratorAt_sub_node, iteratorAt_sub_node, iteratorAt_node, iteratorAt_node]
    have hx := div_mul_add_mod x o.blockSize
    have hy := div_mul_add_mod y o.blockSize
    refine congrArg some ?_
    rw [add_sub_add_left_eq_sub, Int.mul_sub]
    omega

/-- Two iterators are equal where their positions are. -/
theorem eq_iteratorAt (hinj : Set.InjOn (addrIn o map) (slotsOf o.blockSize N))
    (hx : x / o.blockSize ∈ N) (hy : y / o.blockSize ∈ N) :
    (iteratorAt o w x).eq (iteratorAt o w y) = true ↔ x = y := by
  rw [eq, decide_eq_true_iff]
  exact ⟨fun h => hinj hx hy (Int.ofNat_inj.mp h), fun h => by rw [h]⟩

/-- **`operator<`** compares positions. -/
theorem lt_iteratorAt (x y : ℕ) :
    (iteratorAt o w x).lt (iteratorAt o w y) = true ↔ x < y := by
  have hdx := Nat.div_add_mod x o.blockSize
  have hdy := Nat.div_add_mod y o.blockSize
  rw [lt, iteratorAt_node, iteratorAt_node]
  split
  · next h =>
    have hsame : x / o.blockSize = y / o.blockSize := by omega
    rw [decide_eq_true_iff, iteratorAt_cur, iteratorAt_cur, hsame]
    rw [hsame] at hdx
    omega
  · next h =>
    rw [decide_eq_true_iff]
    have hne : x / o.blockSize ≠ y / o.blockSize := fun heq => h (by rw [heq])
    constructor
    · intro hlt
      have hlt' : x / o.blockSize < y / o.blockSize := by omega
      by_contra hge
      exact absurd (Nat.div_le_div_right (c := o.blockSize) (Nat.not_lt.mp hge)) (by omega)
    · intro hlt
      have hle : x / o.blockSize ≤ y / o.blockSize := Nat.div_le_div_right hlt.le
      omega

end DequeIterator

/-! ## Offsets and segments -/

/-- There is a map where a node was written. -/
theorem MapAt.node_ne_zero (hw : Written map N) (hi : i ∈ N) (j : ℕ) :
    (w.addr : ℤ) + ↑j ≠ 0 := by
  have hlt := hw.lt_length hi
  have hne : w.addr ≠ 0 := by
    rw [ne_eq, w.null_iff]
    rintro rfl
    exact absurd hlt (Nat.not_lt_zero i)
  omega

/-- **`prot_off_to_it`** is the iterator at an offset. -/
theorem protOffToIt_eq (hw : Written map N) (hx : x / o.blockSize ∈ N) :
    protOffToIt o w x = some (iteratorAt o w x) := by
  simp only [protOffToIt, w.read_node hw hx, bind, Option.bind]
  rw [if_pos (w.node_ne_zero hw hx _)]
  exact mk_eq_iteratorAt rfl rfl

/-- **`prot_it_to_off`** is the offset of an iterator. -/
theorem protItToOff_iteratorAt (hw : Written map N) (hx : x / o.blockSize ∈ N) :
    protItToOff o w (iteratorAt o w x) = some (o.stored x) := by
  simp only [protItToOff, w.read_iteratorAt hw hx, bind, Option.bind]
  rw [iteratorAt_sub_node, iteratorAt_node, if_pos (w.node_ne_zero hw hx _),
    add_sub_cancel_left, Int.toNat_natCast, Int.toNat_natCast, Nat.mul_comm, Nat.div_add_mod]

/-- **An iterator is composed** of its segment and its local iterator. -/
theorem compose_iteratorAt (hw : Written map N) (hx : x / o.blockSize ∈ N) :
    compose o w (segment (iteratorAt o w x)) (localOf (iteratorAt o w x))
      = some (iteratorAt o w x) := by
  have hlt : ((x % o.blockSize : ℕ) : ℤ) < o.blockSize :=
    Int.ofNat_lt.mpr (Nat.mod_lt x o.blockSize_pos)
  have hnode : (iteratorAt o w x).node ≠ 0 := w.node_ne_zero hw hx _
  have hne : (iteratorAt o w x).cur ≠ ↑(nodeOf map (x / o.blockSize)) + ↑o.blockSize := by
    rw [iteratorAt_cur]
    omega
  rw [compose, segment, localOf, if_pos hnode, segmentEnd,
    w.read_iteratorAt hw hx]
  exact if_neg hne

/-- **A segment and its end** are the first position of the next segment. -/
theorem compose_end (hw : Written map N) (hi : i ∈ N) (hi' : i + 1 ∈ N) :
    (segmentEnd o w (w.addr + ↑i)).bind (compose o w (w.addr + ↑i))
      = some (iteratorAt o w ((i + 1) * o.blockSize)) := by
  have hread : w.read (w.addr + ↑i + 1) = some ↑(nodeOf map (i + 1)) := w.read_node hw hi'
  simp only [compose, segmentEnd, w.read_node hw hi, Option.map, bind, Option.bind, hread]
  rw [if_pos (w.node_ne_zero hw hi i), if_pos trivial]
  refine mk_eq_iteratorAt ?_ ?_
  · rw [Nat.mul_div_cancel _ o.blockSize_pos, Nat.mul_mod_left, Nat.cast_zero, Int.add_zero]
  · rw [Nat.mul_div_cancel _ o.blockSize_pos]
    push_cast
    ring

/-- The addresses of consecutive offsets. -/
def addresses (o : Options) (map : List (Option ℕ)) (a n : ℕ) : List ℤ :=
  (List.range' a n).map fun x => ↑(addrIn o map x)

theorem addresses_append (a m n : ℕ) :
    addresses o map a m ++ addresses o map (a + m) n = addresses o map a (m + n) := by
  rw [addresses, addresses, addresses, ← List.map_append, List.range'_append_1]

/-- **A local range in one block** goes through consecutive offsets. -/
theorem positions_block {n : ℕ} (h : x % o.blockSize + n ≤ o.blockSize) :
    positions (↑(addrIn o map x), ↑(addrIn o map x) + ↑n) = addresses o map x n := by
  rw [positions, addresses, List.range'_eq_map_range, List.map_map, add_sub_cancel_left,
    Int.toNat_natCast]
  refine List.map_congr_left (fun j hj => ?_)
  have haddr : addrIn o map (x + j) = addrIn o map x + j :=
    blockAddr_add (by have := List.mem_range.mp hj; omega)
  rw [Function.comp_apply, haddr, Nat.cast_add]

/-- The address of the begin of a block. -/
theorem addrIn_begin (o : Options) (map : List (Option ℕ)) (i : ℕ) :
    ((addrIn o map (i * o.blockSize) : ℕ) : ℤ) = ↑(nodeOf map i) := by
  rw [addrIn_cast, Nat.mul_div_cancel _ o.blockSize_pos, Nat.mul_mod_left, Nat.cast_zero,
    Int.add_zero]

/-- **The segments after the first** go through the offsets from the begin of
theirs on. -/
theorem localRangesFrom_eq {n : ℕ} (hw : Written map N) (hi : Set.Icc i (i + n) ⊆ N)
    (hy : y / o.blockSize = i + n) :
    ∃ rs, localRangesFrom o w (localOf (iteratorAt o w y)) n (w.addr + ↑i) = some rs
      ∧ rs.flatMap positions = addresses o map (i * o.blockSize) (y - i * o.blockSize) := by
  induction n generalizing i with
  | zero =>
    refine ⟨[(↑(nodeOf map i), (iteratorAt o w y).cur)], ?_, ?_⟩
    · rw [localRangesFrom, segmentBegin, w.read_node hw (hi ⟨le_rfl, le_rfl⟩)]
      rfl
    · have hdm := Nat.div_add_mod y o.blockSize
      have hlt := Nat.mod_lt y o.blockSize_pos
      have hsub : y - i * o.blockSize = y % o.blockSize := by
        rw [Nat.mul_comm]
        rw [hy, Nat.add_zero] at hdm
        omega
      rw [List.flatMap_singleton, iteratorAt_cur, hy, Nat.add_zero, hsub,
        ← addrIn_begin o,
        positions_block (by rw [Nat.mul_mod_left]; omega)]
  | succ n ih =>
    obtain ⟨rs, hrs, hflat⟩ := ih (i := i + 1)
      (fun j hj => hi ⟨by have := hj.1; omega, by have := hj.2; omega⟩) (by omega)
    refine ⟨(↑(nodeOf map i), ↑(nodeOf map i) + ↑o.blockSize) :: rs, ?_, ?_⟩
    · have hnext : (w.addr : ℤ) + ↑i + 1 = ↑w.addr + ↑(i + 1) := by
        push_cast
        ring
      rw [localRangesFrom, segmentBegin, segmentEnd, w.read_node hw (hi ⟨le_rfl, by omega⟩),
        hnext, hrs]
      rfl
    · have hle : (i + 1) * o.blockSize ≤ y := by
        rw [← Nat.le_div_iff_mul_le o.blockSize_pos]
        omega
      have hsum : o.blockSize + (y - (i + 1) * o.blockSize) = y - i * o.blockSize := by
        rw [Nat.succ_mul] at hle ⊢
        omega
      rw [List.flatMap_cons, hflat, ← addrIn_begin o,
        positions_block (by rw [Nat.mul_mod_left, Nat.zero_add]), Nat.succ_mul,
        addresses_append, ← Nat.succ_mul, hsum]

/-- **The local ranges of a range** go through its positions. -/
theorem localRanges_eq (hw : Written map N) (hab : a ≤ b)
    (hN : Set.Icc (a / o.blockSize) (b / o.blockSize) ⊆ N) :
    ∃ rs, localRanges o w (iteratorAt o w a) (iteratorAt o w b) = some rs
      ∧ rs.flatMap positions = addresses o map a (b - a) := by
  have hda := Nat.div_add_mod a o.blockSize
  have hdb := Nat.div_add_mod b o.blockSize
  have hla := Nat.mod_lt a o.blockSize_pos
  have hlb := Nat.mod_lt b o.blockSize_pos
  have hle : a / o.blockSize ≤ b / o.blockSize := Nat.div_le_div_right hab
  rcases Nat.eq_or_lt_of_le hle with hsame | hlt
  · refine ⟨[((iteratorAt o w a).cur, (iteratorAt o w b).cur)], ?_, ?_⟩
    · rw [localRanges, segment, segment, iteratorAt_node, iteratorAt_node, hsame, if_pos rfl]
      rfl
    · have hbaddr : addrIn o map b = addrIn o map a + (b - a) := by
        rw [addrIn, blockAddr, blockAddr, hsame]
        rw [hsame] at hda
        omega
      rw [List.flatMap_singleton, iteratorAt, iteratorAt, hbaddr, Nat.cast_add]
      refine positions_block ?_
      rw [hsame] at hda
      omega
  · obtain ⟨n, hn⟩ := Nat.exists_eq_add_of_lt hlt
    obtain ⟨rs, hrs, hflat⟩ := localRangesFrom_eq (o := o) (i := a / o.blockSize + 1)
      (n := n) (y := b) hw
      (fun j hj => hN ⟨by have := hj.1; omega, by have := hj.2; omega⟩) (by omega)
    have hrest : a + (o.blockSize - a % o.blockSize) = (a / o.blockSize + 1) * o.blockSize := by
      rw [Nat.succ_mul, Nat.mul_comm]
      omega
    have hble : (a / o.blockSize + 1) * o.blockSize ≤ b := by
      rw [← Nat.le_div_iff_mul_le o.blockSize_pos]
      omega
    refine ⟨((iteratorAt o w a).cur, ↑(nodeOf map (a / o.blockSize)) + ↑o.blockSize) :: rs,
      ?_, ?_⟩
    · have hfirst : (iteratorAt o w a).node + 1 = ↑w.addr + ↑(a / o.blockSize + 1) := by
        rw [iteratorAt_node]
        push_cast
        ring
      have hcount :
          ((iteratorAt o w b).node - (↑w.addr + ↑(a / o.blockSize + 1))).toNat = n := by
        rw [iteratorAt_node, hn]
        push_cast
        omega
      have hlt' : (iteratorAt o w a).node < (iteratorAt o w b).node := by
        rw [iteratorAt_node, iteratorAt_node]
        omega
      simp only [localRanges, segment, if_neg hlt'.ne, if_pos hlt', hcount, hfirst, segmentEnd,
        w.read_iteratorAt hw (hN ⟨le_rfl, hle⟩)]
      rw [hrs]
      rfl
    · have hend : (↑(nodeOf map (a / o.blockSize)) + ↑o.blockSize : ℤ)
          = ↑(addrIn o map a) + ↑(o.blockSize - a % o.blockSize) := by
        rw [addrIn_cast]
        omega
      rw [List.flatMap_cons, hflat, hend, iteratorAt, positions_block (by omega), ← hrest,
        addresses_append]
      congr 1
      omega

/-! ## The iterators of a deque -/

/-- **Iterators are offsets**: what the operators of `deque_iterator` and the
segmented view do, told by the offsets of the elements of a deque. -/
structure FlatIterators (o : Options) (k : Members) (w : MapAt k.map) : Prop where
  round_trip : ∀ a ∈ Set.Icc k.startOff k.finishOff, ∃ it, protOffToIt o w a = some it
    ∧ protItToOff o w it = some a
  add_eq : ∀ a ∈ Set.Icc k.startOff k.finishOff, ∀ b ∈ Set.Icc k.startOff k.finishOff,
    ∀ i j, protOffToIt o w a = some i → protOffToIt o w b = some j →
      i.add o w (b - a) = some j ∧ i.sub o w (a - b) = some j
  diff_eq : ∀ a ∈ Set.Icc k.startOff k.finishOff, ∀ b ∈ Set.Icc k.startOff k.finishOff,
    ∀ i j, protOffToIt o w a = some i → protOffToIt o w b = some j →
      j.diff o w i = some ((b : ℤ) - a)
  subscript_eq : ∀ a ∈ Set.Icc k.startOff k.finishOff, ∀ b ∈ k.elements, ∀ i,
    protOffToIt o w a = some i → i.subscript o w (b - a) = some ↑(addrIn o k.map b)
  step : ∀ a, k.startOff ≤ a → a < k.finishOff →
    ∀ i j, protOffToIt o w a = some i → protOffToIt o w (a + 1) = some j →
      i.increment o w = some j ∧ j.decrement o w = some i
  lt_iff : ∀ a ∈ Set.Icc k.startOff k.finishOff, ∀ b ∈ Set.Icc k.startOff k.finishOff,
    ∀ i j, protOffToIt o w a = some i → protOffToIt o w b = some j →
      ((i.lt j = true ↔ a < b) ∧ (i.eq j = true ↔ a = b))
  compose_local : ∀ a ∈ Set.Icc k.startOff k.finishOff, ∀ i, protOffToIt o w a = some i →
    compose o w (segment i) (localOf i) = some i
  compose_last : ∀ n, k.protStartNode o ≤ n → n < k.protFinishNode o →
    ∃ i, (segmentEnd o w (w.addr + ↑n)).bind (compose o w (w.addr + ↑n)) = some i
      ∧ protOffToIt o w ((n + 1) * o.blockSize) = some i
      ∧ segment i = w.addr + ↑n + 1 ∧ segmentBegin w (segment i) = some (localOf i)
  ranges : ∀ a, k.startOff ≤ a → ∀ b, a ≤ b → b ≤ k.finishOff →
    ∀ i j, protOffToIt o w a = some i → protOffToIt o w b = some j →
      ∃ rs, localRanges o w i j = some rs
        ∧ rs.flatMap positions = (List.range' a (b - a)).map fun x => ↑(addrIn o k.map x)

/-- **Without a map** there is one iterator, of two null pointers. -/
theorem flatIterators_of_null {k : Members} (w : MapAt k.map) (hv : k.Valid o) (hn : k.map = []) :
    FlatIterators o k w := by
  have hf : k.finishOff = 0 := hv.null hn
  have hs : k.startOff = 0 := hv.start_eq_zero hn
  have hzero : ∀ {a}, a ∈ Set.Icc k.startOff k.finishOff → a = 0 :=
    fun ha => Nat.le_zero.mp (hf ▸ ha.2)
  have hit : protOffToIt o w 0 = some ⟨0, 0⟩ := by
    rw [protOffToIt, w.null_iff.mpr hn, Nat.zero_div]
    rfl
  have heq : ∀ {a i}, a ∈ Set.Icc k.startOff k.finishOff → protOffToIt o w a = some i →
      a = 0 ∧ i = ⟨0, 0⟩ := by
    intro a i ha hi
    rw [hzero ha, hit] at hi
    exact ⟨hzero ha, (Option.some.inj hi).symm⟩
  refine ⟨?_, ?_, ?_, ?_, ?_, ?_, ?_, ?_, ?_⟩
  · intro a ha
    rw [hzero ha]
    exact ⟨⟨0, 0⟩, hit, rfl⟩
  · intro a ha b hb i j hi hj
    obtain ⟨rfl, rfl⟩ := heq ha hi
    obtain ⟨rfl, rfl⟩ := heq hb hj
    exact ⟨rfl, rfl⟩
  · intro a ha b hb i j hi hj
    obtain ⟨rfl, rfl⟩ := heq ha hi
    obtain ⟨rfl, rfl⟩ := heq hb hj
    rfl
  · intro a _ b hb
    have hlt := hb.2
    omega
  · intro a ha hlt
    omega
  · intro a ha b hb i j hi hj
    obtain ⟨rfl, rfl⟩ := heq ha hi
    obtain ⟨rfl, rfl⟩ := heq hb hj
    exact ⟨by simp [DequeIterator.lt], by simp [DequeIterator.eq]⟩
  · intro a ha i hi
    obtain ⟨rfl, rfl⟩ := heq ha hi
    rfl
  · intro n _ hlt
    rw [Members.protFinishNode, hf, Nat.zero_div] at hlt
    exact absurd hlt (Nat.not_lt_zero n)
  · intro a ha b hab hb i j hi hj
    obtain ⟨rfl, rfl⟩ := heq ⟨ha, hab.trans hb⟩ hi
    obtain ⟨rfl, rfl⟩ := heq ⟨ha.trans hab, hb⟩ hj
    exact ⟨[(0, 0)], rfl, rfl⟩

/-- **The iterators of every deque are its offsets.** -/
theorem iterators_flat (h : Holds o t s₀ S₀ s) (w : MapAt s.object.map) :
    FlatIterators o s.object w := by
  have hv := h.valid
  by_cases hne : s.object.map = []
  · exact flatIterators_of_null w hv hne
  -- every offset up to the finish lies in a node
  have hmem : ∀ {n}, s.object.protStartNode o ≤ n → n ≤ s.object.protFinishNode o →
      n ∈ s.object.nodes o := fun h₁ h₂ => hv.mem_nodes hne h₁ h₂
  have hnode : ∀ {a}, a ∈ Set.Icc s.object.startOff s.object.finishOff →
      a / o.blockSize ∈ s.object.nodes o :=
    fun ha => hmem (Nat.div_le_div_right ha.1) (Nat.div_le_div_right ha.2)
  have hit : ∀ {a i}, a ∈ Set.Icc s.object.startOff s.object.finishOff →
      protOffToIt o w a = some i → i = iteratorAt o w a := by
    intro a i ha hi
    rw [protOffToIt_eq hv.written (hnode ha)] at hi
    exact (Option.some.inj hi).symm
  refine ⟨?_, ?_, ?_, ?_, ?_, ?_, ?_, ?_, ?_⟩
  · intro a ha
    have hlt : a < 2 ^ o.storedBits :=
      (ha.2.trans_lt (hv.finish_lt hne)).trans_le hv.fits
    refine ⟨iteratorAt o w a, protOffToIt_eq hv.written (hnode ha), ?_⟩
    rw [protItToOff_iteratorAt hv.written (hnode ha), Options.stored, Nat.mod_eq_of_lt hlt]
  · intro a ha b hb i j hi hj
    obtain rfl := hit ha hi
    obtain rfl := hit hb hj
    have hadd := DequeIterator.add_iteratorAt (w := w) hv.written (hnode ha) (hnode hb)
    exact ⟨hadd, by rw [DequeIterator.sub, neg_sub, hadd]⟩
  · intro a ha b hb i j hi hj
    obtain rfl := hit ha hi
    obtain rfl := hit hb hj
    exact DequeIterator.diff_iteratorAt hv.written h.owns.inj (hnode ha) (hnode hb)
  · intro a ha b hb i hi
    obtain rfl := hit ha hi
    exact DequeIterator.subscript_iteratorAt hv.written (hnode ha) (hnode ⟨hb.1, hb.2.le⟩)
  · intro a ha hlt i j hi hj
    have hamem : a ∈ Set.Icc s.object.startOff s.object.finishOff := ⟨ha, hlt.le⟩
    have hbmem : a + 1 ∈ Set.Icc s.object.startOff s.object.finishOff :=
      ⟨ha.trans (Nat.le_succ a), hlt⟩
    obtain rfl := hit hamem hi
    obtain rfl := hit hbmem hj
    exact ⟨DequeIterator.increment_iteratorAt hv.written (hnode hamem) (hnode hbmem),
      DequeIterator.decrement_iteratorAt hv.written (hnode hamem) (hnode hbmem)⟩
  · intro a ha b hb i j hi hj
    obtain rfl := hit ha hi
    obtain rfl := hit hb hj
    exact ⟨DequeIterator.lt_iteratorAt a b,
      DequeIterator.eq_iteratorAt h.owns.inj (hnode ha) (hnode hb)⟩
  · intro a ha i hi
    obtain rfl := hit ha hi
    exact compose_iteratorAt hv.written (hnode ha)
  · intro n h₁ h₂
    have hdiv : (n + 1) * o.blockSize / o.blockSize = n + 1 :=
      Nat.mul_div_cancel _ o.blockSize_pos
    have hnext : n + 1 ∈ s.object.nodes o := hmem (h₁.trans (Nat.le_succ n)) h₂
    refine ⟨iteratorAt o w ((n + 1) * o.blockSize),
      compose_end hv.written (hmem h₁ h₂.le) hnext,
      protOffToIt_eq hv.written (by rw [hdiv]; exact hnext), ?_, ?_⟩
    · rw [segment, iteratorAt_node, hdiv]
      push_cast
      ring
    · rw [segmentBegin, segment, w.read_iteratorAt hv.written (by rw [hdiv]; exact hnext), hdiv,
        ← addrIn_begin o]
      rfl
  · intro a ha b hab hb i j hi hj
    obtain rfl := hit ⟨ha, hab.trans hb⟩ hi
    obtain rfl := hit ⟨ha.trans hab, hb⟩ hj
    refine localRanges_eq hv.written hab (fun n hn => hmem ?_ ?_)
    · exact (Nat.div_le_div_right ha).trans hn.1
    · exact hn.2.trans (Nat.div_le_div_right hb)

/-- A deque whose one element is in the middle of its block. -/
theorem iterators_flat_oneBlock :
    FlatIterators .fours (oneBlock .fours 100 1 2 5).object
      ⟨1000, iff_of_false (by decide) (by decide)⟩ :=
  iterators_flat (sound_fours (by decide) (by decide)).holds _

end DequeImpl
