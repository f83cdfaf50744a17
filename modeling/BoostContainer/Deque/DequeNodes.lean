import BoostContainer.Deque.DequeBase

/-!
# The nodes of a deque

The class invariant of `deque_base`: where the offsets are, and which places of
the map hold nodes. What a deque owns is told in slots, numbered by offset, and
its elements are those between the two offsets.
-/

open Slots

namespace DequeImpl

variable {α : Type*} {o : Options} {e : Env α} {t : Bool} {s₀ s s' : State Members α}
  {S₀ own live : Set ℕ} {k k' : Members} {map map' : List (Option ℕ)} {N : Set ℕ}
  {a b i n p x : ℕ}

/-- The node at a place of the map. -/
def nodeOf (map : List (Option ℕ)) (i : ℕ) : ℕ := (map[i]?.join).getD 0

/-- **The address of an offset.** -/
def addrIn (o : Options) (map : List (Option ℕ)) : ℕ → ℕ := blockAddr o.blockSize (nodeOf map)

/-- Places of a map that hold nodes. -/
def Written (map : List (Option ℕ)) (N : Set ℕ) : Prop := ∀ i ∈ N, ∃ p, map[i]? = some (some p)

namespace Members

@[simp] theorem setStartOff_map (v : ℕ) : (k.setStartOff o v).map = k.map := by
  rw [setStartOff]
  split <;> rfl

@[simp] theorem protStartUpdateNode_map (v : ℕ) : (k.protStartUpdateNode o v).map = k.map :=
  setStartOff_map _

@[simp] theorem protFinishUpdateNode_map (v : ℕ) : (k.protFinishUpdateNode o v).map = k.map :=
  rfl

/-- **The places that hold nodes.** -/
def nodes (o : Options) (k : Members) : Set ℕ :=
  if o.reservable then Set.Iio k.map.length
  else if k.map = [] then ∅ else Set.Icc (k.protStartNode o) (k.protFinishNode o)

/-- The slots of a deque. -/
def slots (o : Options) (k : Members) : Set ℕ := slotsOf o.blockSize (k.nodes o)

/-- **The slots that hold elements.** -/
def elements (k : Members) : Set ℕ := Set.Ico k.startOff k.finishOff

/-- **The class invariant.** What `m_map_size` stores is a matter of its own. -/
structure Valid (o : Options) (k : Members) : Prop where
  start_le : k.startOff ≤ k.finishOff
  finish_lt : k.map ≠ [] → k.finishOff < k.map.length * o.blockSize
  null : k.map = [] → k.finishOff = 0
  length_ge : k.map ≠ [] → initialMapSize ≤ k.map.length
  fits : k.map.length * o.blockSize ≤ 2 ^ o.storedBits
  single : o.singleEnded = true → k.startOff = 0
  written : Written k.map (k.nodes o)

end Members

/-- **A deque in memory**: it is valid, owns the slots of its nodes, and holds
elements from its start to its finish. -/
structure Holds (o : Options) (t : Bool) (s₀ : State Members α) (S₀ : Set ℕ)
    (s : State Members α) : Prop where
  valid : s.object.Valid o
  owns : OwnsVia t s₀ S₀ s.object (addrIn o s.object.map) (s.object.slots o) s.object.elements s

/-! ## Places of the map -/

/-- A node that is there is read. -/
theorem nodeIn_bind {β : Type} (h : Written map N) (hi : i ∈ N)
    (c : ℕ → Prog (State Members α) β) : nodeIn map i >>= c = c (nodeOf map i) := by
  obtain ⟨p, hp⟩ := h i hi
  rw [nodeIn, nodeOf, hp]
  rfl

/-- What is inside a map is read and written. -/
theorem within_bind {β : Type} (h : a + n ≤ map.length) (c : Unit → Prog (State Members α) β) :
    within map a n >>= c = c () := by
  rw [within, if_pos h]
  rfl

theorem withinBefore_bind {β : Type} (h : n ≤ b) (hb : b ≤ map.length)
    (c : Unit → Prog (State Members α) β) : withinBefore map b n >>= c = c () := by
  rw [withinBefore, if_pos ⟨h, hb⟩]
  rfl

theorem Written.mono (h : Written map N) {N' : Set ℕ} (hN : N' ⊆ N) : Written map N' :=
  fun i hi => h i (hN hi)

theorem Written.union (h : Written map N) {N' : Set ℕ} (h' : Written map N') :
    Written map (N ∪ N') := fun i hi => hi.elim (h i) (h' i)

theorem Written.lt_length (h : Written map N) (hi : i ∈ N) : i < map.length := by
  obtain ⟨p, hp⟩ := h i hi
  exact (List.getElem?_eq_some_iff.mp hp).1

theorem nodeOf_congr (h : map[a]? = map'[b]?) : nodeOf map a = nodeOf map' b := by
  rw [nodeOf, nodeOf, h]

theorem length_moveEntries {src dst : List (Option ℕ)} (ha : a + n ≤ src.length)
    (hb : b + n ≤ dst.length) : (moveEntries src a n dst b).length = dst.length := by
  simp only [moveEntries, List.length_append, List.length_take, List.length_drop]
  omega

/-- Where entries were written, and where not. -/
theorem getElem?_moveEntries {src dst : List (Option ℕ)} (ha : a + n ≤ src.length)
    (hb : b + n ≤ dst.length) : (moveEntries src a n dst b)[i]?
      = if b ≤ i ∧ i < b + n then src[a + (i - b)]? else dst[i]? := by
  simp only [moveEntries, List.getElem?_append, List.length_append, List.length_take,
    List.length_drop, List.getElem?_take, List.getElem?_drop]
  grind

theorem length_writeNodes {nodes : List ℕ} (hb : b + nodes.length ≤ map.length) :
    (writeNodes map b nodes).length = map.length :=
  length_moveEntries (by rw [List.length_map, Nat.zero_add]) hb

theorem getElem?_writeNodes {nodes : List ℕ} (hb : b + nodes.length ≤ map.length) :
    (writeNodes map b nodes)[i]?
      = if b ≤ i ∧ i < b + nodes.length then (nodes[i - b]?).map some else map[i]? := by
  rw [writeNodes, getElem?_moveEntries (by rw [List.length_map, Nat.zero_add]) hb,
    List.getElem?_map, Nat.zero_add]

/-- The places that were written hold what was written. -/
theorem nodeOf_writeNodes {nodes : List ℕ} (hb : b + nodes.length ≤ map.length)
    (hi : i ∈ Set.Ico b (b + nodes.length)) :
    nodeOf (writeNodes map b nodes) i = (nodes[i - b]?).getD 0 := by
  rw [nodeOf, getElem?_writeNodes hb, if_pos (Set.mem_Ico.mp hi)]
  cases nodes[i - b]? <;> rfl

theorem written_writeNodes {nodes : List ℕ} (hb : b + nodes.length ≤ map.length) :
    Written (writeNodes map b nodes) (Set.Ico b (b + nodes.length)) := by
  intro i hi
  have hlt : i - b < nodes.length := by
    have := hi.1
    have := hi.2
    omega
  refine ⟨nodes[i - b], ?_⟩
  rw [getElem?_writeNodes hb, if_pos (Set.mem_Ico.mp hi), List.getElem?_eq_getElem hlt]
  rfl

/-! ## Nodes that are allocated and deallocated -/

/-- The node at a place, when nodes are listed from place `b` on. -/
def listed (b : ℕ) (nodes : List ℕ) (i : ℕ) : ℕ := (nodes[i - b]?).getD 0

theorem OwnsVia_empty {addr : ℕ → ℕ} :
    OwnsVia t s₀ S₀ k addr ∅ ∅ s ↔ Owns t s₀ S₀ k ∅ ∅ s := by
  constructor
  · intro h
    have := h.owns
    rwa [Set.image_empty] at this
  · intro h
    exact ⟨Set.injOn_empty _, Set.empty_subset _, by rwa [Set.image_empty]⟩

theorem deallocateAll_meets {nodes : List ℕ} :
    Prog.Meets (OwnsVia t s₀ S₀ k (blockAddr o.blockSize (listed b nodes))
        (slotsOf o.blockSize (Set.Ico b (b + nodes.length))) ∅)
      (deallocateAll o nodes) (fun _ => Owns t s₀ S₀ k ∅ ∅) (fun _ => False) := by
  induction nodes generalizing b with
  | nil =>
    refine Prog.meets_pure (fun s hs => OwnsVia_empty.mp (hs.congr ?_ rfl))
    rw [List.length_nil, Nat.add_zero, Set.Ico_self, slotsOf_empty]
  | cons p ps ih =>
    have hbs := o.blockSize_pos
    have hfirst : ∀ j < o.blockSize,
        blockAddr o.blockSize (listed b (p :: ps)) (b * o.blockSize + j) = p + j := by
      intro j hj
      rw [blockAddr_mul_add hj, listed, Nat.sub_self]
      rfl
    have hsplit : Set.Ico b (b + (p :: ps).length) \ {b} = Set.Ico (b + 1) (b + 1 + ps.length) := by
      ext i
      simp only [List.length_cons, Set.mem_sdiff, Set.mem_Ico, Set.mem_singleton_iff]
      omega
    refine Prog.Meets.bind (deallocate_via hfirst ?_ (Set.empty_disjoint _)) (fun _ => ?_)
    · rw [← slotsOf_singleton hbs]
      exact slotsOf_mono (Set.singleton_subset_iff.mpr
        ⟨le_rfl, by rw [List.length_cons]; omega⟩)
    · refine Prog.Meets.pre (ih (b := b + 1)) (fun s hs => ?_)
      rw [← slotsOf_singleton hbs, ← slotsOf_sdiff, hsplit] at hs
      refine hs.readdress (blockAddr_congr (fun i hi => ?_))
      rw [listed, listed, show i - b = i - (b + 1) + 1 by have := hi.1; omega]
      rfl

/-- **Nodes are allocated**, all or none: the loop, which has allocated some. -/
theorem protAllocateNodesLoop_meets {nodes : List ℕ} :
    Prog.Meets (OwnsVia t s₀ S₀ k (blockAddr o.blockSize (listed b nodes))
        (slotsOf o.blockSize (Set.Ico b (b + nodes.length))) ∅)
      (protAllocateNodesLoop o e nodes n)
      (fun ns s => ns.length = nodes.length + n
        ∧ OwnsVia t s₀ S₀ k (blockAddr o.blockSize (listed b ns))
          (slotsOf o.blockSize (Set.Ico b (b + ns.length))) ∅ s)
      (Owns t s₀ S₀ k ∅ ∅) := by
  induction n generalizing nodes with
  | zero => exact Prog.meets_pure (fun s hs => ⟨rfl, hs⟩)
  | succ n ih =>
    have hbs := o.blockSize_pos
    have hlast : slotsOf o.blockSize {b + nodes.length}
        = Set.Ico ((b + nodes.length) * o.blockSize)
          ((b + nodes.length) * o.blockSize + o.blockSize) := slotsOf_singleton hbs
    have hd : Disjoint (slotsOf o.blockSize (Set.Ico b (b + nodes.length)))
        (Set.Ico ((b + nodes.length) * o.blockSize)
          ((b + nodes.length) * o.blockSize + o.blockSize)) := by
      rw [← hlast]
      refine disjoint_slotsOf (Set.disjoint_singleton_right.mpr (fun h => ?_))
      exact absurd h.2 (lt_irrefl _)
    refine Prog.Meets.bind (Prog.Meets.onThrow (object_bind_via (allocate_via hd))
      deallocateAll_meets) (fun p => ?_)
    refine (ih).conseq (fun s hs => ?_) (fun ns s hs => ⟨?_, hs.2⟩)
      (fun _ => id)
    · have h := hs.2 (blockAddr o.blockSize (listed b (nodes ++ [p])))
        (blockAddr_congr (fun i hi => ?_)) (fun j hj => ?_)
      · refine h.congr ?_ rfl
        rw [← hlast, ← slotsOf_union]
        congr 1
        ext i
        simp only [List.length_append, List.length_singleton, Set.mem_union, Set.mem_Ico,
          Set.mem_singleton_iff]
        omega
      · rw [listed, listed, List.getElem?_append_left (by have := hi.1; have := hi.2; omega)]
      · rw [blockAddr_mul_add hj, listed, Nat.add_sub_cancel_left, List.getElem?_concat_length]
        rfl
    · rw [hs.1, List.length_append, List.length_singleton]
      omega

/-- **Nodes are allocated**, all or none. -/
theorem protAllocateNodes_meets (b : ℕ) :
    Prog.Meets (Owns t s₀ S₀ k ∅ ∅) (protAllocateNodes o e n)
      (fun ns s => ns.length = n
        ∧ OwnsVia t s₀ S₀ k (blockAddr o.blockSize (listed b ns))
          (slotsOf o.blockSize (Set.Ico b (b + n))) ∅ s)
      (Owns t s₀ S₀ k ∅ ∅) := by
  refine (protAllocateNodesLoop_meets (b := b)).conseq (fun s hs => ?_)
    (fun ns s hs => ?_) (fun _ => id)
  · rw [List.length_nil, Nat.add_zero, Set.Ico_self, slotsOf_empty]
    exact OwnsVia_empty.mpr hs
  · have hn : ns.length = n := hs.1.trans (Nat.zero_add n)
    exact ⟨hn, hn ▸ hs.2⟩

/-- **Nodes are deallocated.** -/
theorem protDeallocateNodesLoop_meets (hw : Written map (Set.Ico a (a + n)))
    (hin : slotsOf o.blockSize (Set.Ico a (a + n)) ⊆ own)
    (hl : Disjoint live (slotsOf o.blockSize (Set.Ico a (a + n)))) :
    Prog.Meets (OwnsVia t s₀ S₀ k (addrIn o map) own live) (protDeallocateNodesLoop o map a n)
      (fun _ => OwnsVia t s₀ S₀ k (addrIn o map)
        (own \ slotsOf o.blockSize (Set.Ico a (a + n))) live) (fun _ => False) := by
  induction n generalizing a own with
  | zero =>
    refine Prog.meets_pure (fun s hs => hs.congr ?_ rfl)
    rw [Nat.add_zero, Set.Ico_self, slotsOf_empty, Set.sdiff_empty]
  | succ n ih =>
    have hbs := o.blockSize_pos
    have hmem : a ∈ Set.Ico a (a + (n + 1)) := ⟨le_rfl, by omega⟩
    have hsub : Set.Ico (a + 1) (a + 1 + n) ⊆ Set.Ico a (a + (n + 1)) :=
      Set.Ico_subset_Ico (by omega) (by omega)
    have hfirst : ∀ j < o.blockSize,
        addrIn o map (a * o.blockSize + j) = nodeOf map a + j :=
      fun j hj => blockAddr_mul_add hj
    have hone : slotsOf o.blockSize {a} ⊆ slotsOf o.blockSize (Set.Ico a (a + (n + 1))) :=
      slotsOf_mono (Set.singleton_subset_iff.mpr hmem)
    rw [protDeallocateNodesLoop, nodeIn_bind hw hmem]
    refine Prog.Meets.bind (deallocate_via hfirst ?_ ?_) (fun _ => ?_)
    · exact slotsOf_singleton hbs ▸ hone.trans hin
    · exact slotsOf_singleton hbs ▸ hl.mono_right hone
    · have hin' : slotsOf o.blockSize (Set.Ico (a + 1) (a + 1 + n))
          ⊆ own \ slotsOf o.blockSize {a} := by
        refine fun y hy => ⟨hin (slotsOf_mono hsub hy), fun h => ?_⟩
        have h1 : a + 1 ≤ y / o.blockSize := hy.1
        have h2 : y / o.blockSize = a := h
        omega
      rw [← slotsOf_singleton hbs]
      refine (ih (hw.mono hsub) hin' (hl.mono_right (slotsOf_mono hsub))).post
        (fun _ s hs => hs.congr ?_ rfl)
      rw [Set.sdiff_sdiff, ← slotsOf_union]
      congr 2
      ext i
      simp only [Set.mem_union, Set.mem_singleton_iff, Set.mem_Ico]
      omega

end DequeImpl
