import BoostContainer.Deque.DequeNodes

/-!
# Making room in the map

What the code that makes room at an end of a deque does. Nodes with elements
keep their elements and their order, wherever in the map they go; a node more
is there for every slot that was asked for. When memory is refused, the nodes
may have moved in the map, but nothing else happened.

All this is told of the new nodes only: what the deque had is not touched.
-/

open Slots

namespace DequeImpl

variable {α : Type*} {o : Options} {rot : Rotation} {e : Env α} {t : Bool}
  {s₀ s s' : State Members α} {S₀ : Set ℕ} {k k' : Members} {map map' : List (Option ℕ)}
  {N : Set ℕ} {f g : ℕ → ℕ} {a b i m n ns : ℕ}

namespace Members

/-- The places of the map for the offsets from `a` to `b`. -/
def span (o : Options) (k : Members) (a b : ℕ) : Set ℕ :=
  if o.reservable then Set.Iio k.map.length else Set.Icc (a / o.blockSize) (b / o.blockSize)

/-- The nodes from the start node to the finish node. -/
def activeNodes (o : Options) (k : Members) : Set ℕ :=
  Set.Icc (k.protStartNode o) (k.protFinishNode o)

/-- **Nodes that moved in the map**: the node at place `i` is at place `f i`, and
there are new nodes at the places in `N`. The active nodes stay in one piece,
and the spare ones in their order. -/
structure Relocated (o : Options) (k k' : Members) (f : ℕ → ℕ) (N : Set ℕ) : Prop where
  entry : ∀ i ∈ k.nodes o, k'.map[f i]? = k.map[i]?
  fresh : Written k'.map N
  shift : k.map ≠ [] → ∀ j, k.protStartNode o + j ≤ k.protFinishNode o →
    f (k.protStartNode o + j) = k'.protStartNode o + j
  start_mod : k.map ≠ [] → k'.startOff % o.blockSize = k.startOff % o.blockSize
  finish_eq : k'.finishOff = k'.startOff + k.protSize
  finish_lt : k'.finishOff < k'.map.length * o.blockSize
  length_ge : initialMapSize ≤ k'.map.length
  fits : k'.map.length * o.blockSize ≤ 2 ^ o.storedBits
  single : o.singleEnded = true → k'.startOff = 0
  alloc_eq : k'.alloc = k.alloc
  spare : StrictMonoOn f (k.nodes o \ k.activeNodes o)

/-! ## Offsets -/

theorem Valid.finish_eq (hv : k.Valid o) : k.finishOff = k.startOff + k.protSize :=
  (Nat.add_sub_cancel' hv.start_le).symm

theorem Valid.start_eq_zero (hv : k.Valid o) (h : k.map = []) : k.startOff = 0 :=
  Nat.le_zero.mp (hv.null h ▸ hv.start_le)

theorem Valid.node_le (hv : k.Valid o) : k.protStartNode o ≤ k.protFinishNode o :=
  Nat.div_le_div_right hv.start_le

theorem Valid.finishNode_lt (hv : k.Valid o) (hne : k.map ≠ []) :
    k.protFinishNode o < k.map.length :=
  (Nat.div_lt_iff_lt_mul o.blockSize_pos).mpr (hv.finish_lt hne)

theorem Valid.nodes_eq (hne : k.map ≠ []) :
    k.nodes o = k.span o k.startOff k.finishOff := by
  rw [nodes, span, if_neg hne]
  rfl

theorem nodes_eq_Icc (k : Members) (hres : o.reservable = false) (hne : k.map ≠ []) :
    k.nodes o = Set.Icc (k.protStartNode o) (k.protFinishNode o) := by
  rw [nodes, if_neg hne, if_neg (hres ▸ Bool.false_ne_true)]

theorem nodes_of_null (h : k.map = []) : k.nodes o = ∅ := by
  rw [nodes, h, if_pos rfl]
  split
  · exact Set.eq_empty_of_forall_notMem (fun i hi => absurd hi (Nat.not_lt_zero i))
  · rfl

theorem Valid.mem_nodes (hv : k.Valid o) (hne : k.map ≠ []) (h₁ : k.protStartNode o ≤ i)
    (h₂ : i ≤ k.protFinishNode o) : i ∈ k.nodes o := by
  rw [nodes, if_neg hne]
  split
  · exact lt_of_le_of_lt h₂ (hv.finishNode_lt hne)
  · exact ⟨h₁, h₂⟩

/-- Elements are in slots of the deque. -/
theorem Valid.elements_subset (hv : k.Valid o) : k.elements ⊆ k.slots o := by
  by_cases hne : k.map = []
  · rw [elements, hv.null hne, hv.start_eq_zero hne, Set.Ico_self]
    exact Set.empty_subset _
  · exact Ico_subset_slotsOf (fun i hi => hv.mem_nodes hne hi.1 hi.2)

/-! ## Rotations of the map -/

/-- Where a rotation takes a place of the map. -/
def rotated (start active newStart i : ℕ) : ℕ :=
  if start ≤ i ∧ i < start + active then newStart + (i - start)
  else if newStart ≤ i ∧ i < start then i + active
  else if start + active ≤ i ∧ i < newStart + active then i - active
  else i

theorem rotated_active {start active newStart j : ℕ} (hj : j < active) :
    rotated start active newStart (start + j) = newStart + j := by
  rw [rotated, if_pos ⟨by omega, by omega⟩, Nat.add_sub_cancel_left]

/-- Places that are not active stay in their order. -/
theorem rotated_lt {start active newStart j : ℕ} (hi : ¬ (start ≤ i ∧ i < start + active))
    (hj : ¬ (start ≤ j ∧ j < start + active)) (hij : i < j) :
    rotated start active newStart i < rotated start active newStart j := by
  unfold rotated
  rw [if_neg hi, if_neg hj]
  split_ifs <;> omega

theorem image_rotated {start active newStart n : ℕ} (h₁ : start + active ≤ n)
    (h₂ : newStart + active ≤ n) :
    rotated start active newStart '' Set.Iio n = Set.Iio n := by
  ext j
  constructor
  · rintro ⟨i, hi, rfl⟩
    have hlt : i < n := hi
    show rotated start active newStart i < n
    unfold rotated
    grind
  · intro hj
    have hlt : j < n := hj
    -- the places before and after the new one of the active nodes
    rcases Nat.lt_or_ge j newStart with h | h
    · rcases Nat.lt_or_ge j start with h' | h'
      · exact ⟨j, hj, by unfold rotated; grind⟩
      · exact ⟨j + active, Set.mem_Iio.mpr (by omega), by unfold rotated; grind⟩
    · rcases Nat.lt_or_ge j (newStart + active) with h' | h'
      · exact ⟨start + (j - newStart), Set.mem_Iio.mpr (by omega),
          by rw [rotated_active (by omega)]; omega⟩
      · rcases Nat.lt_or_ge j (start + active) with h'' | h''
        · exact ⟨j - active, Set.mem_Iio.mpr (by omega), by unfold rotated; grind⟩
        · exact ⟨j, hj, by unfold rotated; grind⟩

theorem getElem?_rotateGcd {a m b : ℕ} (ha : a ≤ m) (hm : m ≤ b) (hb : b ≤ map.length) :
    (rot.rotateGcd map a m b)[i]?
      = if i < a then map[i]?
        else if i < a + (b - m) then map[m + (i - a)]?
        else if i < b then map[a + (i - (a + (b - m)))]?
        else map[i]? := by
  have h₁ : (map.take a).length = a := by
    rw [List.length_take]
    omega
  have h₂ : ((map.drop m).take (b - m)).length = b - m := by
    rw [List.length_take, List.length_drop]
    omega
  have h₃ : ((map.drop a).take (m - a)).length = m - a := by
    rw [List.length_take, List.length_drop]
    omega
  rw [rot.rotateGcd_eq map a m b ha hm hb]
  simp only [List.getElem?_append, List.length_append, h₁, h₂, h₃, List.getElem?_take,
    List.getElem?_drop]
  grind

theorem getElem?_rotateNodes {start active newStart : ℕ} (h₁ : start + active ≤ map.length)
    (h₂ : newStart + active ≤ map.length) :
    (rotateNodes rot map start active newStart)[rotated start active newStart i]? = map[i]? := by
  unfold rotateNodes
  split
  · rw [getElem?_rotateGcd (by omega) (by omega) h₁]
    unfold rotated
    split_ifs <;> first | rfl | omega | (congr 1; omega)
  · rw [getElem?_rotateGcd (by omega) (by omega) h₂]
    unfold rotated
    split_ifs <;> first | rfl | omega | (congr 1; omega)

theorem length_rotateNodes {start active newStart : ℕ} (h₁ : start + active ≤ map.length)
    (h₂ : newStart + active ≤ map.length) :
    (rotateNodes rot map start active newStart).length = map.length := by
  unfold rotateNodes
  split
  · rw [rot.rotateGcd_eq map newStart start (start + active) (by omega) (by omega) h₁]
    simp only [List.length_append, List.length_take, List.length_drop]
    omega
  · rw [rot.rotateGcd_eq map start (start + active) (newStart + active) (by omega) (by omega) h₂]
    simp only [List.length_append, List.length_take, List.length_drop]
    omega

/-! ## What moving nodes does to a deque -/

/-- **The deque after its nodes moved.** -/
theorem Relocated.holds (hr : k.Relocated o k' f N) (hv : k.Valid o)
    (h : OwnsVia t s₀ S₀ k (addrIn o k.map) (k.slots o) k.elements s)
    (h' : OwnsVia t s (∅ : Set ℕ) k' (addrIn o k'.map) (slotsOf o.blockSize N) ∅ s') :
    OwnsVia t s₀ S₀ k' (addrIn o k'.map) (slotsOf o.blockSize (N ∪ f '' k.nodes o)) k'.elements s'
      ∧ ∀ i < k.protSize, addrIn o k'.map (k'.startOff + i) = addrIn o k.map (k.startOff + i)
        ∧ s'.heap (addrIn o k.map (k.startOff + i)) = s.heap (addrIn o k.map (k.startOff + i)) := by
  have hbs := o.blockSize_pos
  have haddr : ∀ x ∈ k.slots o, addrIn o k'.map (moveBlocks o.blockSize f x) = addrIn o k.map x :=
    fun x hx => blockAddr_moveBlocks hbs (nodeOf_congr (hr.entry _ hx))
  have hactive : ∀ x ∈ k.elements,
      moveBlocks o.blockSize f x = k'.startOff + (x - k.startOff) := by
    intro x hx
    have hne : k.map ≠ [] := by
      intro h0
      rw [elements, hv.null h0] at hx
      exact absurd hx.2 (Nat.not_lt_zero x)
    refine moveBlocks_add hx.1 (hr.start_mod hne) ?_
    have hle : k.startOff / o.blockSize ≤ x / o.blockSize := Nat.div_le_div_right hx.1
    have hle' : x / o.blockSize ≤ k.finishOff / o.blockSize := Nat.div_le_div_right hx.2.le
    have hs := hr.shift hne (x / o.blockSize - k.startOff / o.blockSize) (by
      rw [protStartNode, protFinishNode]
      omega)
    rwa [protStartNode, Nat.add_sub_cancel' hle] at hs
  have himage : moveBlocks o.blockSize f '' k.elements = k'.elements := by
    have heq : k'.elements = Set.Ico k'.startOff (k'.startOff + k.protSize) :=
      congrArg (Set.Ico _) hr.finish_eq
    rw [heq]
    ext y
    constructor
    · rintro ⟨x, hx, rfl⟩
      rw [hactive x hx]
      have := hv.finish_eq
      exact ⟨by omega, by have := hx.1; have := hx.2; omega⟩
    · rintro ⟨h₁, h₂⟩
      have := hv.finish_eq
      have hx : k.startOff + (y - k'.startOff) ∈ k.elements := ⟨by omega, by omega⟩
      refine ⟨_, hx, ?_⟩
      rw [hactive _ hx]
      omega
  have h₁ :
      OwnsVia t s (addrIn o k.map '' ∅) k' (addrIn o k'.map) (slotsOf o.blockSize N) ∅ s' := by
    rwa [Set.image_empty]
  obtain ⟨howns, -, hheap⟩ := h.frame_renumber (Set.empty_subset _) h₁
    (fun x hx => haddr x hx.1)
  rw [Set.sdiff_empty] at howns hheap
  rw [Set.sdiff_empty, Set.empty_union, himage, slots, image_moveBlocks hbs, ← slotsOf_union]
    at howns
  refine ⟨howns, fun i hi => ?_⟩
  have hx : k.startOff + i ∈ k.elements := ⟨by omega, by have := hv.finish_eq; omega⟩
  have hxs := hv.elements_subset hx
  refine ⟨?_, hheap _ hxs⟩
  rw [← haddr _ hxs, hactive _ hx, Nat.add_sub_cancel_left]

/-! ## Where nodes go -/

theorem stored_eq {v : ℕ} (h : v < 2 ^ o.storedBits) : o.stored v = v := Nat.mod_eq_of_lt h

/-- **Nodes moved by `prot_start_update_node` and `prot_finish_update_node`.** -/
theorem relocated_of_moved (hv : k.Valid o) (hs : o.singleEnded = false)
    {ms : ℕ} (hfits : map'.length * o.blockSize ≤ 2 ^ o.storedBits)
    (hlen : initialMapSize ≤ map'.length)
    (hns : ns + (k.protFinishNode o - k.protStartNode o) < map'.length)
    (hentry : ∀ i ∈ k.nodes o, map'[f i]? = k.map[i]?)
    (hshift : ∀ j, k.protStartNode o + j ≤ k.protFinishNode o →
      f (k.protStartNode o + j) = ns + j) (hN : Written map' N)
    (hspare : StrictMonoOn f (k.nodes o \ k.activeNodes o)) :
    k.Relocated o ((({ k with map := map', mapSize := ms } : Members).protStartUpdateNode o
      ns).protFinishUpdateNode o (ns + (k.protFinishNode o + 1 - k.protStartNode o - 1))) f N := by
  have hbs := o.blockSize_pos
  have hle := hv.node_le
  have hstart := Nat.div_add_mod k.startOff o.blockSize
  have hfinish := Nat.div_add_mod k.finishOff o.blockSize
  have hsr := Nat.mod_lt k.startOff hbs
  have hfr := Nat.mod_lt k.finishOff hbs
  rw [show k.startOff / o.blockSize = k.protStartNode o from rfl] at hstart
  rw [show k.finishOff / o.blockSize = k.protFinishNode o from rfl] at hfinish
  -- the last of the active nodes still is in the map
  have hlast : (ns + (k.protFinishNode o - k.protStartNode o) + 1) * o.blockSize
      ≤ map'.length * o.blockSize := Nat.mul_le_mul_right _ hns
  have hns' : ns * o.blockSize ≤ (ns + (k.protFinishNode o - k.protStartNode o)) * o.blockSize :=
    Nat.mul_le_mul_right _ (by omega)
  rw [Nat.succ_mul] at hlast
  have hspread : (ns + (k.protFinishNode o - k.protStartNode o)) * o.blockSize
      = ns * o.blockSize
        + (o.blockSize * k.protFinishNode o - o.blockSize * k.protStartNode o) := by
    rw [Nat.add_mul, Nat.mul_comm (_ - _), Nat.mul_sub]
  have hmono : o.blockSize * k.protStartNode o ≤ o.blockSize * k.protFinishNode o :=
    Nat.mul_le_mul_left _ hle
  have hsize := hv.finish_eq
  have h₁ : o.stored (ns * o.blockSize) = ns * o.blockSize := stored_eq (by omega)
  have h₂ : o.stored (ns * o.blockSize + k.startOff % o.blockSize)
      = ns * o.blockSize + k.startOff % o.blockSize := stored_eq (by omega)
  have h₃ : o.stored ((ns + (k.protFinishNode o - k.protStartNode o)) * o.blockSize)
      = (ns + (k.protFinishNode o - k.protStartNode o)) * o.blockSize := stored_eq (by omega)
  have h₄ : o.stored ((ns + (k.protFinishNode o - k.protStartNode o)) * o.blockSize
        + k.finishOff % o.blockSize)
      = (ns + (k.protFinishNode o - k.protStartNode o)) * o.blockSize
        + k.finishOff % o.blockSize := stored_eq (by omega)
  have hnew : (({ k with map := map', mapSize := ms } : Members).protStartUpdateNode o ns)
      = { k with map := map', mapSize := ms
                 startOff := ns * o.blockSize + k.startOff % o.blockSize } := by
    rw [protStartUpdateNode, setStartOff, if_neg (by rw [hs]; exact Bool.false_ne_true), h₁]
    exact congrArg (fun v => ({ k with map := map', mapSize := ms, startOff := v } : Members)) h₂
  rw [hnew, protFinishUpdateNode, show k.protFinishNode o + 1 - k.protStartNode o - 1
    = k.protFinishNode o - k.protStartNode o by omega, h₃, h₄]
  refine ⟨hentry, hN, fun _ j hj => ?_, fun _ => ?_, ?_, ?_, hlen, hfits, fun h => ?_, rfl,
    hspare⟩
  · rw [hshift j hj, protStartNode]
    show _ = (ns * o.blockSize + k.startOff % o.blockSize) / o.blockSize + j
    rw [Nat.mul_comm, Nat.mul_add_div hbs, Nat.div_eq_of_lt hsr, Nat.add_zero]
  · show (ns * o.blockSize + k.startOff % o.blockSize) % o.blockSize = _
    rw [Nat.mul_comm, Nat.mul_add_mod, Nat.mod_mod]
  · show (ns + (k.protFinishNode o - k.protStartNode o)) * o.blockSize
        + k.finishOff % o.blockSize = ns * o.blockSize + k.startOff % o.blockSize + k.protSize
    omega
  · show (ns + (k.protFinishNode o - k.protStartNode o)) * o.blockSize
        + k.finishOff % o.blockSize < map'.length * o.blockSize
    omega
  · rw [hs] at h
    exact absurd h Bool.false_ne_true

/-- Active nodes that were moved, in one piece. -/
theorem relocated_moveEntries (hv : k.Valid o) (hne : k.map ≠ []) (hres : o.reservable = false)
    (hs : o.singleEnded = false) {ms : ℕ} (hfits : map.length * o.blockSize ≤ 2 ^ o.storedBits)
    (hlen : initialMapSize ≤ map.length)
    (hns : ns + (k.protFinishNode o + 1 - k.protStartNode o) ≤ map.length) :
    k.Relocated o ((({ k with
        map := moveEntries k.map (k.protStartNode o)
          (k.protFinishNode o + 1 - k.protStartNode o) map ns
        mapSize := ms } : Members).protStartUpdateNode o ns).protFinishUpdateNode o
          (ns + (k.protFinishNode o + 1 - k.protStartNode o - 1)))
      (fun i => ns + (i - k.protStartNode o)) ∅ := by
  have hle := hv.node_le
  have hlt := hv.finishNode_lt hne
  have hfrom : k.protStartNode o + (k.protFinishNode o + 1 - k.protStartNode o) ≤ k.map.length := by
    omega
  have hlen₁ := length_moveEntries hfrom hns
  have hnone : k.nodes o \ k.activeNodes o = ∅ := by
    rw [k.nodes_eq_Icc hres hne, activeNodes, Set.sdiff_self]
  refine relocated_of_moved hv hs ?_ ?_ ?_ (fun i hi => ?_) (fun j hj => ?_) (fun i hi => hi.elim)
    (hnone ▸ fun i hi => hi.elim)
  · rwa [hlen₁]
  · rwa [hlen₁]
  · omega
  · rw [k.nodes_eq_Icc hres hne] at hi
    have h₁ := hi.1
    have h₂ := hi.2
    rw [getElem?_moveEntries hfrom hns, if_pos ⟨by omega, by omega⟩]
    congr 1
    omega
  · rw [Nat.add_sub_cancel_left]

/-- Active nodes that were rotated to another place, in a map where the old one is
from `d` on. -/
theorem relocated_rotateNodes (hv : k.Valid o) (hne : k.map ≠ []) (hres : o.reservable = true)
    (hs : o.singleEnded = false) {ms d : ℕ} (hfits : map.length * o.blockSize ≤ 2 ^ o.storedBits)
    (hd : d + k.map.length = map.length) (hold : ∀ i < k.map.length, map[d + i]? = k.map[i]?)
    (hnew : Written map (Set.Iio d))
    (hns : ns + (k.protFinishNode o + 1 - k.protStartNode o) ≤ map.length) :
    k.Relocated o ((({ k with
        map := rotateNodes rot map (d + k.protStartNode o)
          (k.protFinishNode o + 1 - k.protStartNode o) ns
        mapSize := ms } : Members).protStartUpdateNode o ns).protFinishUpdateNode o
          (ns + (k.protFinishNode o + 1 - k.protStartNode o - 1)))
      (fun i => rotated (d + k.protStartNode o) (k.protFinishNode o + 1 - k.protStartNode o) ns
        (d + i))
      (rotated (d + k.protStartNode o) (k.protFinishNode o + 1 - k.protStartNode o) ns
        '' Set.Iio d) := by
  have hle := hv.node_le
  have hlt := hv.finishNode_lt hne
  have hge := hv.length_ge hne
  have hfrom : d + k.protStartNode o + (k.protFinishNode o + 1 - k.protStartNode o)
      ≤ map.length := by omega
  have hlen₁ := @length_rotateNodes rot _ _ _ _ hfrom hns
  refine relocated_of_moved hv hs ?_ ?_ ?_ (fun i hi => ?_) (fun j hj => ?_) ?_
    (fun i hi j hj hij => rotated_lt ?_ ?_ (by omega))
  · rwa [hlen₁]
  · omega
  · omega
  · rw [nodes, if_pos hres] at hi
    rw [getElem?_rotateNodes hfrom hns, hold i hi]
  · rw [← Nat.add_assoc, rotated_active (by omega)]
  · rintro _ ⟨i, hi, rfl⟩
    rw [getElem?_rotateNodes hfrom hns]
    exact hnew i hi
  · rintro ⟨h₁, h₂⟩
    exact hi.2 ⟨by omega, by omega⟩
  · rintro ⟨h₁, h₂⟩
    exact hj.2 ⟨by omega, by omega⟩

/-- The active nodes stay in one piece. -/
theorem Relocated.finishNode_eq (hr : k.Relocated o k' f N) (hv : k.Valid o) (hne : k.map ≠ []) :
    k'.protFinishNode o = k'.protStartNode o + (k.protFinishNode o - k.protStartNode o) := by
  have hadd := moveBlocks_add (b := k'.startOff) (f := fun _ => k'.startOff / o.blockSize
      + (k.finishOff / o.blockSize - k.startOff / o.blockSize))
    hv.start_le (hr.start_mod hne) rfl
  rw [protFinishNode, hr.finish_eq, protSize, ← hadd, moveBlocks_div o.blockSize_pos]
  rfl

theorem Relocated.finish_mod (hr : k.Relocated o k' f N) (hv : k.Valid o) (hne : k.map ≠ []) :
    k'.finishOff % o.blockSize = k.finishOff % o.blockSize := by
  rw [hr.finish_eq, hv.finish_eq, Nat.add_mod, hr.start_mod hne, ← Nat.add_mod]

theorem Relocated.image_nodes (hr : k.Relocated o k' f N) (hv : k.Valid o) (hne : k.map ≠ [])
    (hres : o.reservable = false) :
    f '' k.nodes o = Set.Icc (k'.protStartNode o) (k'.protFinishNode o) := by
  have hle := hv.node_le
  rw [k.nodes_eq_Icc hres hne, hr.finishNode_eq hv hne]
  ext i
  constructor
  · rintro ⟨j, hj, rfl⟩
    have h₁ := hj.1
    have h₂ := hj.2
    have hs := hr.shift hne (j - k.protStartNode o) (by omega)
    rw [Nat.add_sub_cancel' h₁] at hs
    rw [hs]
    exact ⟨by omega, by omega⟩
  · rintro ⟨h₁, h₂⟩
    refine ⟨k.protStartNode o + (i - k'.protStartNode o), ⟨by omega, by omega⟩, ?_⟩
    rw [hr.shift hne _ (by omega)]
    omega

/-- **New nodes written into the map**, apart from the nodes that are there. -/
theorem Relocated.write (hr : k.Relocated o k' f ∅) {nodes : List ℕ}
    (hb : b + nodes.length ≤ k'.map.length)
    (hd : ∀ i ∈ k.nodes o, f i ∉ Set.Ico b (b + nodes.length)) :
    k.Relocated o { k' with map := writeNodes k'.map b nodes } f
      (Set.Ico b (b + nodes.length)) := by
  have hlen := length_writeNodes hb
  refine ⟨fun i hi => ?_, written_writeNodes hb, hr.shift, hr.start_mod, hr.finish_eq, ?_, ?_, ?_,
    hr.single, hr.alloc_eq, hr.spare⟩
  · rw [getElem?_writeNodes hb, if_neg (fun h => hd i hi (Set.mem_Ico.mpr h))]
    exact hr.entry i hi
  · show k'.finishOff < (writeNodes k'.map b nodes).length * o.blockSize
    rw [hlen]
    exact hr.finish_lt
  · show initialMapSize ≤ (writeNodes k'.map b nodes).length
    rw [hlen]
    exact hr.length_ge
  · show (writeNodes k'.map b nodes).length * o.blockSize ≤ 2 ^ o.storedBits
    rw [hlen]
    exact hr.fits

/-- The deque as it is. -/
theorem Valid.relocated (hv : k.Valid o) (hne : k.map ≠ []) : k.Relocated o k id ∅ :=
  ⟨fun _ _ => rfl, fun _ hi => hi.elim, fun _ _ _ => rfl, fun _ => rfl, hv.finish_eq,
    hv.finish_lt hne, hv.length_ge hne, hv.fits, hv.single, rfl, strictMonoOn_id⟩

end Members

end DequeImpl
