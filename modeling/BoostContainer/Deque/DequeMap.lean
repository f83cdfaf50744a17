import BoostContainer.Deque.DequeEnds

/-!
# Requests for nodes

Every way in which a deque is given more nodes: `priv_reserve_elements_at_front`
and `priv_reserve_elements_at_back`, and the overloads of
`prot_reallocate_map_and_nodes` that these call. Whether the nodes are moved in
the map or to a larger one, every node stays the node it is. The active nodes
follow one another as before; spare nodes of a reservable deque, which may have
to make way, keep their order.

That a program meets what is said of it tells that it has no undefined
behaviour, and so that no place outside of a map is read or written.
-/

open Slots

namespace DequeImpl

variable {α : Type*} {o : Options} {rot : Rotation} {e : Env α} {t : Bool}
  {s s' : State Members α} {k k' : Members} {f : ℕ → ℕ} {a b m n : ℕ}

/-- **The nodes are kept**: the one at place `i` is at place `f i`. -/
structure NodesKept (o : Options) (k k' : Members) (f : ℕ → ℕ) : Prop where
  mem : ∀ i ∈ k.nodes o, f i ∈ k'.nodes o
  entry : ∀ i ∈ k.nodes o, k'.map[f i]? = k.map[i]?
  inj : Set.InjOn f (k.nodes o)
  active : k.map ≠ [] → ∀ j, k.protStartNode o + j ≤ k.protFinishNode o →
    f (k.protStartNode o + j) = k'.protStartNode o + j
  spare : StrictMonoOn f (k.nodes o \ k.activeNodes o)

/-- **There is room for `n` elements** before the start, or from the finish on:
nodes for them are owned, and their slots hold no elements. -/
structure Roomy (o : Options) (t : Bool) (s : State Members α) (front : Bool) (n : ℕ)
    (s' : State Members α) : Prop where
  le_start : front = true → n ≤ s'.object.startOff
  room : if front then HasRoom o t s s' (s'.object.startOff - n) s'.object.finishOff
    else HasRoom o t s s' s'.object.startOff (s'.object.finishOff + n)

/-- **After a request for nodes**: every node and every element is there. -/
structure Recentred (o : Options) (s s' : State Members α) : Prop where
  nodes : ∃ f, NodesKept o s.object s'.object f
  same : SameElements o s s'

/-! ## Nodes that moved -/

/-- The deque as it is. -/
theorem NodesKept.refl (o : Options) (k : Members) : NodesKept o k k id :=
  ⟨fun _ h => h, fun _ _ => rfl, Set.injOn_id _, fun _ _ _ => rfl, strictMonoOn_id⟩

/-- Two places do not hold one node. -/
theorem Holds.entry_inj {s₀ : State Members α} {S₀ : Set ℕ} (h : Holds o t s₀ S₀ s)
    (ha : a ∈ s.object.nodes o) (hb : b ∈ s.object.nodes o)
    (hab : s.object.map[a]? = s.object.map[b]?) : a = b := by
  have hbs := o.blockSize_pos
  have hslot : ∀ {i}, i ∈ s.object.nodes o → i * o.blockSize ∈ s.object.slots o := by
    intro i hi
    rw [Members.slots, mem_slotsOf, Nat.mul_div_cancel _ hbs]
    exact hi
  have haddr : addrIn o s.object.map (a * o.blockSize)
      = addrIn o s.object.map (b * o.blockSize) := by
    rw [addrIn, blockAddr, blockAddr, Nat.mul_div_cancel _ hbs, Nat.mul_div_cancel _ hbs,
      Nat.mul_mod_left, Nat.mul_mod_left, nodeOf_congr hab]
  exact Nat.eq_of_mul_eq_mul_right hbs (h.owns.inj (hslot ha) (hslot hb) haddr)

theorem Members.Relocated.nodesKept {N : Set ℕ} (hr : s.object.Relocated o k' f N)
    (hs : Sound o t s) (hmem : ∀ i ∈ s.object.nodes o, f i ∈ k'.nodes o) :
    NodesKept o s.object k' f := by
  refine ⟨hmem, hr.entry, fun i hi j hj hij => ?_, hr.shift, hr.spare⟩
  refine hs.holds.entry_inj hi hj ?_
  rw [← hr.entry i hi, hij, hr.entry j hj]

/-- Nodes that are kept are among the nodes. -/
theorem Members.Relocated.mem_nodes {N : Set ℕ} (hr : k.Relocated o k' f N) (hv : k.Valid o)
    (hne' : k'.map ≠ []) (hN : N ∪ f '' k.nodes o = k'.span o a b) :
    ∀ i ∈ k.nodes o, f i ∈ k'.nodes o := by
  intro i hi
  have hne : k.map ≠ [] := by
    intro h0
    rw [nodes_of_null h0] at hi
    exact hi
  by_cases hres : o.reservable = true
  · have hspan : f i ∈ k'.span o a b := hN ▸ Or.inr (Set.mem_image_of_mem f hi)
    rw [span, if_pos hres] at hspan
    rw [nodes, if_pos hres]
    exact hspan
  · have hres' : o.reservable = false := Bool.not_eq_true _ ▸ hres
    rw [k'.nodes_eq_Icc hres' hne', ← hr.image_nodes hv hne hres']
    exact Set.mem_image_of_mem f hi

/-- Where nodes were moved there is a finish node. -/
theorem Members.Relocated.finishNode_mem {N : Set ℕ} (hr : k.Relocated o k' f N) :
    k'.protFinishNode o ∈ k'.nodes o := by
  have hlt : k'.protFinishNode o < k'.map.length :=
    (Nat.div_lt_iff_lt_mul o.blockSize_pos).mpr hr.finish_lt
  rw [nodes]
  split
  · exact hlt
  · rw [if_neg (List.ne_nil_of_length_pos (Nat.zero_lt_of_lt hlt))]
    refine ⟨Nat.div_le_div_right ?_, le_rfl⟩
    rw [hr.finish_eq]
    exact Nat.le_add_right _ _

/-- **Memory was refused**: the deque is a deque, with the nodes and the elements
that it had. -/
theorem NoRoom.recentred (hs : Sound o t s) (h : NoRoom o t s ∅ s.object s') :
    Recentred o s s' ∧ Holds o t s (ownSlots o s) s' := by
  have hv := hs.holds.valid
  -- as far as nodes are concerned, a deque that was not moved is one that was
  have hmoved : s.object.map ≠ [] → ∃ f, s.object.Relocated o s'.object f ∅
      ∧ f '' s.object.nodes o = s'.object.nodes o := by
    intro hne
    rcases h.1 with hobj | hr
    · rw [hobj]
      exact ⟨id, hv.relocated hne, Set.image_id _⟩
    · exact hr
  by_cases hne : s.object.map = []
  · have hobj : s'.object = s.object := by
      rcases h.1 with hobj | ⟨f, hr, himage⟩
      · exact hobj
      · rw [Members.nodes_of_null hne, Set.image_empty] at himage
        exact absurd hr.finishNode_mem (himage ▸ fun h => h)
    have hslots : s'.object.slots o = ∅ := by
      rw [hobj, Members.slots, Members.nodes_of_null hne, slotsOf_empty]
    have helements : s'.object.elements = ∅ := by
      rw [hobj, Members.elements, hv.null hne, hv.start_eq_zero hne, Set.Ico_self]
    have hown : ownSlots o s = ∅ := by
      rw [ownSlots, Members.slots, Members.nodes_of_null hne, slotsOf_empty, Set.image_empty]
    refine ⟨⟨⟨id, hobj ▸ .refl o _⟩, by rw [hobj], fun i hi => ?_⟩, hobj ▸ hv, ?_⟩
    · rw [Members.protSize, hv.null hne, Nat.zero_sub] at hi
      exact absurd hi (Nat.not_lt_zero i)
    · rw [hslots, helements, hown]
      exact OwnsVia_empty.mpr h.2
  · obtain ⟨f, hr, himage⟩ := hmoved hne
    have hnew : OwnsVia t s ∅ s'.object (addrIn o s'.object.map) (slotsOf o.blockSize ∅) ∅ s' :=
      OwnsVia_empty.mpr h.2
    obtain ⟨howns, hsame⟩ := hr.holds hv hs.holds.owns hnew
    rw [himage, Set.empty_union] at howns
    have hlen := hr.length_ge
    have hvalid : s'.object.Valid o := by
      refine ⟨?_, fun _ => hr.finish_lt, fun h0 => ?_, fun _ => hlen, hr.fits, hr.single, ?_⟩
      · rw [hr.finish_eq]
        exact Nat.le_add_right _ _
      · rw [h0] at hlen
        exact absurd hlen (by decide)
      · rw [← himage]
        rintro _ ⟨i, hi, rfl⟩
        rw [hr.entry i hi]
        exact hv.written i hi
    have hsize : s'.object.protSize = s.object.protSize := by
      rw [Members.protSize, hr.finish_eq, Nat.add_sub_cancel_left]
    exact ⟨⟨⟨f, hr.nodesKept hs (fun i hi => himage ▸ Set.mem_image_of_mem f hi)⟩, hsize, hsame⟩,
      hvalid, howns⟩

/-- **There is room**, and the nodes are where they were, or elsewhere. -/
theorem MadeRoom.recentred (hs : Sound o t s) {M : Members → Set ℕ}
    (h : MadeRoom o t s ∅ s.object M s') (hM : M s'.object = s'.object.span o a b)
    (hr : HasRoom o t s s' a b) : Recentred o s s' := by
  obtain ⟨f, N, hmoved, hN, -⟩ := h
  exact ⟨⟨f, hmoved.nodesKept hs (hmoved.mem_nodes hs.holds.valid hr.null (hN.trans hM))⟩, hr.same⟩

/-! ## The requests -/

/-- **A request for nodes.** -/
inductive NodeRequest where
  /-- `priv_reserve_elements_at_front` -/
  | reserveFront (n : ℕ)
  /-- `priv_reserve_elements_at_back` -/
  | reserveBack (n : ℕ)
  /-- `prot_reallocate_map_and_nodes`, the overload for the kind of the deque. -/
  | reallocate (newElems : ℕ) (addAtFront : Bool)

namespace NodeRequest

/-- `prot_reallocate_map_and_nodes` -/
def protReallocateMapAndNodes (o : Options) (rot : Rotation) (e : Env α) (newElems : ℕ)
    (addAtFront : Bool) : Prog (State Members α) Unit :=
  if o.reservable then
    if o.singleEnded then reallocateReservableSingleEnded o e newElems
    else reallocateReservable o rot e newElems addAtFront
  else
    if o.singleEnded then reallocateSingleEnded o e newElems
    else reallocateDoubleEnded o e newElems addAtFront

def run (o : Options) (rot : Rotation) (e : Env α) : NodeRequest → Prog (State Members α) Unit
  | reserveFront n => privReserveElementsAtFront o rot e n
  | reserveBack n => privReserveElementsAtBack o rot e n
  | reallocate m front => protReallocateMapAndNodes o rot e m front

/-- The end that nodes are asked for at. -/
def atFront : NodeRequest → Bool
  | reserveFront _ => true
  | reserveBack _ => false
  | reallocate _ front => front

/-- The elements that are to have room, those that have room already included. -/
def count (o : Options) (k : Members) : NodeRequest → ℕ
  | reserveFront n => n
  | reserveBack n => n
  | reallocate m front =>
    (if front then k.protFrontFreeCapacity o else k.protBackFreeCapacity o) + m

/-- **What callers see to**: single-ended deques do not grow at the front, and a
map is only reallocated where there is one, for elements. -/
def Allowed (o : Options) (k : Members) (c : NodeRequest) : Prop :=
  (c.atFront = true → o.singleEnded = false)
    ∧ ∀ m front, c = reallocate m front → k.map ≠ [] ∧ 0 < m

end NodeRequest

/-- **Reallocation** makes room, or refuses without a loss. -/
theorem protReallocateMapAndNodes_meets (hv : k.Valid o) (hsize : k.mapSize = k.map.length)
    (hne : k.map ≠ []) {front : Bool} (hf : front = true → o.singleEnded = false) (hm : 0 < m)
    (hn : (if front then k.protFrontFreeCapacity o else k.protBackFreeCapacity o) + m = n) :
    Prog.Meets (Owns t s ∅ k ∅ ∅) (NodeRequest.protReallocateMapAndNodes o rot e m front)
      (fun _ s' => (if front then n ≤ s'.object.startOff
          else s'.object.finishOff + n < s'.object.map.length * o.blockSize)
        ∧ MadeRoom o t s ∅ k (fun k' => if front then k'.span o (k'.startOff - n) k'.finishOff
          else k'.span o k'.startOff (k'.finishOff + n)) s')
      (NoRoom o t s ∅ k) := by
  have hfin := hv.finish_lt hne
  rw [Members.protFrontFreeCapacity, Members.protBackFreeCapacity, if_neg hne, if_neg hne, hsize]
    at hn
  unfold NodeRequest.protReallocateMapAndNodes
  refine Prog.Meets.ite (fun hres => ?_) (fun hres => ?_)
  · rw [if_pos hres, if_pos hres] at hn
    refine Prog.Meets.ite (fun hse => ?_) (fun hse => ?_)
    · obtain rfl : front = false := by
        cases front with
        | false => rfl
        | true => rw [hf rfl] at hse; exact absurd hse Bool.false_ne_true
      rw [if_neg Bool.false_ne_true] at hn
      exact reallocateReservableSingleEnded_meets hv hsize hne hres (by omega)
    · exact reallocateReservable_meets hv hsize hne hres (Bool.not_eq_true _ ▸ hse) hn
  · rw [if_neg hres, if_neg hres] at hn
    have hres' : o.reservable = false := Bool.not_eq_true _ ▸ hres
    refine Prog.Meets.ite (fun hse => ?_) (fun hse => ?_)
    · obtain rfl : front = false := by
        cases front with
        | false => rfl
        | true => rw [hf rfl] at hse; exact absurd hse Bool.false_ne_true
      rw [if_neg Bool.false_ne_true] at hn
      exact reallocateSingleEnded_meets hv hsize hne hres' hn hm
    · exact reallocateDoubleEnded_meets hv hsize hne hres' (Bool.not_eq_true _ ▸ hse) hn hm

/-- What a request for room ends in, told of the deque. -/
theorem recentred_of_meets (hs : Sound o t s) (front : Bool) {c : Prog (State Members α) Unit}
    (h : Prog.Meets (Owns t s ∅ s.object ∅ ∅) c
      (fun _ s' => (if front then n ≤ s'.object.startOff
          else s'.object.finishOff + n < s'.object.map.length * o.blockSize)
        ∧ MadeRoom o t s ∅ s.object (fun k' =>
          if front then k'.span o (k'.startOff - n) k'.finishOff
          else k'.span o k'.startOff (k'.finishOff + n)) s')
      (NoRoom o t s ∅ s.object)) :
    (c s).Meets (fun _ s' => Recentred o s s' ∧ Roomy o t s front n s')
      (fun s' => Recentred o s s' ∧ Holds o t s (ownSlots o s) s') := by
  refine (h s (Sound.owns_empty s)).imp (fun _ s' hq => ?_) (fun s' he => he.recentred hs)
  obtain ⟨hroom, hmade⟩ := hq
  cases front with
  | true =>
    have hlt : s'.object.finishOff < s'.object.map.length * o.blockSize := by
      obtain ⟨f, N, hr, -⟩ := hmade
      exact hr.finish_lt
    have hr : HasRoom o t s s' (s'.object.startOff - n) s'.object.finishOff :=
      hmade.hasRoom hs rfl (Nat.sub_le _ _) le_rfl hlt
    exact ⟨hmade.recentred hs rfl hr, fun _ => hroom, hr⟩
  | false =>
    have hr : HasRoom o t s s' s'.object.startOff (s'.object.finishOff + n) :=
      hmade.hasRoom hs rfl le_rfl (Nat.le_add_right _ _) hroom
    exact ⟨hmade.recentred hs rfl hr, fun h => absurd h Bool.false_ne_true, hr⟩

end DequeImpl
