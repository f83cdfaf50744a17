import BoostContainer.Deque.DequeRoom

/-!
# Reserving room at an end

The overloads of `prot_reallocate_map_and_nodes`, and what calls them. Each
ends in one of two ways: there is room (`MadeRoom`), or memory was refused
(`NoRoom`). Both are told from a state in which the deque is given no slots at
all, so none of its slots is touched.
-/

open Slots

namespace DequeImpl

variable {α : Type*} {o : Options} {rot : Rotation} {e : Env α} {t : Bool}
  {s₀ s s' : State Members α} {S₀ : Set ℕ} {k k' : Members} {map map' : List (Option ℕ)}
  {N : Set ℕ} {M : Members → Set ℕ} {f g : ℕ → ℕ} {a b i m n ns : ℕ}

/-- **There is room**: the nodes are at the places that `M` tells, and the slots
of the new ones are owned. -/
def MadeRoom (o : Options) (t : Bool) (s₀ : State Members α) (S₀ : Set ℕ) (k : Members)
    (M : Members → Set ℕ) (s : State Members α) : Prop :=
  ∃ f N, k.Relocated o s.object f N ∧ N ∪ f '' k.nodes o = M s.object
    ∧ OwnsVia t s₀ S₀ s.object (addrIn o s.object.map) (slotsOf o.blockSize N) ∅ s

/-- **Memory was refused**: nodes may have moved, and nothing else happened. -/
def NoRoom (o : Options) (t : Bool) (s₀ : State Members α) (S₀ : Set ℕ) (k : Members)
    (s : State Members α) : Prop :=
  (s.object = k ∨ ∃ f, k.Relocated o s.object f ∅ ∧ f '' k.nodes o = s.object.nodes o)
    ∧ Owns t s₀ S₀ s.object ∅ ∅ s

theorem NoRoom.of_unchanged (h : Owns t s₀ S₀ k ∅ ∅ s) : NoRoom o t s₀ S₀ k s :=
  ⟨Or.inl h.object_eq, h.object_eq ▸ h⟩

/-! ## Sizes -/

/-- The size of a map that passes the test. -/
theorem fits_of_test {c : ℕ} (h : ¬ o.maxSize < c * o.blockSize - 1) :
    c * o.blockSize ≤ 2 ^ o.storedBits := by
  have hmax : o.maxSize ≤ 2 ^ o.storedBits - 1 := min_le_right _ _
  have hpos := Nat.two_pow_pos o.storedBits
  omega

theorem testSizeAgainstNNodes_meets {P : State Members α → Prop} {c : ℕ} :
    Prog.Meets P (testSizeAgainstNNodes o c)
      (fun _ s => c * o.blockSize ≤ 2 ^ o.storedBits ∧ P s) P := by
  intro s hs
  unfold testSizeAgainstNNodes testSizeAgainstMax
  split
  · exact hs
  · rename_i h
    exact ⟨fits_of_test h, hs⟩

/-- The blocks for `n` elements hold them. -/
theorem le_blocks {bs : ℕ} (hbs : 0 < bs) : n ≤ ((n - 1) / bs + 1) * bs := by
  have h := Nat.lt_mul_div_succ (n - 1) hbs
  rw [Nat.mul_comm] at h
  omega

/-- The new nodes, once they are written. -/
theorem owns_writeNodes {nodes : List ℕ} (hb : b + nodes.length ≤ map.length)
    (h : OwnsVia t s₀ S₀ k (blockAddr o.blockSize (listed b nodes))
      (slotsOf o.blockSize (Set.Ico b (b + nodes.length))) ∅ s) :
    OwnsVia t s₀ S₀ k (addrIn o (writeNodes map b nodes))
      (slotsOf o.blockSize (Set.Ico b (b + nodes.length))) ∅ s :=
  h.readdress (blockAddr_congr (fun _ hi => nodeOf_writeNodes hb hi))

/-! ## Reallocation -/

/-- Nodes that stay where they are, in another map. -/
theorem relocated_of_same (hv : k.Valid o) (hne : k.map ≠ []) {ms : ℕ}
    (hlen : k.map.length ≤ map'.length) (hfits : map'.length * o.blockSize ≤ 2 ^ o.storedBits)
    (hold : ∀ i ∈ k.nodes o, map'[i]? = k.map[i]?) (hN : Written map' N) :
    k.Relocated o { k with map := map', mapSize := ms } id N :=
  ⟨hold, hN, fun _ _ _ => rfl, fun _ => rfl, hv.finish_eq,
    lt_of_lt_of_le (hv.finish_lt hne) (Nat.mul_le_mul_right _ hlen),
    (hv.length_ge hne).trans hlen, hfits, hv.single, rfl, strictMonoOn_id⟩

/-- **Reservable and single-ended**: all nodes stay where they are. -/
theorem reallocateReservableSingleEnded_meets (hv : k.Valid o) (hsize : k.mapSize = k.map.length)
    (hne : k.map ≠ []) (hres : o.reservable = true)
    (hn : k.finishOff + n < k.map.length * o.blockSize + m) :
    Prog.Meets (Owns t s₀ S₀ k ∅ ∅) (reallocateReservableSingleEnded o e m)
      (fun _ s => s.object.finishOff + n < s.object.map.length * o.blockSize
        ∧ MadeRoom o t s₀ S₀ k (fun k' => k'.span o k'.startOff (k'.finishOff + n)) s)
      (NoRoom o t s₀ S₀ k) := by
  have hblocks := le_blocks (n := m) o.blockSize_pos
  unfold reallocateReservableSingleEnded
  refine object_bind_meets ?_
  rw [hsize]
  obtain ⟨c, hc⟩ : ∃ c, c = max (k.map.length + k.map.length / 2)
    (k.map.length + ((m - 1) / o.blockSize + 1) + 2) := ⟨_, rfl⟩
  have hc' : k.map.length + ((m - 1) / o.blockSize + 1) ≤ c := by omega
  simp only [← hc]
  refine Prog.Meets.bind (testSizeAgainstNNodes_meets.except (fun _ => NoRoom.of_unchanged))
    (fun _ => Prog.Meets.of_pre (fun hfits => ?_))
  refine Prog.Meets.bind (request_meets.except (fun _ => NoRoom.of_unchanged)) (fun _ => ?_)
  have hrep : (List.replicate c (none : Option ℕ)).length = c := List.length_replicate
  rw [within_bind (by omega)]
  refine Prog.Meets.bind ((protAllocateNodes_meets k.map.length).except
    (fun _ => NoRoom.of_unchanged)) (fun nodes => Prog.Meets.of_pre (fun hlen => ?_))
  have hwrite : k.map.length + nodes.length ≤ (List.replicate c (none : Option ℕ)).length := by
    omega
  obtain ⟨map₁, hmap₁⟩ : ∃ map₁, map₁ = writeNodes (List.replicate c none) k.map.length nodes :=
    ⟨_, rfl⟩
  have hlen₁ : map₁.length = c := by rw [hmap₁, length_writeNodes hwrite, hrep]
  have hfrom : 0 + k.map.length ≤ k.map.length := by omega
  have hto : 0 + k.map.length ≤ map₁.length := by omega
  rw [← hmap₁, within_bind hfrom, within_bind hto]
  refine Prog.Meets.no_throw (setObject_via.post (fun _ s hs => ?_))
  have hget : ∀ i, (moveEntries k.map 0 k.map.length map₁ 0)[i]?
      = if i < k.map.length then k.map[i]? else map₁[i]? := by
    intro i
    rw [getElem?_moveEntries hfrom hto]
    simp only [Nat.zero_add, Nat.sub_zero, Nat.zero_le, true_and]
  have hadd : ∀ i ∈ Set.Ico k.map.length (k.map.length + nodes.length),
      (moveEntries k.map 0 k.map.length map₁ 0)[i]? = map₁[i]? :=
    fun i hi => (hget i).trans (if_neg (Nat.not_lt.mpr hi.1))
  have hlen₂ : (moveEntries k.map 0 k.map.length map₁ 0).length = c :=
    (length_moveEntries hfrom hto).trans hlen₁
  have hmul := Nat.mul_le_mul_right o.blockSize hc'
  rw [Nat.add_mul] at hmul
  simp only [hsize] at hs
  rw [show k.map.length + (c - k.map.length) = k.map.length + nodes.length by omega] at hs
  rw [MadeRoom, hs.owns.object_eq]
  refine ⟨?_, id, _, relocated_of_same hv hne ?_ ?_ (fun i hi => ?_) (fun i hi => ?_), ?_,
    hs.readdress (blockAddr_congr (fun i hi => ?_))⟩
  · show k.finishOff + n < _ * o.blockSize
    rw [hlen₂]
    omega
  · rw [hlen₂]
    omega
  · rwa [hlen₂]
  · rw [Members.nodes, if_pos hres] at hi
    rw [hget, if_pos (Set.mem_Iio.mp hi)]
  · rw [hadd i hi, hmap₁]
    exact written_writeNodes hwrite i hi
  · rw [Members.nodes, if_pos hres, Members.span, if_pos hres, Set.image_id]
    ext i
    simp only [Set.mem_union, Set.mem_Ico, Set.mem_Iio, hlen₂]
    omega
  · rw [nodeOf_congr (hadd i hi), hmap₁, nodeOf_writeNodes hwrite hi]
    rfl

/-- **New nodes for a deque that is not reservable**, written at the places from
`pos` on. -/
theorem allocateNodes_write_meets (hv : k.Valid o) (hne : k.map ≠ []) (hres : o.reservable = false)
    {k₁ : Members} (hr : k.Relocated o k₁ f ∅) {pos : Members → ℕ} (hpos : pos k₁ = b)
    (hb : b + m ≤ k₁.map.length) (hd : b + m ≤ k₁.protStartNode o ∨ k₁.protFinishNode o < b)
    (hM : ∀ k' : Members, k'.startOff = k₁.startOff → k'.finishOff = k₁.finishOff →
      Set.Ico b (b + m) ∪ Set.Icc (k₁.protStartNode o) (k₁.protFinishNode o) = M k') :
    Prog.Meets (Owns t s₀ S₀ k₁ ∅ ∅) (do
        let nodes ← protAllocateNodes o e m
        setObject fun k => { k with map := writeNodes k.map (pos k) nodes })
      (fun _ s => (s.object.startOff = k₁.startOff ∧ s.object.finishOff = k₁.finishOff
          ∧ s.object.map.length = k₁.map.length)
        ∧ MadeRoom o t s₀ S₀ k M s)
      (NoRoom o t s₀ S₀ k) := by
  have himage := hr.image_nodes hv hne hres
  have hne₁ : k₁.map ≠ [] :=
    List.ne_nil_of_length_pos (lt_of_lt_of_le (by decide) hr.length_ge)
  refine Prog.Meets.bind ((protAllocateNodes_meets b).except (fun s hs => ?_))
    (fun nodes => Prog.Meets.of_pre (fun hlen => ?_))
  · refine ⟨Or.inr ⟨f, ?_⟩, hs.object_eq.symm ▸ hs⟩
    rw [hs.object_eq]
    exact ⟨hr, himage.trans (k₁.nodes_eq_Icc hres hne₁).symm⟩
  · subst hlen
    refine Prog.Meets.no_throw (setObject_via.post (fun _ s hs => ?_))
    rw [MadeRoom, hs.owns.object_eq, hpos]
    rw [hpos] at hs
    refine ⟨⟨rfl, rfl, length_writeNodes hb⟩, f, _, hr.write hb (fun i hi hi' => ?_),
      himage ▸ hM _ rfl rfl, owns_writeNodes hb hs⟩
    have hmem := himage ▸ Set.mem_image_of_mem f hi
    have h₁ := hmem.1
    have h₂ := hmem.2
    have h₃ := hi'.1
    have h₄ := hi'.2
    omega

/-- The blocks that `n` elements at the back reach into. -/
theorem div_add_back {bs x : ℕ} (hbs : 0 < bs) (hn : bs - 1 - x % bs + m = n) (hm : 0 < m) :
    (x + n) / bs = x / bs + ((m - 1) / bs + 1) := by
  have h1 := Nat.div_add_mod x bs
  have h2 := Nat.mod_lt x hbs
  have h3 : x + n = bs * (x / bs + 1) + (m - 1) := by
    rw [Nat.mul_succ]
    omega
  rw [h3, Nat.mul_add_div hbs]
  omega

/-- New nodes after the finish node. -/
theorem allocateNodes_back_meets (hv : k.Valid o) (hne : k.map ≠ []) (hres : o.reservable = false)
    {k₁ : Members} (hr : k.Relocated o k₁ f ∅)
    (hn : o.blockSize - 1 - k₁.finishOff % o.blockSize + m = n) (hm : 0 < m)
    (hroom : k₁.protFinishNode o + 1 + ((m - 1) / o.blockSize + 1) ≤ k₁.map.length) :
    Prog.Meets (Owns t s₀ S₀ k₁ ∅ ∅) (do
        let k ← object
        within k.map (k.protFinishNode o + 1) ((m - 1) / o.blockSize + 1)
        let nodes ← protAllocateNodes o e ((m - 1) / o.blockSize + 1)
        setObject fun k => { k with map := writeNodes k.map (k.protFinishNode o + 1) nodes })
      (fun _ s => s.object.finishOff + n < s.object.map.length * o.blockSize
        ∧ MadeRoom o t s₀ S₀ k (fun k' => k'.span o k'.startOff (k'.finishOff + n)) s)
      (NoRoom o t s₀ S₀ k) := by
  have hdiv := div_add_back o.blockSize_pos hn hm
  have hle : k₁.startOff / o.blockSize ≤ k₁.finishOff / o.blockSize :=
    Nat.div_le_div_right (by rw [hr.finish_eq]; omega)
  refine object_bind_meets ?_
  rw [within_bind hroom]
  refine (allocateNodes_write_meets hv hne hres hr (b := k₁.protFinishNode o + 1) rfl hroom
    (Or.inr (Nat.lt_succ_self _))
    (fun k' h₁ h₂ => ?_)).post (fun _ s hs => ⟨?_, hs.2⟩)
  · rw [Members.span, if_neg (hres ▸ Bool.false_ne_true), h₁, h₂, hdiv]
    ext i
    simp only [Members.protStartNode, Members.protFinishNode, Set.mem_union, Set.mem_Ico,
      Set.mem_Icc]
    generalize (m - 1) / o.blockSize = c
    omega
  · rw [hs.1.2.1, hs.1.2.2, ← Nat.div_lt_iff_lt_mul o.blockSize_pos, hdiv]
    rw [Members.protFinishNode] at hroom
    omega

/-- The block that `n` elements at the front start in. -/
theorem sub_div_front {bs x : ℕ} (hbs : 0 < bs) (hn : x % bs + m = n) (hm : 0 < m)
    (hroom : (m - 1) / bs + 1 ≤ x / bs) :
    n ≤ x ∧ (x - n) / bs = x / bs - ((m - 1) / bs + 1) := by
  have h1 := Nat.div_add_mod x bs
  have h2 := le_blocks (n := m) hbs
  have h3 : ((m - 1) / bs + 1) * bs ≤ x / bs * bs := Nat.mul_le_mul_right _ hroom
  rw [Nat.mul_comm (x / bs)] at h3
  refine ⟨by omega, ?_⟩
  rw [show x - n = bs * (x / bs) - (m - 1 + 1) by omega, Nat.mul_sub_div _ _ _ (by omega)]

/-- New nodes before the start node. -/
theorem allocateNodes_front_meets (hv : k.Valid o) (hne : k.map ≠ []) (hres : o.reservable = false)
    {k₁ : Members} (hr : k.Relocated o k₁ f ∅)
    (hn : k₁.startOff % o.blockSize + m = n) (hm : 0 < m)
    (hroom : (m - 1) / o.blockSize + 1 ≤ k₁.protStartNode o) :
    Prog.Meets (Owns t s₀ S₀ k₁ ∅ ∅) (do
        let k ← object
        withinBefore k.map (k.protStartNode o) ((m - 1) / o.blockSize + 1)
        let nodes ← protAllocateNodes o e ((m - 1) / o.blockSize + 1)
        setObject fun k => { k with
          map := writeNodes k.map (k.protStartNode o - ((m - 1) / o.blockSize + 1)) nodes })
      (fun _ s => n ≤ s.object.startOff
        ∧ MadeRoom o t s₀ S₀ k (fun k' => k'.span o (k'.startOff - n) k'.finishOff) s)
      (NoRoom o t s₀ S₀ k) := by
  obtain ⟨hfront, hdiv⟩ := sub_div_front o.blockSize_pos hn hm hroom
  have hle : k₁.startOff / o.blockSize ≤ k₁.finishOff / o.blockSize :=
    Nat.div_le_div_right (by rw [hr.finish_eq]; omega)
  have hlt : k₁.finishOff / o.blockSize < k₁.map.length :=
    (Nat.div_lt_iff_lt_mul o.blockSize_pos).mpr hr.finish_lt
  have hroom' : (m - 1) / o.blockSize + 1 ≤ k₁.startOff / o.blockSize := hroom
  refine object_bind_meets ?_
  rw [withinBefore_bind hroom (hle.trans hlt.le)]
  refine (allocateNodes_write_meets hv hne hres hr (b := k₁.protStartNode o -
    ((m - 1) / o.blockSize + 1)) rfl ?_ (Or.inl (by omega))
    (fun k' h₁ h₂ => ?_)).post (fun _ s hs => ⟨hs.1.1 ▸ hfront, hs.2⟩)
  · rw [Members.protStartNode]
    omega
  · rw [Members.span, if_neg (hres ▸ Bool.false_ne_true), h₁, h₂, hdiv]
    ext i
    simp only [Members.protStartNode, Members.protFinishNode, Set.mem_union, Set.mem_Ico,
      Set.mem_Icc]
    generalize (m - 1) / o.blockSize = c at hroom' ⊢
    omega

/-- **Not reservable and single-ended**: nodes stay where they are, if in a larger
map. -/
theorem reallocateSingleEnded_meets (hv : k.Valid o) (hsize : k.mapSize = k.map.length)
    (hne : k.map ≠ []) (hres : o.reservable = false)
    (hn : o.blockSize - 1 - k.finishOff % o.blockSize + m = n) (hm : 0 < m) :
    Prog.Meets (Owns t s₀ S₀ k ∅ ∅) (reallocateSingleEnded o e m)
      (fun _ s => s.object.finishOff + n < s.object.map.length * o.blockSize
        ∧ MadeRoom o t s₀ S₀ k (fun k' => k'.span o k'.startOff (k'.finishOff + n)) s)
      (NoRoom o t s₀ S₀ k) := by
  have hlt := hv.finishNode_lt hne
  unfold reallocateSingleEnded
  refine object_bind_meets ?_
  rw [hsize]
  dsimp only
  refine Prog.Meets.ite (fun h => ?_) (fun h => ?_)
  · obtain ⟨c, hc⟩ : ∃ c, c = max (k.map.length * 2)
      (k.protFinishNode o + 1 + ((m - 1) / o.blockSize + 1) + 2) := ⟨_, rfl⟩
    rw [← hc]
    refine Prog.Meets.bind (testSizeAgainstNNodes_meets.except (fun _ => NoRoom.of_unchanged))
      (fun _ => Prog.Meets.of_pre (fun hfits => ?_))
    refine Prog.Meets.bind (request_meets.except (fun _ => NoRoom.of_unchanged)) (fun _ => ?_)
    have hfrom : 0 + (k.protFinishNode o + 1) ≤ k.map.length := by omega
    have hto : 0 + (k.protFinishNode o + 1) ≤ (List.replicate c (none : Option ℕ)).length := by
      rw [List.length_replicate]
      omega
    rw [within_bind hfrom, within_bind hto]
    refine Prog.Meets.bind (Prog.Meets.no_throw setObject_meets) (fun _ => ?_)
    have hlen := (length_moveEntries hfrom hto).trans List.length_replicate
    refine allocateNodes_back_meets hv hne hres
      (relocated_of_same hv hne ?_ ?_ (fun i hi => ?_) (fun i hi => hi.elim)) hn hm ?_
    · omega
    · rwa [hlen]
    · rw [k.nodes_eq_Icc hres hne] at hi
      rw [getElem?_moveEntries hfrom hto, if_pos ⟨by omega, by have := hi.2; omega⟩,
        Nat.zero_add, Nat.sub_zero]
    · show k.protFinishNode o + 1 + _ ≤ (moveEntries _ _ _ _ _).length
      omega
  · exact allocateNodes_back_meets hv hne hres (hv.relocated hne) hn hm (by omega)

/-- **Not reservable and double-ended**: the nodes are moved to the middle of the
map, or of a larger one. -/
theorem reallocateDoubleEnded_meets (hv : k.Valid o) (hsize : k.mapSize = k.map.length)
    (hne : k.map ≠ []) (hres : o.reservable = false) (hse : o.singleEnded = false) {front : Bool}
    (hn : (if front then k.startOff % o.blockSize
      else o.blockSize - 1 - k.finishOff % o.blockSize) + m = n) (hm : 0 < m) :
    Prog.Meets (Owns t s₀ S₀ k ∅ ∅) (reallocateDoubleEnded o e m front)
      (fun _ s => (if front then n ≤ s.object.startOff
          else s.object.finishOff + n < s.object.map.length * o.blockSize)
        ∧ MadeRoom o t s₀ S₀ k (fun k' => if front then k'.span o (k'.startOff - n) k'.finishOff
          else k'.span o k'.startOff (k'.finishOff + n)) s)
      (NoRoom o t s₀ S₀ k) := by
  have hle := hv.node_le
  have hlt := hv.finishNode_lt hne
  obtain ⟨c, hc⟩ : ∃ c, c = (m - 1) / o.blockSize + 1 := ⟨_, rfl⟩
  obtain ⟨d, hd⟩ : ∃ d, d = k.protFinishNode o + 1 - k.protStartNode o := ⟨_, rfl⟩
  -- wherever the active nodes are, there is room for the new ones
  have hwrite : ∀ k₁ g, k.Relocated o k₁ g ∅ →
      (if front then c ≤ k₁.protStartNode o
        else k₁.protStartNode o + d + c ≤ k₁.map.length) →
      Prog.Meets (Owns t s₀ S₀ k₁ ∅ ∅) (do
          let k ← object
          if front = true then
            withinBefore k.map (k.protStartNode o) c
            let nodes ← protAllocateNodes o e c
            setObject fun k => { k with map := writeNodes k.map (k.protStartNode o - c) nodes }
          else
            within k.map (k.protFinishNode o + 1) c
            let nodes ← protAllocateNodes o e c
            setObject fun k => { k with map := writeNodes k.map (k.protFinishNode o + 1) nodes })
        (fun _ s => (if front then n ≤ s.object.startOff
            else s.object.finishOff + n < s.object.map.length * o.blockSize)
          ∧ MadeRoom o t s₀ S₀ k (fun k' => if front then k'.span o (k'.startOff - n) k'.finishOff
            else k'.span o k'.startOff (k'.finishOff + n)) s)
        (NoRoom o t s₀ S₀ k) := by
    intro k₁ g hr hroom
    cases front with
    | true =>
      rw [if_pos rfl] at hroom
      simp only [if_true] at hn ⊢
      rw [← hr.start_mod hne] at hn
      subst hc
      exact allocateNodes_front_meets hv hne hres hr hn hm hroom
    | false =>
      rw [if_neg Bool.false_ne_true] at hroom
      simp only [Bool.false_eq_true, if_false] at hn ⊢
      rw [← hr.finish_mod hv hne] at hn
      subst hc
      refine allocateNodes_back_meets hv hne hres hr hn hm ?_
      rw [hr.finishNode_eq hv hne]
      omega
  have hoff : ∀ l, d + c ≤ l → privNewOffset front l (d + c) c + d ≤ l := by
    intro l hl
    rw [privNewOffset]
    split <;> omega
  have hmoved : ∀ (map : List (Option ℕ)) (ms : ℕ), map.length * o.blockSize ≤ 2 ^ o.storedBits →
      initialMapSize ≤ map.length → d + c ≤ map.length →
      ∀ k₁, k₁ = ((({ k with
          map := moveEntries k.map (k.protStartNode o) d map
            (privNewOffset front map.length (d + c) c)
          mapSize := ms } : Members).protStartUpdateNode o
            (privNewOffset front map.length (d + c) c)).protFinishUpdateNode o
              (privNewOffset front map.length (d + c) c + (d - 1))) →
      k.Relocated o k₁ (fun i => privNewOffset front map.length (d + c) c
          + (i - k.protStartNode o)) ∅
        ∧ (if front then c ≤ k₁.protStartNode o
          else k₁.protStartNode o + d + c ≤ k₁.map.length) := by
    intro map ms hfits hlen hroom k₁ hk₁
    have hns := hoff map.length hroom
    subst hd
    have hr := @Members.relocated_moveEntries _ _ _ _ hv hne hres hse ms hfits hlen hns
    rw [← hk₁] at hr
    have hstart := hr.shift hne 0 (by omega)
    have hlen₁ : k₁.map.length = map.length := by
      rw [hk₁, Members.protFinishUpdateNode_map, Members.protStartUpdateNode_map]
      exact length_moveEntries (by omega) hns
    simp only [Nat.add_zero, Nat.sub_self] at hstart
    refine ⟨hr, ?_⟩
    rw [← hstart, hlen₁]
    simp only [privNewOffset]
    split <;> omega
  unfold reallocateDoubleEnded
  refine object_bind_meets ?_
  rw [hsize]
  dsimp only
  rw [← hc, ← hd]
  refine Prog.Meets.ite (fun h => Prog.Meets.ite (fun h' => ?_) (fun h' => ?_)) (fun h => ?_)
  · obtain ⟨hr, hroom⟩ := hmoved k.map k.mapSize hv.fits (hv.length_ge hne) (by omega) _ rfl
    rw [within_bind (by omega), within_bind (hoff _ (by omega))]
    exact Prog.Meets.bind (Prog.Meets.no_throw setObject_meets) (fun _ =>
      Prog.Meets.bind (Prog.Meets.no_throw setObject_meets) (fun _ =>
        Prog.Meets.bind (Prog.Meets.no_throw setObject_meets) (fun _ => hwrite _ _ hr hroom)))
  · obtain ⟨l, hl⟩ : ∃ l, l = max (k.map.length * 2) (d + c + 1) := ⟨_, rfl⟩
    rw [← hl]
    have hrep : (List.replicate l (none : Option ℕ)).length = l := List.length_replicate
    have hge := hv.length_ge hne
    refine Prog.Meets.bind (testSizeAgainstNNodes_meets.except (fun _ => NoRoom.of_unchanged))
      (fun _ => Prog.Meets.of_pre (fun hfits => ?_))
    refine Prog.Meets.bind (request_meets.except (fun _ => NoRoom.of_unchanged)) (fun _ => ?_)
    obtain ⟨hr, hroom⟩ := hmoved (List.replicate l none) (o.stored l) (by rwa [hrep])
      (by omega) (by omega) _ rfl
    rw [hrep] at hr hroom
    rw [within_bind (by omega), within_bind (by rw [hrep]; exact hoff l (by omega))]
    exact Prog.Meets.bind (Prog.Meets.no_throw setObject_meets) (fun _ =>
      Prog.Meets.bind (Prog.Meets.no_throw setObject_meets) (fun _ =>
        Prog.Meets.bind (Prog.Meets.no_throw setObject_meets) (fun _ => hwrite _ _ hr hroom)))
  · refine hwrite k id (hv.relocated hne) ?_
    cases front with
    | true =>
      simp only [if_true] at h ⊢
      omega
    | false =>
      simp only [Bool.false_eq_true, if_false] at h ⊢
      omega

/-- The room at both ends of a map, counted in nodes. -/
theorem Members.Relocated.room (hr : k.Relocated o k' f N) (hv : k.Valid o) (hne : k.map ≠ [])
    {front : Bool} {c u : ℕ} (hc : m ≤ c * o.blockSize)
    (hn : (if front then k.startOff else k.map.length * o.blockSize - 1 - k.finishOff) + m = n)
    (hu : u = if front then k.protStartNode o else k.map.length - (k.protFinishNode o + 1))
    (hroom : if front then c + u ≤ k'.protStartNode o
      else k'.protFinishNode o + 1 + u + c ≤ k'.map.length) :
    if front then n ≤ k'.startOff else k'.finishOff + n < k'.map.length * o.blockSize := by
  have hsd := Nat.div_add_mod k.startOff o.blockSize
  have hsd' := Nat.div_add_mod k'.startOff o.blockSize
  have hfd := Nat.div_add_mod k.finishOff o.blockSize
  have hfd' := Nat.div_add_mod k'.finishOff o.blockSize
  have hfm := Nat.mod_lt k.finishOff o.blockSize_pos
  have hlt := hv.finishNode_lt hne
  cases front with
  | true =>
    simp only [if_true] at hn hu hroom ⊢
    have hmul := Nat.mul_le_mul_right o.blockSize hroom
    rw [hr.start_mod hne] at hsd'
    rw [hu, Nat.add_mul, Members.protStartNode, Members.protStartNode,
      Nat.mul_comm (k.startOff / _), Nat.mul_comm (k'.startOff / _)] at hmul
    omega
  | false =>
    simp only [Bool.false_eq_true, if_false] at hn hu hroom ⊢
    have hmul := Nat.mul_le_mul_right o.blockSize hroom
    have hall : k.protFinishNode o * o.blockSize + o.blockSize + u * o.blockSize
        = k.map.length * o.blockSize := by
      rw [← Nat.succ_mul, ← Nat.add_mul, hu]
      congr 1
      omega
    rw [hr.finish_mod hv hne] at hfd'
    rw [Nat.add_mul, Nat.add_mul, Nat.succ_mul, Members.protFinishNode,
      Nat.mul_comm (k'.finishOff / _)] at hmul
    rw [Members.protFinishNode, Nat.mul_comm (k.finishOff / _)] at hall
    omega

/-- **Reservable and double-ended**: the active nodes change places with others. -/
theorem reallocateReservable_meets (hv : k.Valid o) (hsize : k.mapSize = k.map.length)
    (hne : k.map ≠ []) (hres : o.reservable = true) (hse : o.singleEnded = false) {front : Bool}
    (hn : (if front then k.startOff else k.map.length * o.blockSize - 1 - k.finishOff) + m = n) :
    Prog.Meets (Owns t s₀ S₀ k ∅ ∅) (reallocateReservable o rot e m front)
      (fun _ s => (if front then n ≤ s.object.startOff
          else s.object.finishOff + n < s.object.map.length * o.blockSize)
        ∧ MadeRoom o t s₀ S₀ k (fun k' => if front then k'.span o (k'.startOff - n) k'.finishOff
          else k'.span o k'.startOff (k'.finishOff + n)) s)
      (NoRoom o t s₀ S₀ k) := by
  have hle := hv.node_le
  have hlt := hv.finishNode_lt hne
  have hge := hv.length_ge hne
  have hblocks := le_blocks (n := m) o.blockSize_pos
  obtain ⟨c, hc⟩ : ∃ c, c = (m - 1) / o.blockSize + 1 := ⟨_, rfl⟩
  obtain ⟨d, hd⟩ : ∃ d, d = k.protFinishNode o + 1 - k.protStartNode o := ⟨_, rfl⟩
  obtain ⟨u, hu⟩ : ∃ u, u = if front then k.protStartNode o
    else k.map.length - (k.protFinishNode o + 1) := ⟨_, rfl⟩
  rw [← hc] at hblocks
  have hoff : ∀ l, c + u + d ≤ l → privNewOffset front l (c + u + d) (c + u) + d ≤ l := by
    intro l hl
    rw [privNewOffset]
    split <;> omega
  -- the active nodes are rotated in a map that has the old one from place `x` on
  have hmoved : ∀ (map : List (Option ℕ)) (ms x ns : ℕ),
      map.length * o.blockSize ≤ 2 ^ o.storedBits → x + k.map.length = map.length →
      (∀ i < k.map.length, map[x + i]? = k.map[i]?) → Written map (Set.Iio x) →
      c + u + d ≤ map.length → ns = privNewOffset front map.length (c + u + d) (c + u) →
      ∀ k₁, k₁ = ((({ k with
          map := rotateNodes rot map (x + k.protStartNode o) d ns
          mapSize := ms } : Members).protStartUpdateNode o ns).protFinishUpdateNode o
            (ns + (d - 1))) →
      k.Relocated o k₁ (fun i => Members.rotated (x + k.protStartNode o) d ns (x + i))
          (Members.rotated (x + k.protStartNode o) d ns '' Set.Iio x)
        ∧ (if front then n ≤ k₁.startOff else k₁.finishOff + n < k₁.map.length * o.blockSize)
        ∧ Members.rotated (x + k.protStartNode o) d ns '' Set.Iio x
            ∪ (fun i => Members.rotated (x + k.protStartNode o) d ns (x + i)) '' k.nodes o
          = if front then k₁.span o (k₁.startOff - n) k₁.finishOff
            else k₁.span o k₁.startOff (k₁.finishOff + n) := by
    intro map ms x ns hfits hx hold hnew hroom hns k₁ hk₁
    have hns' : ns + d ≤ map.length := hns ▸ hoff map.length hroom
    subst hd
    have hr := @Members.relocated_rotateNodes _ rot _ _ _ hv hne hres hse ms _ hfits hx hold
      hnew hns'
    rw [← hk₁] at hr
    have hstart := hr.shift hne 0 (by omega)
    have hlen₁ : k₁.map.length = map.length := by
      rw [hk₁, Members.protFinishUpdateNode_map, Members.protStartUpdateNode_map]
      exact Members.length_rotateNodes (by omega) hns'
    rw [show x + (k.protStartNode o + 0) = x + k.protStartNode o + 0 by omega,
      Members.rotated_active (by omega)] at hstart
    refine ⟨hr, hr.room hv hne hblocks hn hu ?_, ?_⟩
    · rw [hr.finishNode_eq hv hne, hlen₁]
      rw [privNewOffset] at hns
      split at hns
      · rename_i h
        rw [if_pos h]
        omega
      · rename_i h
        rw [if_neg h]
        omega
    · have hnodes : (fun i => x + i) '' k.nodes o = Set.Ico x map.length := by
        ext i
        rw [Members.nodes, if_pos hres]
        constructor
        · rintro ⟨j, hj, rfl⟩
          have := Set.mem_Iio.mp hj
          exact ⟨Nat.le_add_right x j, show x + j < _ by omega⟩
        · rintro ⟨h₁, h₂⟩
          exact ⟨i - x, Set.mem_Iio.mpr (by omega), Nat.add_sub_cancel' h₁⟩
      have hall : Set.Iio x ∪ Set.Ico x map.length = Set.Iio map.length :=
        Set.Iio_union_Ico_eq_Iio (by omega)
      rw [← Set.image_image (Members.rotated _ _ _) (fun i => x + i), hnodes, ← Set.image_union,
        hall, Members.image_rotated (by omega) hns', ← hlen₁]
      simp only [Members.span, if_pos hres, ite_self]
  unfold reallocateReservable
  refine object_bind_meets ?_
  rw [hsize]
  dsimp only
  rw [← hc, ← hd, ← hu]
  refine Prog.Meets.ite (fun h => ?_) (fun h => ?_)
  · have hfew : c + u + d ≤ k.map.length := by
      rw [initialMapSize] at hge
      omega
    rw [within_bind (by omega), within_bind (hoff _ hfew)]
    obtain ⟨hr, hroom, hM⟩ := hmoved k.map k.mapSize 0 _ hv.fits (Nat.zero_add _)
      (fun i _ => by rw [Nat.zero_add]) (fun i hi => absurd hi (Nat.not_lt_zero i)) hfew rfl _ rfl
    simp only [Nat.zero_add] at hr hroom hM
    refine Prog.Meets.bind (Prog.Meets.no_throw setObject_meets) (fun _ =>
      Prog.Meets.bind (Prog.Meets.no_throw setObject_meets) (fun _ =>
        Prog.Meets.no_throw (setObject_meets.post (fun _ s hs => ?_))))
    rw [MadeRoom, hs.object_eq]
    refine ⟨hroom, _, _, hr, hM, ?_⟩
    have hnone : Set.Iio 0 = (∅ : Set ℕ) :=
      Set.eq_empty_of_forall_notMem (fun i hi => absurd hi (Nat.not_lt_zero i))
    rw [hnone, Set.image_empty, slotsOf_empty]
    exact OwnsVia_empty.mpr hs
  · obtain ⟨l, hl⟩ : ∃ l, l = max (k.map.length + k.map.length / 2) (c + u + d + 1) := ⟨_, rfl⟩
    rw [← hl]
    refine Prog.Meets.bind (testSizeAgainstNNodes_meets.except (fun _ => NoRoom.of_unchanged))
      (fun _ => Prog.Meets.of_pre (fun hfits => ?_))
    refine Prog.Meets.bind (request_meets.except (fun _ => NoRoom.of_unchanged)) (fun _ => ?_)
    have hrep : (List.replicate l (none : Option ℕ)).length = l := List.length_replicate
    rw [within_bind (by omega)]
    refine Prog.Meets.bind ((protAllocateNodes_meets 0).except (fun _ => NoRoom.of_unchanged))
      (fun nodes => Prog.Meets.of_pre (fun hlen => ?_))
    rw [within_bind (by omega), within_bind (by omega)]
    have hwrite : 0 + nodes.length ≤ (List.replicate l (none : Option ℕ)).length := by omega
    obtain ⟨map₁, hmap₁⟩ : ∃ map₁, map₁ = writeNodes (List.replicate l none) 0 nodes := ⟨_, rfl⟩
    have hlen₁ : map₁.length = l := by rw [hmap₁, length_writeNodes hwrite, hrep]
    have hfrom : 0 + k.map.length ≤ k.map.length := by omega
    have hto : l - k.map.length + k.map.length ≤ map₁.length := by omega
    have hlen₂ := length_moveEntries hfrom hto
    have hadd : ∀ i ∈ Set.Iio (l - k.map.length),
        (moveEntries k.map 0 k.map.length map₁ (l - k.map.length))[i]? = map₁[i]? := by
      intro i hi
      rw [getElem?_moveEntries hfrom hto, if_neg (by have := Set.mem_Iio.mp hi; omega)]
    have hmem : ∀ i ∈ Set.Iio (l - k.map.length), i ∈ Set.Ico 0 (0 + nodes.length) := by
      intro i hi
      have := Set.mem_Iio.mp hi
      exact ⟨by omega, by omega⟩
    have hns : privNewOffset front l (c + u + d) (c + u) + d
        ≤ (moveEntries k.map 0 k.map.length map₁ (l - k.map.length)).length := by
      rw [hlen₂, hlen₁]
      exact hoff l (by omega)
    rw [← hmap₁, within_bind (by omega), within_bind hns]
    obtain ⟨hr, hroom, hM⟩ := hmoved (moveEntries k.map 0 k.map.length map₁ (l - k.map.length))
      (o.stored l) (l - k.map.length) (privNewOffset front l (c + u + d) (c + u))
      (by rwa [hlen₂, hlen₁]) (by omega) (fun i hi => by
        rw [getElem?_moveEntries hfrom hto, if_pos ⟨by omega, by omega⟩, Nat.zero_add,
          Nat.add_sub_cancel_left])
      (fun i hi => by
        rw [hadd i hi, hmap₁]
        exact written_writeNodes hwrite i (hmem i hi))
      (by omega) (by rw [hlen₂, hlen₁]) _ rfl
    refine Prog.Meets.bind (Prog.Meets.no_throw setObject_via) (fun _ =>
      Prog.Meets.bind (Prog.Meets.no_throw setObject_via) (fun _ =>
        Prog.Meets.no_throw (setObject_via.post (fun _ s hs => ?_))))
    rw [MadeRoom, hs.owns.object_eq]
    refine ⟨hroom, _, _, hr, hM, ?_⟩
    have hIio : Set.Ico 0 (0 + (l - k.map.length)) = Set.Iio (l - k.map.length) := by
      rw [Nat.zero_add]
      exact Set.Ico_bot
    rw [hIio] at hs
    have hnode : ∀ i ∈ Set.Iio (l - k.map.length),
        nodeOf (rotateNodes rot (moveEntries k.map 0 k.map.length map₁ (l - k.map.length))
            (l - k.map.length + k.protStartNode o) d (privNewOffset front l (c + u + d) (c + u)))
          (Members.rotated (l - k.map.length + k.protStartNode o) d
            (privNewOffset front l (c + u + d) (c + u)) i)
        = listed 0 nodes i := by
      intro i hi
      rw [nodeOf_congr ((Members.getElem?_rotateNodes (by omega) hns).trans (hadd i hi)), hmap₁]
      exact nodeOf_writeNodes hwrite (hmem i hi)
    have hren := hs.renumber (f := moveBlocks o.blockSize
      (Members.rotated (l - k.map.length + k.protStartNode o) d
        (privNewOffset front l (c + u + d) (c + u))))
      (fun y hy => blockAddr_moveBlocks o.blockSize_pos (hnode _ hy))
    rw [image_moveBlocks o.blockSize_pos, Set.image_empty] at hren
    rwa [Members.protFinishUpdateNode_map, Members.protStartUpdateNode_map]

/-! ## The first map -/

/-- **A deque with its first map**, which has room for `n` elements. -/
structure Members.Initialized (o : Options) (k k' : Members) (n : ℕ) : Prop where
  start_mod : k'.startOff % o.blockSize = 0
  finish_eq : k'.finishOff = k'.startOff + n
  finish_lt : k'.finishOff < k'.map.length * o.blockSize
  length_ge : initialMapSize ≤ k'.map.length
  fits : k'.map.length * o.blockSize ≤ 2 ^ o.storedBits
  single : o.singleEnded = true → k'.startOff = 0
  alloc_eq : k'.alloc = k.alloc
  written : Written k'.map (k'.span o k'.startOff k'.finishOff)
  mapSize_eq : k'.mapSize = o.stored k'.map.length

theorem protInitializeMapAndNodes_meets (hv : k.Valid o) (hsize : k.mapSize = k.map.length)
    (hnull : k.map = []) :
    Prog.Meets (Owns t s₀ S₀ k ∅ ∅) (protInitializeMapAndNodes o e n)
      (fun _ s => k.Initialized o s.object n
        ∧ OwnsVia t s₀ S₀ s.object (addrIn o s.object.map)
          (slotsOf o.blockSize (s.object.span o s.object.startOff s.object.finishOff)) ∅ s)
      (Owns t s₀ S₀ k ∅ ∅) := by
  have hbs := o.blockSize_pos
  unfold protInitializeMapAndNodes
  dsimp only
  obtain ⟨c, hc⟩ : ∃ c, c = n / o.blockSize + 1 := ⟨_, rfl⟩
  rw [← hc]
  obtain ⟨l, hl⟩ : ∃ l, l = max initialMapSize
    (c + if o.reservable = true then 0 else 1 + if o.singleEnded = true then 0 else 1) := ⟨_, rfl⟩
  rw [← hl]
  obtain ⟨x, hx⟩ : ∃ x, x = if o.singleEnded = true then 0 else (l - c) / 2 := ⟨_, rfl⟩
  rw [← hx]
  have hcl : c ≤ l := by omega
  have hxl : x + c ≤ l := by
    rw [hx]
    split <;> omega
  have hge : initialMapSize ≤ l := by omega
  refine Prog.Meets.bind testSizeAgainstNNodes_meets (fun _ => Prog.Meets.of_pre (fun hfits => ?_))
  refine Prog.Meets.bind request_meets (fun _ => ?_)
  refine Prog.Meets.bind (Prog.Meets.no_throw setObject_meets) (fun _ => ?_)
  have hrep : (List.replicate l (none : Option ℕ)).length = l := List.length_replicate
  have hplace : (if o.reservable = true then 0 else x) + (if o.reservable = true then l else c)
      ≤ (List.replicate l (none : Option ℕ)).length := by
    split <;> omega
  rw [within_bind hplace]
  have hnodes := fun b => @protAllocateNodes_meets _ o e t s₀ S₀
    ({ k with map := List.replicate l none, mapSize := o.stored l })
      (if o.reservable = true then l else c) b
  refine Prog.Meets.bind (Prog.Meets.onThrow (hnodes (if o.reservable = true then 0 else x))
    ((setObject_meets).post (fun _ s hs => ?_))) (fun nodes => Prog.Meets.of_pre (fun hlen => ?_))
  · have hk : k = { k with map := [], mapSize := 0 } := by
      rw [hnull] at hsize
      cases k
      simp only [List.length_nil] at hnull hsize
      rw [hnull, hsize]
    rw [hk]
    exact hs
  obtain ⟨b, hb⟩ : ∃ b, b = if o.reservable = true then 0 else x := ⟨_, rfl⟩
  rw [← hb]
  have hwrite : b + nodes.length ≤ (List.replicate l (none : Option ℕ)).length := by
    rw [hrep, hlen, hb]
    split <;> omega
  have hlen₁ : (writeNodes (List.replicate l none) b nodes).length = l :=
    (length_writeNodes hwrite).trans hrep
  have hmul : (x + c) * o.blockSize ≤ l * o.blockSize := Nat.mul_le_mul_right _ hxl
  have hn : n < c * o.blockSize := by
    rw [hc, Nat.mul_comm]
    exact Nat.lt_mul_div_succ n hbs
  rw [Nat.add_mul] at hmul
  have hstart : ∀ k₁ : Members, k₁.startOff = k.startOff →
      k₁.setStartOff o (o.stored (x * o.blockSize)) = { k₁ with startOff := x * o.blockSize } := by
    intro k₁ h₁
    rw [Members.setStartOff]
    split
    · rename_i hse
      rw [hx, if_pos hse, Nat.zero_mul]
      rw [hv.start_eq_zero hnull] at h₁
      cases k₁
      simp only at h₁
      rw [h₁]
    · rw [Members.stored_eq (v := x * o.blockSize) (by omega), Members.stored_eq (by omega)]
  refine Prog.Meets.bind (Prog.Meets.no_throw setObject_via) (fun _ =>
    Prog.Meets.bind (Prog.Meets.no_throw setObject_via) (fun _ =>
      Prog.Meets.no_throw (setObject_via.post (fun _ s hs => ?_))))
  dsimp only at hs
  rw [hstart { k with map := writeNodes (List.replicate l none) b nodes, mapSize := o.stored l }
    rfl]
    at hs
  dsimp only at hs
  rw [Members.stored_eq (v := x * o.blockSize + n) (by omega)] at hs
  have hspan : Set.Ico b (b + nodes.length) = Members.span o
      { k with map := writeNodes (List.replicate l none) b nodes, mapSize := o.stored l
               startOff := x * o.blockSize, finishOff := x * o.blockSize + n }
      (x * o.blockSize) (x * o.blockSize + n) := by
    by_cases hres : o.reservable = true
    · rw [if_pos hres] at hb hlen
      rw [Members.span, if_pos hres, hlen]
      show Set.Ico b (b + l) = Set.Iio (writeNodes _ _ _).length
      rw [hlen₁, hb, Nat.zero_add]
      exact Set.Ico_bot
    · rw [if_neg hres] at hb hlen
      rw [Members.span, if_neg hres, hlen, hb, Nat.mul_div_cancel _ hbs, Nat.mul_comm x,
        Nat.mul_add_div hbs, hc]
      ext i
      simp only [Set.mem_Ico, Set.mem_Icc]
      generalize n / o.blockSize = q
      omega
  rw [hs.owns.object_eq]
  refine ⟨⟨Nat.mul_mod_left _ _, rfl, ?_, ?_, ?_, fun hse => ?_, rfl, ?_,
    congrArg o.stored hlen₁.symm⟩, ?_⟩
  · show x * o.blockSize + n < (writeNodes _ _ _).length * o.blockSize
    rw [hlen₁]
    omega
  · show initialMapSize ≤ (writeNodes _ _ _).length
    rwa [hlen₁]
  · show (writeNodes _ _ _).length * o.blockSize ≤ _
    rwa [hlen₁]
  · show x * o.blockSize = 0
    rw [hx, if_pos hse, Nat.zero_mul]
  · rw [← hspan]
    exact written_writeNodes hwrite
  · rw [← hspan]
    rw [← hlen] at hs
    exact owns_writeNodes hwrite hs

/-! ## What is called to make room -/

/-- A deque that is as it was has room, where its last block has. -/
theorem madeRoom_of_enough (hv : k.Valid o) (hne : k.map ≠ [])
    (hM : k.nodes o = M k) (hs : Owns t s₀ S₀ k ∅ ∅ s) : MadeRoom o t s₀ S₀ k M s := by
  rw [MadeRoom, hs.object_eq]
  refine ⟨id, ∅, hv.relocated hne, ?_, OwnsVia_empty.mpr hs⟩
  rw [Set.image_id, Set.empty_union, hM]

/-- Offsets of one block. -/
theorem add_div_of_mod_add_lt {bs x : ℕ} (h : x % bs + n < bs) : (x + n) / bs = x / bs := by
  have hbs : 0 < bs := by omega
  have h1 := Nat.div_add_mod x bs
  rw [show x + n = bs * (x / bs) + (x % bs + n) by omega, Nat.mul_add_div hbs,
    Nat.div_eq_of_lt h, Nat.add_zero]

/-- **Room at the back.** -/
theorem privReserveElementsAtBack_meets (hv : k.Valid o) (hsize : k.mapSize = k.map.length)
    (hn : 0 < n) :
    Prog.Meets (Owns t s₀ S₀ k ∅ ∅) (privReserveElementsAtBack o rot e n)
      (fun _ s => (s.object.finishOff + n < s.object.map.length * o.blockSize
          ∧ (k.map = [] → s.object.startOff % o.blockSize = 0))
        ∧ MadeRoom o t s₀ S₀ k (fun k' => k'.span o k'.startOff (k'.finishOff + n)) s)
      (NoRoom o t s₀ S₀ k) := by
  have hbs := o.blockSize_pos
  unfold privReserveElementsAtBack
  refine object_bind_meets ?_
  dsimp only
  by_cases hnull : k.map = []
  · have hvac : k.protBackFreeCapacity o = 0 := by
      rw [Members.protBackFreeCapacity, hsize, hnull, List.length_nil, Nat.zero_mul,
        Nat.zero_sub, Nat.zero_sub, if_pos rfl, ite_self]
    rw [hvac, if_pos hn, if_pos hnull]
    refine Prog.Meets.bind ((protInitializeMapAndNodes_meets hv hsize hnull).except
      (fun _ => NoRoom.of_unchanged)) (fun _ => ?_)
    rintro s ⟨hi, hs⟩
    have hset := setObject_via (f := fun k => { k with finishOff := k.startOff }) s hs
    refine hset.imp (fun _ u hu => ?_) (fun _ => False.elim)
    have hfin := hi.finish_eq
    have hlt := hi.finish_lt
    rw [MadeRoom, hu.owns.object_eq]
    have hnone : ∀ i, i ∉ k.nodes o :=
      Set.eq_empty_iff_forall_notMem.mp (Members.nodes_of_null hnull)
    refine ⟨⟨?_, fun _ => hi.start_mod⟩, id, _, ⟨fun i hi' => absurd hi' (hnone i), hi.written,
      fun hne => absurd hnull hne, fun hne => absurd hnull hne, ?_, ?_, hi.length_ge, hi.fits,
      hi.single, hi.alloc_eq, fun i hi' => absurd hi'.1 (hnone i)⟩, ?_, hu⟩
    · show s.object.startOff + n < s.object.map.length * o.blockSize
      omega
    · rw [Members.protSize, hv.null hnull, Nat.zero_sub, Nat.add_zero]
    · show s.object.startOff < s.object.map.length * o.blockSize
      omega
    · rw [Members.nodes_of_null hnull, Set.image_empty, Set.union_empty, hfin]
      rfl
  · have hadd : ∀ {v : ℕ}, n > v → v + (n - v) = n := fun h => Nat.add_sub_cancel' (le_of_lt h)
    rw [if_neg hnull]
    by_cases hres : o.reservable = true
    · have hfin := hv.finish_lt hnull
      have hvac : k.protBackFreeCapacity o = k.map.length * o.blockSize - 1 - k.finishOff := by
        rw [Members.protBackFreeCapacity, if_pos hres, if_neg hnull, hsize]
      rw [if_pos hres]
      refine Prog.Meets.ite (fun h => Prog.Meets.ite (fun hse => ?_) (fun hse => ?_)) (fun h => ?_)
      · exact (reallocateReservableSingleEnded_meets hv hsize hnull hres (by omega)).post
          (fun _ s hs => ⟨⟨hs.1, fun h => absurd h hnull⟩, hs.2⟩)
      · have hse' : o.singleEnded = false := Bool.not_eq_true _ ▸ hse
        refine (reallocateReservable_meets hv hsize hnull hres hse' (n := n) ?_).post
          (fun _ s hs => ⟨⟨hs.1, fun h => absurd h hnull⟩, hs.2⟩)
        rw [if_neg Bool.false_ne_true, hvac]
        omega
      · refine Prog.meets_pure (fun s hs => ⟨⟨?_, fun h => absurd h hnull⟩,
          madeRoom_of_enough hv hnull ?_ hs⟩)
        · rw [hs.object_eq]
          omega
        · rw [Members.nodes, Members.span, if_pos hres, if_pos hres]
    · have hvac : k.protBackFreeCapacity o = o.blockSize - 1 - k.finishOff % o.blockSize := by
        rw [Members.protBackFreeCapacity, if_neg hres, if_neg hnull]
      have hres' : o.reservable = false := Bool.not_eq_true _ ▸ hres
      rw [if_neg hres]
      refine Prog.Meets.ite (fun h => Prog.Meets.ite (fun hse => ?_) (fun hse => ?_)) (fun h => ?_)
      · exact (reallocateSingleEnded_meets hv hsize hnull hres' (hvac ▸ hadd h)
          (Nat.sub_pos_of_lt h)).post (fun _ s hs => ⟨⟨hs.1, fun h => absurd h hnull⟩, hs.2⟩)
      · have hse' : o.singleEnded = false := Bool.not_eq_true _ ▸ hse
        refine (reallocateDoubleEnded_meets hv hsize hnull hres' hse' (n := n) ?_
          (Nat.sub_pos_of_lt h)).post (fun _ s hs => ⟨⟨hs.1, fun h => absurd h hnull⟩, hs.2⟩)
        rw [if_neg Bool.false_ne_true]
        exact hvac ▸ hadd h
      · have hdiv : (k.finishOff + n) / o.blockSize = k.finishOff / o.blockSize :=
          add_div_of_mod_add_lt (by
            have := Nat.mod_lt k.finishOff hbs
            omega)
        refine Prog.meets_pure (fun s hs => ⟨⟨?_, fun h => absurd h hnull⟩,
          madeRoom_of_enough hv hnull ?_ hs⟩)
        · rw [hs.object_eq, ← Nat.div_lt_iff_lt_mul hbs, hdiv]
          exact hv.finishNode_lt hnull
        · rw [k.nodes_eq_Icc hres' hnull, Members.span, if_neg hres, hdiv]
          rfl

/-- **Room at the front.** -/
theorem privReserveElementsAtFront_meets (hv : k.Valid o) (hsize : k.mapSize = k.map.length)
    (hse : o.singleEnded = false) (hn : 0 < n) :
    Prog.Meets (Owns t s₀ S₀ k ∅ ∅) (privReserveElementsAtFront o rot e n)
      (fun _ s => (n ≤ s.object.startOff
          ∧ (k.map = [] → (s.object.startOff - n) % o.blockSize = 0))
        ∧ MadeRoom o t s₀ S₀ k (fun k' => k'.span o (k'.startOff - n) k'.finishOff) s)
      (NoRoom o t s₀ S₀ k) := by
  have hbs := o.blockSize_pos
  unfold privReserveElementsAtFront
  refine object_bind_meets ?_
  dsimp only
  by_cases hnull : k.map = []
  · have hvac : k.protFrontFreeCapacity o = 0 := by
      rw [Members.protFrontFreeCapacity, hv.start_eq_zero hnull, Nat.zero_mod, ite_self]
    rw [hvac, if_pos hn, if_pos hnull]
    refine Prog.Meets.bind ((protInitializeMapAndNodes_meets hv hsize hnull).except
      (fun _ => NoRoom.of_unchanged)) (fun _ => ?_)
    rintro s ⟨hi, hs⟩
    have hset := setObject_via (f := fun k => k.setStartOff o k.finishOff) s hs
    refine hset.imp (fun _ u hu => ?_) (fun _ => False.elim)
    have hfin := hi.finish_eq
    have hlt := hi.finish_lt
    have hfits := hi.fits
    have hnew : s.object.setStartOff o s.object.finishOff
        = { s.object with startOff := s.object.finishOff } := by
      rw [Members.setStartOff, if_neg (by rw [hse]; exact Bool.false_ne_true),
        Members.stored_eq (by omega)]
    rw [hnew] at hu
    rw [MadeRoom, hu.owns.object_eq]
    have hnone : ∀ i, i ∉ k.nodes o :=
      Set.eq_empty_iff_forall_notMem.mp (Members.nodes_of_null hnull)
    refine ⟨⟨?_, fun _ => ?_⟩, id, _, ⟨fun i hi' => absurd hi' (hnone i), hi.written,
      fun hne => absurd hnull hne, fun hne => absurd hnull hne, ?_, hlt, hi.length_ge, hi.fits,
      fun h => ?_, hi.alloc_eq, fun i hi' => absurd hi'.1 (hnone i)⟩, ?_, hu⟩
    · show n ≤ s.object.finishOff
      omega
    · show (s.object.finishOff - n) % _ = 0
      rw [hfin, Nat.add_sub_cancel]
      exact hi.start_mod
    · rw [Members.protSize, hv.null hnull, Nat.zero_sub, Nat.add_zero]
    · rw [hse] at h
      exact absurd h Bool.false_ne_true
    · rw [Members.nodes_of_null hnull, Set.image_empty, Set.union_empty]
      show _ = Members.span o _ (s.object.finishOff - n) s.object.finishOff
      rw [hfin, Nat.add_sub_cancel]
      rfl
  · rw [if_neg hnull]
    by_cases hres : o.reservable = true
    · have hvac : k.protFrontFreeCapacity o = k.startOff := by
        rw [Members.protFrontFreeCapacity, if_pos hres]
      rw [if_pos hres]
      refine Prog.Meets.ite (fun h => ?_) (fun h => ?_)
      · refine (reallocateReservable_meets hv hsize hnull hres hse (n := n) ?_).post
          (fun _ s hs => ⟨⟨hs.1, fun h => absurd h hnull⟩, hs.2⟩)
        rw [if_pos rfl, hvac]
        omega
      · refine Prog.meets_pure (fun s hs => ⟨⟨?_, fun h => absurd h hnull⟩,
          madeRoom_of_enough hv hnull ?_ hs⟩)
        · rw [hs.object_eq]
          omega
        · rw [Members.nodes, Members.span, if_pos hres, if_pos hres]
    · have hvac : k.protFrontFreeCapacity o = k.startOff % o.blockSize := by
        rw [Members.protFrontFreeCapacity, if_neg hres]
      have hres' : o.reservable = false := Bool.not_eq_true _ ▸ hres
      rw [if_neg hres]
      refine Prog.Meets.ite (fun h => ?_) (fun h => ?_)
      · refine (reallocateDoubleEnded_meets hv hsize hnull hres' hse (n := n) ?_
          (Nat.sub_pos_of_lt h)).post (fun _ s hs => ⟨⟨hs.1, fun h => absurd h hnull⟩, hs.2⟩)
        rw [if_pos rfl, hvac]
        omega
      · have hle : n ≤ k.startOff := by
          have := Nat.mod_le k.startOff o.blockSize
          omega
        have hmod : (k.startOff - n) % o.blockSize + n < o.blockSize := by
          have h1 := Nat.div_add_mod k.startOff o.blockSize
          have h2 := Nat.mod_lt k.startOff hbs
          rw [show k.startOff - n = o.blockSize * (k.startOff / o.blockSize)
            + (k.startOff % o.blockSize - n) by omega, Nat.mul_add_mod,
            Nat.mod_eq_of_lt (by omega)]
          omega
        have hdiv := add_div_of_mod_add_lt hmod
        rw [Nat.sub_add_cancel hle] at hdiv
        refine Prog.meets_pure (fun s hs => ⟨⟨?_, fun h => absurd h hnull⟩,
          madeRoom_of_enough hv hnull ?_ hs⟩)
        · rw [hs.object_eq]
          exact hle
        · rw [k.nodes_eq_Icc hres' hnull, Members.span, if_neg hres, ← hdiv]
          rfl

/-! ## No elements are touched -/

theorem calm_within : Calm (within map a n : Prog (State Members α) Unit) :=
  (calm_pure ()).ite (fun _ => trivial)

theorem calm_withinBefore : Calm (withinBefore map b n : Prog (State Members α) Unit) :=
  (calm_pure ()).ite (fun _ => trivial)

theorem calm_testSizeAgainstNNodes {c : ℕ} :
    Calm (testSizeAgainstNNodes o c : Prog (State Members α) Unit) :=
  calm_throw.ite (calm_pure ())

theorem calm_protAllocateNodes :
    Calm (protAllocateNodes o e n : Prog (State Members α) (List ℕ)) := by
  have hloop : ∀ nodes, Calm (protAllocateNodesLoop o e nodes n) := by
    induction n with
    | zero => exact fun nodes => calm_pure nodes
    | succ n ih =>
      exact fun nodes => ((calm_object.bind (fun _ => calm_allocate)).onThrow).bind (fun p => ih _)
  exact hloop []

theorem calm_protInitializeMapAndNodes : Calm (protInitializeMapAndNodes o e n) :=
  calm_testSizeAgainstNNodes.bind fun _ => calm_request.bind fun _ => calm_setObject.bind fun _ =>
    calm_within.bind fun _ => calm_protAllocateNodes.onThrow.bind fun _ =>
      calm_setObject.bind fun _ => calm_setObject.bind fun _ => calm_setObject

theorem calm_reallocateReservableSingleEnded : Calm (reallocateReservableSingleEnded o e n) :=
  calm_object.bind fun _ => calm_testSizeAgainstNNodes.bind fun _ => calm_request.bind fun _ =>
    calm_within.bind fun _ => calm_protAllocateNodes.bind fun _ => calm_within.bind fun _ =>
      calm_within.bind fun _ => calm_setObject

/-- New nodes are allocated and written. -/
theorem calm_allocateNodes_write {pos : Members → ℕ} : Calm (do
    let nodes ← protAllocateNodes o e n
    setObject fun k => { k with map := writeNodes k.map (pos k) nodes } :
      Prog (State Members α) Unit) :=
  calm_protAllocateNodes.bind fun _ => calm_setObject

theorem calm_reallocateSingleEnded : Calm (reallocateSingleEnded o e n) := by
  have hwrite : Calm (do
      let k ← object
      within k.map (k.protFinishNode o + 1) ((n - 1) / o.blockSize + 1)
      let nodes ← protAllocateNodes o e ((n - 1) / o.blockSize + 1)
      setObject fun k => { k with map := writeNodes k.map (k.protFinishNode o + 1) nodes } :
        Prog (State Members α) Unit) :=
    calm_object.bind fun _ => calm_within.bind fun _ => calm_allocateNodes_write
  exact calm_object.bind fun _ => (calm_testSizeAgainstNNodes.bind fun _ =>
    calm_request.bind fun _ => calm_within.bind fun _ => calm_within.bind fun _ =>
      calm_setObject.bind fun _ => hwrite).ite hwrite

theorem calm_reallocateReservable {front : Bool} :
    Calm (reallocateReservable o rot e n front) := by
  have hrotate : ∀ (map : List (Option ℕ)) (a b d : ℕ) (f g h : Members → Members), Calm (do
      within map a d
      within map b d
      setObject f
      setObject g
      setObject h : Prog (State Members α) Unit) :=
    fun _ _ _ _ _ _ _ => calm_within.bind fun _ => calm_within.bind fun _ =>
      calm_setObject.bind fun _ => calm_setObject.bind fun _ => calm_setObject
  exact calm_object.bind fun _ => (hrotate _ _ _ _ _ _ _).ite
    (calm_testSizeAgainstNNodes.bind fun _ => calm_request.bind fun _ => calm_within.bind fun _ =>
      calm_protAllocateNodes.bind fun _ => calm_within.bind fun _ => calm_within.bind fun _ =>
        hrotate _ _ _ _ _ _ _)

theorem calm_reallocateDoubleEnded {front : Bool} : Calm (reallocateDoubleEnded o e n front) := by
  have hwrite : Calm (do
      let k ← object
      if front = true then
        withinBefore k.map (k.protStartNode o) ((n - 1) / o.blockSize + 1)
        let nodes ← protAllocateNodes o e ((n - 1) / o.blockSize + 1)
        setObject fun k =>
          { k with map := writeNodes k.map (k.protStartNode o - ((n - 1) / o.blockSize + 1)) nodes }
      else
        within k.map (k.protFinishNode o + 1) ((n - 1) / o.blockSize + 1)
        let nodes ← protAllocateNodes o e ((n - 1) / o.blockSize + 1)
        setObject fun k => { k with map := writeNodes k.map (k.protFinishNode o + 1) nodes } :
          Prog (State Members α) Unit) :=
    calm_object.bind fun _ => (calm_withinBefore.bind fun _ => calm_allocateNodes_write).ite
      (calm_within.bind fun _ => calm_allocateNodes_write)
  have hmove : ∀ (map map' : List (Option ℕ)) (a b d : ℕ) (f g h : Members → Members)
      (c : Prog (State Members α) Unit), Calm c → Calm (do
        within map a d
        within map' b d
        setObject f
        setObject g
        setObject h
        c) :=
    fun _ _ _ _ _ _ _ _ _ hc => calm_within.bind fun _ => calm_within.bind fun _ =>
      calm_setObject.bind fun _ => calm_setObject.bind fun _ => calm_setObject.bind fun _ => hc
  exact calm_object.bind fun _ => ((hmove _ _ _ _ _ _ _ _ _ hwrite).ite
    (calm_testSizeAgainstNNodes.bind fun _ => calm_request.bind fun _ =>
      hmove _ _ _ _ _ _ _ _ _ hwrite)).ite hwrite

theorem calm_privReserveElementsAtBack : Calm (privReserveElementsAtBack o rot e n) :=
  calm_object.bind fun _ => ((calm_protInitializeMapAndNodes.bind fun _ => calm_setObject).ite
    ((calm_reallocateReservableSingleEnded.ite calm_reallocateReservable).ite
      (calm_reallocateSingleEnded.ite calm_reallocateDoubleEnded))).ite (calm_pure ())

theorem calm_privReserveElementsAtFront : Calm (privReserveElementsAtFront o rot e n) :=
  calm_object.bind fun _ => ((calm_protInitializeMapAndNodes.bind fun _ => calm_setObject).ite
    (calm_reallocateReservable.ite calm_reallocateDoubleEnded)).ite (calm_pure ())

end DequeImpl
