import BoostContainer.Deque.DequeEnds
import BoostContainer.Deque.DequeMoves

/-!
# Construction of a deque from another

The constructors that copy the elements of a deque, or move them one by one. If
one of them throws, the new deque never comes into being, and the old one is
there as before: this is what is stated here, and when it is so.

Both deques are in one memory, with numbers of their own: the slots of the new
one have their offsets, and those of the old one come after all of these.
-/

open Slots

namespace DequeImpl

variable {α : Type*} {o : Options} {e : Env α} {t : Bool} {s₀ s s₁ s' : State Members α}
  {S₀ own live : Set ℕ} {k x : Members} {map : List (Option ℕ)} {N : Set ℕ} {addr : ℕ → ℕ}
  {a b first dest n start finish q : ℕ} {l : List (Source α)}
  {sources : ℕ → ℕ → List (Source α)}

/-! ## Where nothing is constructed -/

theorem keeps_nodeIn {δ : Type*} {f : State Members α → δ} {β : Type} {i : ℕ}
    {c : ℕ → Prog (State Members α) β} (hc : ∀ p, Prog.Keeps f (c p)) :
    Prog.Keeps f (nodeIn map i >>= c) := by
  rw [nodeIn]
  split
  · exact hc _
  · exact fun _ => trivial

theorem keeps_elementIn {δ : Type*} {f : State Members α → δ} {β : Type} {off : ℕ}
    {c : ℕ → Prog (State Members α) β} (hc : ∀ p, Prog.Keeps f (c p)) :
    Prog.Keeps f (elementIn o map off >>= c) := by
  rw [elementIn, nodeIn]
  split
  · exact hc _
  · exact fun _ => trivial

theorem keeps_protDestroySegment {p i j : ℕ} : Prog.Keeps State.constructed
    (protDestroySegment e p i j : Prog (State Members α) Unit) :=
  (Prog.keeps_pure ()).ite (keeps_constructed_destroyN.ite Prog.keeps_undefined)

theorem keeps_destroyNodes :
    Prog.Keeps State.constructed (destroyNodes o e map a n : Prog (State Members α) Unit) := by
  induction n generalizing a with
  | zero => exact Prog.keeps_pure ()
  | succ n ih => exact keeps_nodeIn (fun p => keeps_protDestroySegment.bind (fun _ => ih))

theorem keeps_protDestroyRange : Prog.Keeps State.constructed
    (protDestroyRange o e map start finish : Prog (State Members α) Unit) :=
  (Prog.keeps_pure ()).ite (keeps_destroyNodes.bind fun _ =>
    (keeps_nodeIn fun _ => keeps_protDestroySegment.bind fun _ =>
      keeps_nodeIn fun _ => keeps_protDestroySegment).ite
    (keeps_nodeIn fun _ => keeps_protDestroySegment))

theorem keeps_destroyOffsets :
    Prog.Keeps State.constructed (destroyOffsets o e map a n : Prog (State Members α) Unit) := by
  induction n generalizing a with
  | zero => exact Prog.keeps_pure ()
  | succ n ih => exact keeps_elementIn (fun p => keeps_constructed_destroy.bind (fun _ => ih))

/-- An iterator constructs where it points to. -/
theorem keeps_uninitializedTo (hw : Written map N)
    (hN : Set.Ico dest (dest + l.length) ⊆ slotsOf o.blockSize N)
    (hq : q ∉ addrIn o map '' Set.Ico dest (dest + l.length)) :
    Prog.Keeps (fun s => s.constructed q) (uninitializedTo o e map dest l) := by
  have hall : ∀ (l : List (Source α)) (back dest : ℕ),
      Set.Ico dest (dest + l.length) ⊆ slotsOf o.blockSize N →
      q ∉ addrIn o map '' Set.Ico dest (dest + l.length) →
      Prog.Keeps (fun s => s.constructed q) (uninitializedToLoop o e map back dest l) := by
    intro l
    induction l with
    | nil => exact fun _ _ _ _ => Prog.keeps_pure ()
    | cons src l ih =>
      intro back dest hN hq
      have hlen : dest + (src :: l).length = dest + 1 + l.length := by
        rw [List.length_cons]
        omega
      rw [hlen] at hN hq
      have hmem : dest ∈ Set.Ico dest (dest + 1 + l.length) := ⟨le_rfl, by omega⟩
      have hsub : Set.Ico (dest + 1) (dest + 1 + l.length) ⊆ Set.Ico dest (dest + 1 + l.length) :=
        Set.Ico_subset_Ico (by omega) le_rfl
      rw [uninitializedToLoop, elementIn_bind hw (hN hmem)]
      refine Prog.Keeps.bind (Prog.Keeps.onThrow (keeps_constructed_construct ?_)
        (keeps_destroyOffsets.comp fun c => c q)) (fun _ => ih _ _ (hsub.trans hN)
          (fun h => hq (Set.image_mono hsub h)))
      rintro rfl
      exact hq (Set.mem_image_of_mem _ hmem)
  exact hall l dest dest hN hq

/-- Elements are constructed in the range they are meant for. -/
theorem Transfer.keeps {src : List (Option ℕ)} {d : ℕ}
    (h : Transfer o src map addr d first dest n own live) (hs : ReadsRange sources)
    (hq : q ∉ addrIn o map '' Set.Ico dest (dest + n)) :
    Prog.Keeps (fun s => s.constructed q)
      (privSegmentedUninitializedAllocN o e sources src first n map dest) := by
  refine keeps_forSegmentsN (fun m c hc => Prog.Keeps.onThrow (keeps_elementIn (fun p => ?_))
    (keeps_protDestroyRange.comp fun c => c q))
  have hsub : Set.Ico (dest + (first + m - first))
      (dest + (first + m - first) + (sources p c).length) ⊆ Set.Ico dest (dest + n) := by
    rw [hs.length_eq]
    exact Set.Ico_subset_Ico (by omega) (by omega)
  exact keeps_uninitializedTo h.dest_written (hsub.trans (Ico_subset_slotsOf subset_rfl))
    (fun h => hq (Set.image_mono hsub h))

theorem keeps_deallocateAll {nodes : List ℕ} :
    Prog.Keeps State.constructed (deallocateAll o nodes : Prog (State Members α) Unit) := by
  induction nodes with
  | nil => exact Prog.keeps_pure ()
  | cons p ps ih => exact keeps_constructed_deallocate.bind (fun _ => ih)

theorem keeps_protAllocateNodes : Prog.Keeps State.constructed
    (protAllocateNodes o e n : Prog (State Members α) (List ℕ)) := by
  have hloop : ∀ nodes, Prog.Keeps State.constructed (protAllocateNodesLoop o e nodes n) := by
    induction n with
    | zero => exact fun nodes => Prog.keeps_pure nodes
    | succ n ih =>
      exact fun nodes => (((Prog.keeps_gets _).bind fun _ => keeps_constructed_allocate).onThrow
        keeps_deallocateAll).bind (fun p => ih _)
  exact hloop []

theorem keeps_within : Prog.Keeps State.constructed
    (within map a n : Prog (State Members α) Unit) :=
  (Prog.keeps_pure ()).ite Prog.keeps_undefined

theorem keeps_protInitializeMapAndNodes :
    Prog.Keeps State.constructed (protInitializeMapAndNodes o e n) :=
  (Prog.keeps_throw.ite (Prog.keeps_pure ())).bind fun _ => keeps_constructed_request.bind fun _ =>
    keeps_constructed_setObject.bind fun _ => keeps_within.bind fun _ =>
      (keeps_protAllocateNodes.onThrow keeps_constructed_setObject).bind fun _ =>
        keeps_constructed_setObject.bind fun _ => keeps_constructed_setObject.bind fun _ =>
          keeps_constructed_setObject

theorem keeps_protDeallocateNodesLoop : Prog.Keeps State.constructed
    (protDeallocateNodesLoop o map a n : Prog (State Members α) Unit) := by
  induction n generalizing a with
  | zero => exact Prog.keeps_pure ()
  | succ n ih => exact keeps_nodeIn (fun p => keeps_constructed_deallocate.bind (fun _ => ih))

theorem keeps_destroyBase :
    Prog.Keeps State.constructed (destroyBase o : Prog (State Members α) Unit) :=
  (Prog.keeps_gets _).bind fun _ => (Prog.keeps_pure ()).ite ((Prog.keeps_gets _).bind fun _ =>
    ((Prog.keeps_gets _).bind fun _ => keeps_protDeallocateNodesLoop).ite
      ((Prog.keeps_gets _).bind fun _ => keeps_protDeallocateNodesLoop))

/-! ## The destructor of `deque_base` -/

/-- Nodes are deallocated whose slots have these addresses as others. -/
theorem protDeallocateNodesLoop_via (hw : Written map (Set.Ico a (a + n)))
    (haddr : ∀ y ∈ slotsOf o.blockSize (Set.Ico a (a + n)), addr y = addrIn o map y)
    (hin : slotsOf o.blockSize (Set.Ico a (a + n)) ⊆ own)
    (hl : Disjoint live (slotsOf o.blockSize (Set.Ico a (a + n)))) :
    Prog.Meets (OwnsVia t s₀ S₀ k addr own live) (protDeallocateNodesLoop o map a n)
      (fun _ => OwnsVia t s₀ S₀ k addr (own \ slotsOf o.blockSize (Set.Ico a (a + n))) live)
      (fun _ => False) := by
  intro s hs
  have hnone : live ∩ slotsOf o.blockSize (Set.Ico a (a + n)) = ∅ := hl.inter_eq
  have hsmall := (hs.restrict hin).readdress (fun y hy => (haddr y hy).symm)
  rw [hnone] at hsmall
  refine (protDeallocateNodesLoop_meets hw subset_rfl (Set.empty_disjoint _) s hsmall).imp
    (fun _ u hu => ?_) (fun _ => id)
  rw [Set.sdiff_self] at hu
  obtain ⟨howns, -, -⟩ := hs.frame hin (hu.readdress (fun y hy => hy.elim))
  exact howns.congr (Set.empty_union _) (by rw [Set.empty_union, hl.sdiff_eq_left])

/-- The nodes that the destructor frees. -/
def Members.freed (o : Options) (k : Members) : Set ℕ :=
  if o.reservable then Set.Ico 0 k.mapSize
  else Set.Ico (k.protStartNode o) (k.protFinishNode o + 1)

theorem destroyBase_via (hne : k.map ≠ []) (hw : Written k.map (k.freed o))
    (haddr : ∀ y ∈ slotsOf o.blockSize (k.freed o), addr y = addrIn o k.map y)
    (hin : slotsOf o.blockSize (k.freed o) ⊆ own)
    (hl : Disjoint live (slotsOf o.blockSize (k.freed o))) :
    Prog.Meets (OwnsVia t s₀ S₀ k addr own live) (destroyBase o)
      (fun _ => OwnsVia t s₀ S₀ k addr (own \ slotsOf o.blockSize (k.freed o)) live)
      (fun _ => False) := by
  refine object_bind_via ?_
  rw [if_neg hne]
  refine object_bind_via ?_
  have hloop : ∀ a b, a ≤ b → k.freed o = Set.Ico a b →
      Prog.Meets (OwnsVia t s₀ S₀ k addr own live) (protDeallocateNodes o a b)
        (fun _ => OwnsVia t s₀ S₀ k addr (own \ slotsOf o.blockSize (k.freed o)) live)
        (fun _ => False) := by
    intro a b hab hf
    have hsub : Set.Ico a (a + (b - a)) = k.freed o := by
      rw [Nat.add_sub_cancel' hab, hf]
    have h := @protDeallocateNodesLoop_via _ o t s₀ S₀ own live k k.map addr a (b - a)
    rw [hsub] at h
    exact object_bind_via (h hw haddr hin hl)
  refine Prog.Meets.ite (fun hres => hloop 0 k.mapSize (Nat.zero_le _) ?_) (fun hres => ?_)
  · rw [Members.freed, if_pos hres]
  · rcases Nat.lt_or_ge (k.protFinishNode o + 1) (k.protStartNode o) with h | h
    · have hempty : k.freed o = ∅ := by
        rw [Members.freed, if_neg hres]
        exact Set.Ico_eq_empty (by omega)
      rw [hempty, slotsOf_empty, Set.sdiff_empty]
      refine object_bind_via ?_
      rw [Nat.sub_eq_zero_of_le h.le]
      exact Prog.meets_pure (fun _ hs => hs)
    · refine hloop _ _ h ?_
      rw [Members.freed, if_neg hres]

/-- What is not alive does not come back when nodes are freed. -/
theorem destroyBase_permits (s : State Members α) : (destroyBase o s).Permits
    (fun _ u => ∀ q, shape s.heap q ≠ some true → shape u.heap q ≠ some true) (fun _ => True) := by
  have hloop : ∀ (n a : ℕ) (map : List (Option ℕ)) (s : State Members α),
      (protDeallocateNodesLoop o map a n s).Permits
        (fun _ u => ∀ q, shape s.heap q ≠ some true → shape u.heap q ≠ some true)
        (fun _ => True) := by
    intro n
    induction n with
    | zero => exact fun _ _ _ q hq => hq
    | succ n ih =>
      intro a map s
      rw [protDeallocateNodesLoop, nodeIn]
      split
      · rename_i p _
        by_cases hall : ∀ i < o.blockSize, (s.heap (p + i)).isSome
        · have hrun : protDeallocateNode o p s
              = .done () { s with heap := setRange s.heap p o.blockSize none } := if_pos hall
          rw [Prog.pure_bind, Prog.bind_of_done hrun]
          refine (ih (a + 1) map _).imp (fun _ u hu q hq => hu q ?_) (fun _ => id)
          by_cases hqp : q ∈ Set.Ico p (p + o.blockSize)
          · rw [shape_setRange hqp]
            exact fun h => Option.some_ne_none _ h.symm
          · rw [shape_setRange_of_notMem hqp]
            exact hq
        · have hrun : protDeallocateNode o p s = .undefined := if_neg hall
          rw [Prog.pure_bind, Prog.bind_of_undefined hrun]
          trivial
      · trivial
  show ((if s.object.map = [] then pure () else protDeallocateAllNodes o
    : Prog (State Members α) Unit) s).Permits _ _
  split
  · exact fun q hq => hq
  · show ((if o.reservable then protDeallocateNodes o 0 s.object.mapSize else
      protDeallocateNodes o (s.object.protStartNode o) (s.object.protFinishNode o + 1)
        : Prog (State Members α) Unit) s).Permits _ _
    split
    · exact hloop _ _ _ s
    · exact hloop _ _ _ s

/-! ## The source of a construction -/

/-- **A deque that is to be copied or moved from**, and nothing yet to take its
elements. -/
structure Beside (o : Options) (t : Bool) (x : Members) (s : State Members α) : Prop where
  null : s.object = Members.null s.object.alloc
  valid : x.Valid o
  owns : OwnsVia t s (addrIn o x.map '' x.slots o) s.object (addrIn o x.map) (x.slots o)
    x.elements s

/-- **The source is unharmed**: its elements live, and none of them was destroyed.
What was constructed elsewhere was destroyed, as often as it was constructed. -/
structure Unharmed (o : Options) (t : Bool) (x : Members) (s s' : State Members α) : Prop where
  live : ∀ y ∈ x.elements, shape s'.heap (addrIn o x.map y) = some true
  undestroyed : t = false → ∀ y ∈ x.elements,
    s'.destroyed (addrIn o x.map y) = s.destroyed (addrIn o x.map y)
  destroyed_eq : t = false → ∀ q, q ∉ addrIn o x.map '' x.elements →
    s'.constructed q + s.destroyed q = s.constructed q + s'.destroyed q

theorem Members.valid_null {a : ℕ} : (Members.null a).Valid o := by
  refine ⟨le_rfl, fun h => absurd rfl h, fun _ => rfl, fun h => absurd rfl h, ?_, fun _ => rfl, ?_⟩
  · show 0 * o.blockSize ≤ _
    rw [Nat.zero_mul]
    exact Nat.zero_le _
  · rw [Members.nodes_of_null rfl]
    exact fun i hi => hi.elim

/-- **Two deques by number**: the slots of the second come after those of the
first. -/
def addrBoth (o : Options) (k x : Members) (y : ℕ) : ℕ :=
  if y < k.map.length * o.blockSize then addrIn o k.map y
  else addrIn o x.map (y - k.map.length * o.blockSize)

theorem addrBoth_left {y : ℕ} (h : y < k.map.length * o.blockSize) :
    addrBoth o k x y = addrIn o k.map y := if_pos h

theorem addrBoth_right (y : ℕ) :
    addrBoth o k x (k.map.length * o.blockSize + y) = addrIn o x.map y := by
  rw [addrBoth, if_neg (by omega), Nat.add_sub_cancel_left]

/-- **Both deques**, once the new one has its nodes. -/
structure Paired (o : Options) (t : Bool) (x : Members) (s s₁ : State Members α) : Prop where
  init : s.object.Initialized o s₁.object x.protSize
  owns : OwnsVia t s (addrIn o x.map '' x.slots o) s₁.object (addrBoth o s₁.object x)
    (slotsOf o.blockSize (s₁.object.span o s₁.object.startOff s₁.object.finishOff)
      ∪ (fun y => s₁.object.map.length * o.blockSize + y) '' x.slots o)
    ((fun y => s₁.object.map.length * o.blockSize + y) '' x.elements) s₁
  ops_eq : s₁.ops = s.ops
  constructed_eq : s₁.constructed = s.constructed

/-- The nodes of the new deque are in its map. -/
theorem Members.Initialized.lt_length (h : k.Initialized o s₁.object n) {y : ℕ}
    (hy : y ∈ slotsOf o.blockSize (s₁.object.span o s₁.object.startOff s₁.object.finishOff)) :
    y < s₁.object.map.length * o.blockSize := by
  have hlt : y / o.blockSize < s₁.object.map.length := h.written.lt_length hy
  exact (Nat.div_lt_iff_lt_mul o.blockSize_pos).mp hlt

theorem Beside.paired (hx : Beside o t x s)
    (hroom : protInitializeMapAndNodes o e x.protSize s = .done () s₁) : Paired o t x s s₁ := by
  have hnull : s.object.map = [] := by
    rw [hx.null]
    rfl
  have hsize : s.object.mapSize = s.object.map.length := by
    rw [hx.null]
    rfl
  have hvalid : s.object.Valid o := by
    rw [hx.null]
    exact Members.valid_null
  have hempty : Owns t s ∅ s.object ∅ ∅ s :=
    ⟨rfl, Heap.Exchange.refl _ _, subset_rfl, fun _ h => h.elim, fun _ h => h.elim,
      fun _ _ h => h.elim, fun _ _ => rfl⟩
  have h := protInitializeMapAndNodes_meets (e := e) (n := x.protSize) hvalid hsize hnull s hempty
  have hops := calm_protInitializeMapAndNodes (o := o) (e := e) (n := x.protSize) s
  have hcon := keeps_protInitializeMapAndNodes (o := o) (e := e) (n := x.protSize) s
  rw [hroom] at h hops hcon
  obtain ⟨hinit, hnew⟩ := h
  have hnew' := @OwnsVia.readdress _ _ _ _ _ _ _ _ _ (addrBoth o s₁.object x) _ hnew
    (fun y hy => addrBoth_left (hinit.lt_length hy))
  have hnew'' : OwnsVia t s (addrIn o x.map '' ∅) s₁.object (addrBoth o s₁.object x)
      (slotsOf o.blockSize (s₁.object.span o s₁.object.startOff s₁.object.finishOff)) ∅ s₁ := by
    rwa [Set.image_empty]
  obtain ⟨howns, -, -⟩ := hx.owns.frame_renumber
    (f := fun y => s₁.object.map.length * o.blockSize + y) (Set.empty_subset _) hnew''
    (fun y _ => addrBoth_right y)
  rw [Set.sdiff_empty, Set.sdiff_empty, Set.empty_union] at howns
  exact ⟨hinit, howns, hops, hcon⟩

namespace Paired

theorem transfer (h : Paired o t x s s₁) (hv : x.Valid o) (hsize : 0 < x.protSize) :
    Transfer o x.map s₁.object.map (addrBoth o s₁.object x) (s₁.object.map.length * o.blockSize)
      x.startOff s₁.object.startOff x.protSize
      (slotsOf o.blockSize (s₁.object.span o s₁.object.startOff s₁.object.finishOff)
        ∪ (fun y => s₁.object.map.length * o.blockSize + y) '' x.slots o)
      ((fun y => s₁.object.map.length * o.blockSize + y) '' x.elements) := by
  have hne : x.map ≠ [] := by
    intro h0
    rw [Members.protSize, hv.null h0, Nat.zero_sub] at hsize
    exact absurd hsize (lt_irrefl 0)
  have hfin := hv.finish_eq
  have hnode : Set.Icc (s₁.object.startOff / o.blockSize)
      ((s₁.object.startOff + x.protSize) / o.blockSize)
      ⊆ s₁.object.span o s₁.object.startOff s₁.object.finishOff := by
    rw [← h.init.finish_eq, Members.span]
    split
    · exact fun i hi => lt_of_le_of_lt hi.2
        ((Nat.div_lt_iff_lt_mul o.blockSize_pos).mpr h.init.finish_lt)
    · exact subset_rfl
  have hdest : Set.Ico s₁.object.startOff (s₁.object.startOff + x.protSize) ⊆ slotsOf o.blockSize
      (s₁.object.span o s₁.object.startOff s₁.object.finishOff) := Ico_subset_slotsOf hnode
  refine ⟨fun i hi => ?_, fun y _ => addrBoth_right y, ?_, h.init.written.mono hnode,
    fun y hy => addrBoth_left (h.init.lt_length (hdest hy)),
    hdest.trans Set.subset_union_left, ?_⟩
  · rw [← hfin] at hi
    exact hv.written i (hv.mem_nodes hne hi.1 hi.2)
  · rw [← hfin, ← image_add_Ico]
    exact subset_rfl
  · refine Set.disjoint_left.mpr ?_
    rintro _ ⟨y, -, rfl⟩ hy
    have hlt := h.init.lt_length (hdest hy)
    exact absurd hlt (Nat.not_lt.mpr (Nat.le_add_right _ _))

/-- The nodes that the destructor frees are nodes of the new deque. -/
theorem freed_subset (h : Paired o t x s s₁) :
    s₁.object.freed o ⊆ s₁.object.span o s₁.object.startOff s₁.object.finishOff := by
  rw [Members.freed, Members.span]
  split
  · intro i hi
    refine lt_of_lt_of_le hi.2 ?_
    rw [h.init.mapSize_eq]
    exact Nat.mod_le _ _
  · exact fun i hi => ⟨hi.1, Nat.lt_succ_iff.mp hi.2⟩

/-- **What the destructor leaves** of the elements of the old deque. -/
theorem unharmed (hx : Beside o t x s) (h : Paired o t x s s₁)
    (hown : OwnsVia t s (addrIn o x.map '' x.slots o) k (addrBoth o s₁.object x) own
      ((fun y => s₁.object.map.length * o.blockSize + y) '' x.elements) s')
    (hcon : ∀ y ∈ x.elements, s'.constructed (addrIn o x.map y)
      = s₁.constructed (addrIn o x.map y)) : Unharmed o t x s s' := by
  have himage : addrBoth o s₁.object x
      '' ((fun y => s₁.object.map.length * o.blockSize + y) '' x.elements)
      = addrIn o x.map '' x.elements := by
    rw [Set.image_image]
    exact Set.image_congr (fun y _ => addrBoth_right y)
  have howns := hown.owns
  rw [himage] at howns
  have heq : t = false → ∀ q,
      s'.constructed q + s.destroyed q = s.constructed q + s'.destroyed q := by
    intro ht q
    have halive := alive_eq hx.owns.owns howns ht rfl q
    have hledger := howns.ledger ht q
    omega
  refine ⟨fun y hy => howns.full _ (Set.mem_image_of_mem _ hy), fun ht y hy => ?_,
    fun ht q _ => heq ht q⟩
  have h1 := heq ht (addrIn o x.map y)
  have h2 := hcon y hy
  rw [h.constructed_eq] at h2
  omega

/-- **A construction that throws, and harms nothing.** -/
theorem meets (hx : Beside o e.trivialDestructor x s) (h : Paired o e.trivialDestructor x s s₁)
    (hs : ReadsRange sources) (hb : e.Blows s₁.ops x.protSize)
    (hkept : SourceKept o e x.startOff x.protSize s₁.ops) :
    (((privSegmentedUninitializedAllocN o e sources x.map x.startOff x.protSize s₁.object.map
      s₁.object.startOff).onThrow (destroyBase o)) s₁).Meets (fun _ _ => False)
      (Unharmed o e.trivialDestructor x s) := by
  have hsize : 0 < x.protSize :=
    Nat.pos_of_ne_zero (fun h0 => Env.not_blows_zero _ (h0 ▸ hb))
  have htr := h.transfer hx.valid hsize
  have hne : s₁.object.map ≠ [] := by
    intro h0
    have := h.init.length_ge
    rw [h0] at this
    exact absurd this (by decide)
  have hsub := @slotsOf_mono o.blockSize _ _ h.freed_subset
  have hfreed : ∀ y ∈ slotsOf o.blockSize (s₁.object.freed o),
      addrBoth o s₁.object x y = addrIn o s₁.object.map y :=
    fun y hy => addrBoth_left (h.init.lt_length (hsub hy))
  have hd : Disjoint ((fun y => s₁.object.map.length * o.blockSize + y) '' x.elements)
      (slotsOf o.blockSize (s₁.object.freed o)) := by
    refine Set.disjoint_left.mpr ?_
    rintro _ ⟨y, -, rfl⟩ hy
    exact absurd (h.init.lt_length (hsub hy)) (Nat.not_lt.mpr (Nat.le_add_right _ _))
  -- the elements of the old deque are not where the new ones are constructed
  have hout : ∀ y ∈ x.elements, addrIn o x.map y ∉ addrIn o s₁.object.map
      '' Set.Ico s₁.object.startOff (s₁.object.startOff + x.protSize) := by
    rintro y hy ⟨z, hz, hzy⟩
    rw [← htr.dest_addr z hz, ← addrBoth_right y] at hzy
    have hmem : s₁.object.map.length * o.blockSize + y
        ∈ (fun y => s₁.object.map.length * o.blockSize + y) '' x.elements :=
      Set.mem_image_of_mem _ hy
    have heq := h.owns.inj (htr.dest_owned hz) (h.owns.sub hmem) hzy
    exact Set.disjoint_left.mp htr.dest_vacant hmem (heq ▸ hz)
  have hrun := (Prog.Meets.onThrow (Q := fun _ _ => False) ((htr.meets (e := e) hs hkept).conseq
    (fun _ => id) (fun _ _ hq => hq.2 hb) (fun _ he => he.1))
    (destroyBase_via hne (h.init.written.mono h.freed_subset) hfreed
      (hsub.trans Set.subset_union_left) hd)) s₁ ⟨h.owns, rfl⟩
  have hkeep : ∀ y ∈ x.elements, Prog.Keeps (fun s => s.constructed (addrIn o x.map y))
      ((privSegmentedUninitializedAllocN o e sources x.map x.startOff x.protSize s₁.object.map
        s₁.object.startOff).onThrow (destroyBase o)) :=
    fun y hy => (htr.keeps hs (hout y hy)).onThrow
      (keeps_destroyBase.comp fun c => c (addrIn o x.map y))
  cases hr : ((privSegmentedUninitializedAllocN o e sources x.map x.startOff x.protSize
      s₁.object.map s₁.object.startOff).onThrow (destroyBase o)) s₁ with
  | done b u =>
    rw [hr] at hrun
    exact hrun.elim
  | threw u =>
    rw [hr] at hrun
    refine unharmed hx h hrun (fun y hy => ?_)
    have hk := hkeep y hy s₁
    rw [hr] at hk
    exact hk
  | undefined =>
    rw [hr] at hrun
    exact hrun.elim

/-- **A construction whose cleanup destroys elements of the source.** -/
theorem sourceKept_of_meets (hx : Beside o e.trivialDestructor x s)
    (h : Paired o e.trivialDestructor x s s₁) (hs : ReadsRange sources) (hsize : 0 < x.protSize)
    (hmeets : (((privSegmentedUninitializedAllocN o e sources x.map x.startOff x.protSize
      s₁.object.map s₁.object.startOff).onThrow (destroyBase o)) s₁).Meets (fun _ _ => False)
      (Unharmed o e.trivialDestructor x s)) :
    SourceKept o e x.startOff x.protSize s₁.ops := by
  by_contra hkept
  have htr := h.transfer hx.valid hsize
  have hgone := htr.destroys_source hs hkept h.owns rfl
  have hmem : x.startOff ∈ x.elements := ⟨le_rfl, by have := hx.valid.finish_eq; omega⟩
  rw [addrBoth_right] at hgone
  cases hr : privSegmentedUninitializedAllocN o e sources x.map x.startOff x.protSize
      s₁.object.map s₁.object.startOff s₁ with
  | done b u =>
    rw [hr] at hgone
    exact hgone
  | undefined =>
    rw [Prog.onThrow_of_undefined hr] at hmeets
    exact hmeets
  | threw u =>
    rw [hr] at hgone
    rw [Prog.onThrow, hr] at hmeets
    have hbase := destroyBase_permits (o := o) u
    obtain ⟨-, hfalse⟩ := hgone
    simp only at hmeets
    cases hu : destroyBase o u with
    | done b v =>
      rw [hu] at hmeets hbase
      refine hbase _ ?_ (hmeets.live _ hmem)
      rw [hfalse]
      exact fun hc => Bool.false_ne_true (Option.some.inj hc)
    | threw v =>
      rw [hu] at hmeets
      exact hmeets
    | undefined =>
      rw [hu] at hmeets
      exact hmeets

end Paired

/-! ## The constructors -/

/-- **A construction from another deque.** -/
inductive Construction
  | copy
  | move

namespace Construction

/-- The call. -/
def run (o : Options) (e : Env α) (x : Members) : Construction → Prog (State Members α) Unit
  | copy => copyConstruct o e x
  | move => do
    let _ ← moveConstruct o e x
    pure ()

end Construction

/-- `constructFrom` after the nodes of the new deque were allocated. -/
theorem constructFrom_run (hsize : 0 < x.protSize)
    (hroom : protInitializeMapAndNodes o e x.protSize s = .done () s₁) :
    constructFrom o e sources x s = ((privSegmentedUninitializedAllocN o e sources x.map x.startOff
      x.protSize s₁.object.map s₁.object.startOff).onThrow (destroyBase o)) s₁ := by
  refine Prog.onThrow_congr ?_
  rw [if_pos (Nat.pos_iff_ne_zero.mp hsize)]
  exact Prog.bind_of_done hroom

/-- When the cleanup leaves the elements that were read. -/
theorem sourceKept_iff {i j : ℕ} (hf : e.fuse = some (j + i)) :
    SourceKept o e first n j
      ↔ e.trivialDestructor = true ∨ n ≤ i ∨ first % o.blockSize = 0 ∧ i < o.blockSize := by
  have hlater : e.Blows (j + o.blockSize) (n - o.blockSize) ↔ o.blockSize ≤ i ∧ i < n := by
    constructor
    · rintro ⟨y, h₁, h₂, h₃⟩
      have := Option.some.inj (hf.symm.trans h₃)
      omega
    · intro h
      exact ⟨j + i, by omega, by omega, hf⟩
  rw [SourceKept, hlater, blows_iff hf]
  refine or_congr_right ?_
  omega

theorem constructFrom_unharmed_iff (hx : Beside o e.trivialDestructor x s)
    (hs : ReadsRange sources) {i : ℕ} (hi : i < x.protSize) (hfuse : e.fuse = some (s.ops + i))
    (hroom : protInitializeMapAndNodes o e x.protSize s = .done () s₁) :
    (constructFrom o e sources x s).Meets (fun _ _ => False) (Unharmed o e.trivialDestructor x s)
      ↔ e.trivialDestructor = true ∨ x.startOff % o.blockSize = 0 ∧ i < o.blockSize := by
  have hsize : 0 < x.protSize := by omega
  have h := hx.paired hroom
  have hkept := @sourceKept_iff _ o _ x.startOff x.protSize _ _
    (h.ops_eq.symm ▸ hfuse : e.fuse = some (s₁.ops + i))
  rw [or_iff_right (show ¬ x.protSize ≤ i by omega)] at hkept
  rw [constructFrom_run hsize hroom, ← hkept]
  exact ⟨fun hm => h.sourceKept_of_meets hx hs hsize hm,
    fun hk => h.meets hx hs ((blows_iff (h.ops_eq.symm ▸ hfuse)).mpr hi) hk⟩

/-- **Copying a deque, or moving it to another allocator**, leaves the source alone
when it throws if and only if nothing has to be destroyed, or the source starts
a block and no element of a later block was reached. -/
theorem construction_unharmed_iff (hx : Beside o e.trivialDestructor x s) (c : Construction)
    (hc : c = .move → x.alloc ≠ s.object.alloc) {i : ℕ} (hi : i < x.protSize)
    (hfuse : e.fuse = some (s.ops + i))
    (hroom : protInitializeMapAndNodes o e x.protSize s = .done () s₁) :
    (c.run o e x s).Meets (fun _ _ => False) (Unharmed o e.trivialDestructor x s)
      ↔ e.trivialDestructor = true ∨ x.startOff % o.blockSize = 0 ∧ i < o.blockSize := by
  cases c with
  | copy => exact constructFrom_unharmed_iff hx readsRange_copies hi hfuse hroom
  | move =>
    have hrun : Construction.move.run o e x s
        = ((constructFrom o e slots x >>= fun _ => pure x) >>= fun _ => pure ()) s :=
      congrFun (congrArg (· >>= fun _ => (pure () : Prog (State Members α) Unit))
        (if_neg (hc rfl) : (if x.alloc = s.object.alloc then _ else
          (constructFrom o e slots x >>= fun _ => pure x)) = _)) s
    rw [hrun, Prog.bind_pure_meets_iff, Prog.bind_pure_meets_iff]
    exact constructFrom_unharmed_iff hx readsRange_slots hi hfuse hroom

/-- A deque that is to be copied. -/
theorem Sound.beside (h : Sound o t s) (a : ℕ) :
    Beside o t s.object { s with object := Members.null a } := by
  have howns : OwnsVia t s (ownSlots o s) (Members.null a) (addrIn o s.object.map)
      (s.object.slots o) s.object.elements { s with object := Members.null a } :=
    setObject_via (f := fun _ => Members.null a) s h.holds.owns
  exact ⟨rfl, h.holds.valid, howns.restart⟩

/-- A deque of one block with the elements from place `i` to place `j`, that is to
be copied. -/
def besideBlock (i j : ℕ) : State Members ℕ :=
  { oneBlock .fours 100 i j 5 with object := Members.null 0 }

theorem construction_unharmed_start : ∃ s₁,
    protInitializeMapAndNodes .fours (throwingAt 1) 2 (besideBlock 0 2) = .done () s₁
      ∧ (Construction.copy.run .fours (throwingAt 1) (oneBlock .fours 100 0 2 5).object
        (besideBlock 0 2)).Meets (fun _ _ => False)
        (Unharmed .fours false (oneBlock .fours 100 0 2 5).object (besideBlock 0 2)) :=
  ⟨_, rfl, (construction_unharmed_iff (e := throwingAt 1) (i := 1)
    ((sound_fours (by decide) (by decide)).beside 0) .copy (fun h => Construction.noConfusion h)
    (by decide) rfl rfl).mpr (Or.inr ⟨rfl, by decide⟩)⟩

/-- A deque of two elements that do not start their block is copied, and the first
copy throws. -/
theorem not_construction_unharmed :
    Beside .fours false (oneBlock .fours 100 1 3 5).object (besideBlock 1 3) ∧ ∃ s₁,
      protInitializeMapAndNodes .fours (throwingAt 0) 2 (besideBlock 1 3) = .done () s₁
        ∧ ¬ (Construction.copy.run .fours (throwingAt 0) (oneBlock .fours 100 1 3 5).object
          (besideBlock 1 3)).Meets (fun _ _ => False)
          (Unharmed .fours false (oneBlock .fours 100 1 3 5).object (besideBlock 1 3)) := by
  have hx : Beside .fours false (oneBlock .fours 100 1 3 5).object (besideBlock 1 3) :=
    (sound_fours (by decide) (by decide)).beside 0
  refine ⟨hx, _, rfl, fun h => ?_⟩
  have hkept := (constructFrom_unharmed_iff (e := throwingAt 0) (i := 0) hx readsRange_copies
    (by decide) rfl rfl).mp h
  exact absurd hkept (by decide)

end DequeImpl
