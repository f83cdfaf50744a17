import BoostContainer.Deque.DequeRanges

/-!
# Insertion at an end of a deque

What an insertion at an end leaves when the construction of an element throws.
Room is made first, which moves no element in memory; so the elements are left
alone for as long as the cleanup keeps to the new slots and the new nodes.

The cleanup of the back frees the new nodes. That of the front is the same
code, and so it frees the nodes after the first of the new ones, up to the one
the elements start in.
-/

open Slots

namespace DequeImpl

variable {α : Type*} {o : Options} {rot : Rotation} {e : Env α} {t : Bool}
  {s s₁ s' : State Members α} {k : Members} {N : Set ℕ} {a b first j m n : ℕ}
  {srcs : List (Source α)}

/-! ## A deque and its elements -/

/-- The slots that a deque owns. -/
def ownSlots (o : Options) (s : State Members α) : Set ℕ :=
  addrIn o s.object.map '' s.object.slots o

/-- **A deque as a call finds it.** -/
structure Sound (o : Options) (t : Bool) (s : State Members α) : Prop where
  holds : Holds o t s (ownSlots o s) s
  mapSize_eq : s.object.mapSize = s.object.map.length

/-- **The elements are the same**, and where they were. -/
structure SameElements (o : Options) (s s' : State Members α) : Prop where
  size_eq : s'.object.protSize = s.object.protSize
  element_eq : ∀ i < s.object.protSize,
    addrIn o s'.object.map (s'.object.startOff + i) = addrIn o s.object.map (s.object.startOff + i)
      ∧ s'.heap (addrIn o s.object.map (s.object.startOff + i))
        = s.heap (addrIn o s.object.map (s.object.startOff + i))

theorem SameElements.refl (s : State Members α) : SameElements o s s :=
  ⟨rfl, fun _ _ => ⟨rfl, rfl⟩⟩

theorem SameElements.trans (h : SameElements o s s₁) (h' : SameElements o s₁ s') :
    SameElements o s s' := by
  refine ⟨h'.size_eq.trans h.size_eq, fun i hi => ?_⟩
  obtain ⟨ha, hh⟩ := h.element_eq i hi
  obtain ⟨ha', hh'⟩ := h'.element_eq i (h.size_eq ▸ hi)
  exact ⟨ha'.trans ha, by rw [← ha, hh', ha, hh]⟩

/-- **Room for elements** from the offset `a` on, and before `b`. -/
structure HasRoom (o : Options) (t : Bool) (s s₁ : State Members α) (a b : ℕ) : Prop where
  owns : OwnsVia t s (ownSlots o s) s₁.object (addrIn o s₁.object.map)
    (slotsOf o.blockSize (s₁.object.span o a b)) s₁.object.elements s₁
  written : Written s₁.object.map (s₁.object.span o a b)
  same : SameElements o s s₁
  valid : s₁.object.Valid o
  null : s₁.object.map ≠ []
  le_start : a ≤ s₁.object.startOff
  finish_le : s₁.object.finishOff ≤ b
  lt_length : b < s₁.object.map.length * o.blockSize

/-- **A call without effect**: nothing but what making room did is left, and every
element that was constructed was destroyed. -/
structure Undone (o : Options) (t : Bool) (s s₁ s' : State Members α) : Prop where
  object_eq : s'.object = s₁.object
  holds : Holds o t s (ownSlots o s) s'
  same : SameElements o s s'
  destroyed_eq : t = false → ∀ q,
    s'.constructed q + s.destroyed q = s.constructed q + s'.destroyed q

/-! ## Making room -/

/-- The nodes of a deque that was given room. -/
theorem Members.nodes_subset_span (hne : k.map ≠ []) (ha : a ≤ k.startOff)
    (hb : k.finishOff ≤ b) : k.nodes o ⊆ k.span o a b := by
  rw [Members.Valid.nodes_eq hne, Members.span, Members.span]
  split
  · exact subset_rfl
  · exact Set.Icc_subset_Icc (Nat.div_le_div_right ha) (Nat.div_le_div_right hb)

/-- A deque as a call finds it has nothing new. -/
theorem Sound.owns_empty (s : State Members α) : Owns t s ∅ s.object ∅ ∅ s :=
  ⟨rfl, Heap.Exchange.refl _ _, subset_rfl, fun _ h => h.elim, fun _ h => h.elim,
    fun _ _ h => h.elim, fun _ _ => rfl⟩

/-- **Room, once it was made.** -/
theorem MadeRoom.hasRoom (hs : Sound o t s) {M : Members → Set ℕ}
    (h : MadeRoom o t s ∅ s.object M s₁) (hM : M s₁.object = s₁.object.span o a b)
    (ha : a ≤ s₁.object.startOff) (hb : s₁.object.finishOff ≤ b)
    (hlt : b < s₁.object.map.length * o.blockSize) : HasRoom o t s s₁ a b := by
  obtain ⟨f, N, hr, hN, hnew⟩ := h
  rw [hM] at hN
  obtain ⟨howns, hsame⟩ := hr.holds hs.holds.valid hs.holds.owns hnew
  have hne : s₁.object.map ≠ [] := by
    intro h0
    rw [h0, List.length_nil, Nat.zero_mul] at hlt
    exact absurd hlt (Nat.not_lt_zero _)
  have hw : Written s₁.object.map (s₁.object.span o a b) := by
    rw [← hN]
    refine hr.fresh.union ?_
    rintro _ ⟨i, hi, rfl⟩
    rw [hr.entry i hi]
    exact hs.holds.valid.written i hi
  have hsize : s₁.object.protSize = s.object.protSize := by
    rw [Members.protSize, hr.finish_eq, Nat.add_sub_cancel_left]
  have hle : s₁.object.startOff ≤ s₁.object.finishOff := by
    rw [hr.finish_eq]
    exact Nat.le_add_right _ _
  have hv : s₁.object.Valid o :=
    ⟨hle, fun _ => hr.finish_lt, fun h0 => absurd h0 hne, fun _ => hr.length_ge, hr.fits,
      hr.single, hw.mono (Members.nodes_subset_span hne ha hb)⟩
  exact ⟨hN ▸ howns, hw, ⟨hsize, hsame⟩, hv, hne, ha, hb, hlt⟩

/-- **Room at the back of a deque.** -/
theorem reserveAtBack_hasRoom (hs : Sound o t s) (hn : 0 < n)
    (hroom : privReserveElementsAtBack o rot e n s = .done () s₁) :
    HasRoom o t s s₁ s₁.object.startOff (s₁.object.finishOff + n)
      ∧ s₁.object.finishOff % o.blockSize = s.object.finishOff % o.blockSize
      ∧ s₁.ops = s.ops := by
  have h := @privReserveElementsAtBack_meets _ _ rot e _ _ _ _ _ hs.holds.valid hs.mapSize_eq hn s
    (Sound.owns_empty (t := t) s)
  have hops := @calm_privReserveElementsAtBack _ o rot e n s
  rw [hroom] at h hops
  obtain ⟨⟨hlt, hnull⟩, hmade⟩ := h
  refine ⟨hmade.hasRoom hs rfl le_rfl (Nat.le_add_right _ _) hlt, ?_, hops⟩
  obtain ⟨f, N, hr, -, -⟩ := hmade
  by_cases hne : s.object.map = []
  · have hzero := hs.holds.valid.null hne
    have hstart := hs.holds.valid.start_eq_zero hne
    rw [hr.finish_eq, Members.protSize, hzero, hstart, Nat.sub_self, Nat.add_zero, hnull hne,
      Nat.zero_mod]
  · exact hr.finish_mod hs.holds.valid hne

/-- **Room at the front of a deque.** -/
theorem reserveAtFront_hasRoom (hs : Sound o t s) (hse : o.singleEnded = false) (hn : 0 < n)
    (hroom : privReserveElementsAtFront o rot e n s = .done () s₁) :
    HasRoom o t s s₁ (s₁.object.startOff - n) s₁.object.finishOff
      ∧ n ≤ s₁.object.startOff
      ∧ s₁.object.startOff % o.blockSize
        = (if s.object.map = [] then n else s.object.startOff) % o.blockSize
      ∧ s₁.ops = s.ops := by
  have h := @privReserveElementsAtFront_meets _ _ rot e _ _ _ _ _ hs.holds.valid hs.mapSize_eq hse
    hn s (Sound.owns_empty (t := t) s)
  have hops := @calm_privReserveElementsAtFront _ o rot e n s
  rw [hroom] at h hops
  obtain ⟨⟨hle, hnull⟩, hmade⟩ := h
  have hlt : s₁.object.finishOff < s₁.object.map.length * o.blockSize := by
    obtain ⟨f, N, hr, -, -⟩ := hmade
    exact hr.finish_lt
  refine ⟨hmade.hasRoom hs rfl (Nat.sub_le _ _) le_rfl hlt, hle, ?_, hops⟩
  obtain ⟨f, N, hr, -, -⟩ := hmade
  by_cases hne : s.object.map = []
  · have hmod := hnull hne
    have hdm := Nat.div_add_mod (s₁.object.startOff - n) o.blockSize
    rw [if_pos hne, show s₁.object.startOff
      = o.blockSize * ((s₁.object.startOff - n) / o.blockSize) + n by omega, Nat.mul_add_mod]
  · rw [if_neg hne]
    exact hr.start_mod hne

/-! ## Taking back -/

/-- **New nodes are freed**, where they hold no elements. -/
theorem protDeallocateNodesIfNotReservable_via {own live S₀ : Set ℕ} {s₀ : State Members α}
    (hw : o.reservable = false → Written k.map (Set.Ico a b))
    (hin : o.reservable = false → slotsOf o.blockSize (Set.Ico a b) ⊆ own)
    (hl : o.reservable = false → Disjoint live (slotsOf o.blockSize (Set.Ico a b))) :
    Prog.Meets (OwnsVia t s₀ S₀ k (addrIn o k.map) own live)
      (protDeallocateNodesIfNotReservable o a b)
      (fun _ => OwnsVia t s₀ S₀ k (addrIn o k.map)
        (if o.reservable then own else own \ slotsOf o.blockSize (Set.Ico a b)) live)
      (fun _ => False) := by
  refine Prog.Meets.ite (fun hr => ?_) (fun hr => ?_)
  · exact Prog.meets_pure (fun s hs => by rwa [if_pos hr])
  · have hf : o.reservable = false := Bool.eq_false_of_not_eq_true hr
    rw [if_neg hr]
    refine object_bind_via ?_
    rcases Nat.lt_or_ge b a with h | h
    · have hempty : Set.Ico a b = ∅ := Set.Ico_eq_empty (by omega)
      rw [Nat.sub_eq_zero_of_le h.le, hempty, slotsOf_empty, Set.sdiff_empty]
      exact Prog.meets_pure (fun s hs => hs)
    · have hab : a + (b - a) = b := Nat.add_sub_cancel' h
      have hloop := @protDeallocateNodesLoop_meets _ o t s₀ S₀ own live k k.map a (b - a)
      rw [hab] at hloop
      exact hloop (hw hf) (hin hf) (hl hf)

/-- Whether a slot is alive is told by what a deque owns, and where its elements
are. -/
theorem alive_eq {own live own' live' : Set ℕ} {k' : Members}
    (h : Owns t s own k own live s) (h' : Owns t s own k' own' live' s') (ht : t = false)
    (hl : live = live') (q : ℕ) : alive (shape s.heap) q = alive (shape s'.heap) q := by
  subst hl
  by_cases hq : q ∈ live
  · rw [alive, alive, h.full q hq, h'.full q hq]
  · have hzero : ∀ {k : Members} {own : Set ℕ} {s : State Members α} {s₀ : State Members α}
        {S₀ : Set ℕ}, Owns t s₀ S₀ k own live s → q ∈ own → alive (shape s.heap) q = 0 := by
      intro k own s s₀ S₀ ho hqo
      rw [alive, ho.vacant ht q hqo hq]
      rfl
    by_cases hqo : q ∈ own
    · rw [hzero h hqo]
      by_cases hqo' : q ∈ own'
      · rw [hzero h' hqo']
      · rw [alive, shape, h'.exchange.freed q hqo hqo']
        rfl
    · by_cases hqo' : q ∈ own'
      · rw [hzero h' hqo', alive, shape, h'.exchange.fresh q hqo' hqo]
        rfl
      · rw [alive, alive, shape, shape, h'.exchange.frame q hqo hqo']

/-- The elements of a deque are at the same addresses. -/
theorem SameElements.image_elements (h : SameElements o s s') (hv : s.object.Valid o)
    (hv' : s'.object.Valid o) :
    addrIn o s'.object.map '' s'.object.elements = addrIn o s.object.map '' s.object.elements := by
  have hsize := h.size_eq
  have hf := hv.finish_eq
  have hf' := hv'.finish_eq
  ext q
  constructor
  · rintro ⟨x, hx, rfl⟩
    have hx' : x - s'.object.startOff < s.object.protSize := by
      have := hx.1
      have := hx.2
      omega
    have heq := (h.element_eq _ hx').1
    rw [Nat.add_sub_cancel' hx.1] at heq
    exact ⟨_, ⟨Nat.le_add_right _ _, by omega⟩, heq.symm⟩
  · rintro ⟨x, hx, rfl⟩
    have hx' : x - s.object.startOff < s.object.protSize := by
      have := hx.1
      have := hx.2
      omega
    have heq := (h.element_eq _ hx').1
    rw [Nat.add_sub_cancel' hx.1] at heq
    exact ⟨_, ⟨Nat.le_add_right _ _, by omega⟩, heq⟩

/-- **Nothing is left of a call** that gave back what it owned beyond the deque
and left the elements alone. -/
theorem HasRoom.undone (hs : Sound o t s) (hr : HasRoom o t s s₁ a b) {own : Set ℕ}
    (hown : own ∪ s₁.object.elements = s₁.object.slots o)
    (hin : own ⊆ slotsOf o.blockSize (s₁.object.span o a b) \ s₁.object.elements)
    (h : OwnsVia t s₁ (addrIn o s₁.object.map ''
        (slotsOf o.blockSize (s₁.object.span o a b) \ s₁.object.elements)) s₁.object
      (addrIn o s₁.object.map) own ∅ s') : Undone o t s s₁ s' := by
  have hobj : s'.object = s₁.object := h.owns.object_eq
  have helem : slotsOf o.blockSize (s₁.object.span o a b)
      \ (slotsOf o.blockSize (s₁.object.span o a b) \ s₁.object.elements)
      = s₁.object.elements := by
    rw [Set.sdiff_sdiff_right_self]
    exact Set.inter_eq_right.mpr hr.owns.sub
  obtain ⟨howns, -, hheap⟩ := hr.owns.frame Set.sdiff_subset h
  rw [helem] at howns hheap
  have hlive : ∅ ∪ s₁.object.elements \ (slotsOf o.blockSize (s₁.object.span o a b)
      \ s₁.object.elements) = s₁.object.elements := by
    rw [Set.empty_union]
    refine sdiff_eq_left.mpr (Set.disjoint_left.mpr (fun x hx hx' => hx'.2 hx))
  rw [hlive, hown] at howns
  have hsame : SameElements o s₁ s' := by
    refine ⟨by rw [hobj], fun i hi => ⟨by rw [hobj], hheap _ ⟨Nat.le_add_right _ _, ?_⟩⟩⟩
    have := hr.valid.finish_eq
    omega
  have hall := hr.same.trans hsame
  have hv' : s'.object.Valid o := hobj ▸ hr.valid
  have howns' : OwnsVia t s (ownSlots o s) s'.object (addrIn o s'.object.map)
      (s'.object.slots o) s'.object.elements s' := by
    rw [hobj]
    exact howns
  refine ⟨hobj, ⟨hv', howns'⟩, hall, fun ht q => ?_⟩
  have halive := alive_eq hs.holds.owns.owns howns'.owns ht
    (hall.image_elements hs.holds.valid hv').symm q
  have hledger := howns'.owns.ledger ht q
  omega

/-- **The cleanup of an insertion**, where it frees what is new. -/
theorem HasRoom.rollback (hs : Sound o e.trivialDestructor s)
    (hr : HasRoom o e.trivialDestructor s s₁ a b) {single : Bool}
    (hin : Set.Ico first (first + srcs.length)
      ⊆ slotsOf o.blockSize (s₁.object.span o a b) \ s₁.object.elements)
    (hnode : Set.Icc (first / o.blockSize) ((first + srcs.length) / o.blockSize)
      ⊆ s₁.object.span o a b)
    (hnew : o.reservable = false → s₁.object.nodes o = s₁.object.span o a b
      \ Set.Ico (first / o.blockSize + 1) ((first + srcs.length) / o.blockSize + 1))
    (hsrcs : ∀ src ∈ srcs, src.Readable ∅) (hsingle : single = true → srcs.length = 1)
    (hfit : CleanupFits o e single first srcs.length s₁.ops)
    (hb : e.Blows s₁.ops srcs.length) :
    (privInsertSegmentedUninitializedCopyNAndUpdate o e single s₁.object.map first srcs s₁).Meets
      (fun _ _ => False) (Undone o e.trivialDestructor s s₁) := by
  have hfreed : Set.Ico (first / o.blockSize + 1) ((first + srcs.length) / o.blockSize + 1)
      ⊆ s₁.object.span o a b :=
    fun i hi => hnode ⟨by have := hi.1; omega, by have := hi.2; omega⟩
  have hsmall := @OwnsVia.restrict _ _ _ _ _ _ (slotsOf o.blockSize (s₁.object.span o a b)
    \ s₁.object.elements) _ _ _ _ hr.owns Set.sdiff_subset
  have hnone : s₁.object.elements ∩ (slotsOf o.blockSize (s₁.object.span o a b)
      \ s₁.object.elements) = ∅ := Set.inter_sdiff_self _ _
  rw [hnone] at hsmall
  have helem := hr.valid.elements_subset
  have hcopy := @privSegmentedProxyUninitializedCopyNAndUpdate_via _ o e s₁
    (addrIn o s₁.object.map '' (slotsOf o.blockSize (s₁.object.span o a b)
      \ s₁.object.elements)) _ ∅ s₁.object _ s₁.ops _ srcs _
    (hr.written.mono hnode) hin (Set.empty_disjoint _)
    (fun src hsrc => by rw [Set.image_empty]; exact hsrcs src hsrc) hsingle hfit
  refine (Prog.Meets.onThrow (F := OwnsVia e.trivialDestructor s₁ (addrIn o s₁.object.map ''
    (slotsOf o.blockSize (s₁.object.span o a b) \ s₁.object.elements)) s₁.object
      (addrIn o s₁.object.map) (slotsOf o.blockSize (s₁.object.span o a b)
        \ s₁.object.elements) ∅) (Q := fun _ _ => False)
    (hcopy.conseq (fun _ => id) (fun _ _ hq => hq.2 hb) (fun _ he => he.1)) ?_) s₁ ⟨hsmall, rfl⟩
  refine (protDeallocateNodesIfNotReservable_via (fun _ => hr.written.mono hfreed) (fun hf => ?_)
    (fun _ => Set.empty_disjoint _)).post (fun _ s' hs' => hr.undone hs ?_ ?_ hs')
  · refine fun x hx => ⟨slotsOf_mono hfreed hx, fun hx' => ?_⟩
    have hn : x / o.blockSize ∈ s₁.object.nodes o := helem hx'
    rw [hnew hf] at hn
    exact hn.2 hx
  · split
    · rename_i hres
      have hspan : s₁.object.span o a b = s₁.object.nodes o := by
        rw [Members.span, Members.nodes, if_pos hres, if_pos hres]
      rw [hspan]
      exact Set.sdiff_union_of_subset helem
    · rename_i hres
      rw [Members.slots, hnew (Bool.eq_false_of_not_eq_true hres), slotsOf_sdiff]
      ext x
      constructor
      · rintro (⟨⟨hx, -⟩, hx'⟩ | hx)
        · exact ⟨hx, hx'⟩
        · have := helem hx
          rwa [Members.slots, hnew (Bool.eq_false_of_not_eq_true hres)] at this
      · rintro ⟨hx, hx'⟩
        by_cases hxe : x ∈ s₁.object.elements
        · exact Or.inr hxe
        · exact Or.inl ⟨⟨hx, hxe⟩, hx'⟩
  · split
    · exact subset_rfl
    · exact Set.sdiff_subset

/-! ## A deque of one block -/

/-- A deque with one node, at `p`, that holds elements from place `i` of the block
to place `j`. -/
def oneBlock (o : Options) (p i j : ℕ) (v : α) : State Members α :=
  .start (fun q => if p ≤ q ∧ q < p + o.blockSize then
      some ⟨0, if p + i ≤ q ∧ q < p + j then some v else none⟩ else none)
    ⟨0, [none, some p, none, none], 4, o.blockSize + i, o.blockSize + j⟩

theorem sound_oneBlock {p i : ℕ} (v : α) (hij : i ≤ j) (hj : j < o.blockSize)
    (hres : o.reservable = false) (hse : o.singleEnded = false)
    (hfits : 4 * o.blockSize ≤ 2 ^ o.storedBits) : Sound o t (oneBlock o p i j v) := by
  have hbs := o.blockSize_pos
  have hdiv : ∀ x < o.blockSize, (o.blockSize + x) / o.blockSize = 1 := by
    intro x hx
    rw [Nat.add_div_left x hbs, Nat.div_eq_of_lt hx]
  have hnodes : (oneBlock o p i j v).object.nodes o = {1} := by
    rw [Members.nodes_eq_Icc _ hres (List.cons_ne_nil _ _)]
    show Set.Icc ((o.blockSize + i) / o.blockSize) ((o.blockSize + j) / o.blockSize) = {1}
    rw [hdiv i (by omega), hdiv j hj, Set.Icc_self]
  have hslots : (oneBlock o p i j v).object.slots o
      = Set.Ico (1 * o.blockSize) (1 * o.blockSize + o.blockSize) := by
    rw [Members.slots, hnodes, slotsOf_singleton hbs]
  have haddr : ∀ x ∈ (oneBlock o p i j v).object.slots o,
      o.blockSize ≤ x ∧ x < o.blockSize + o.blockSize
        ∧ addrIn o (oneBlock o p i j v).object.map x = p + (x - o.blockSize) := by
    intro x hx
    rw [hslots, Nat.one_mul] at hx
    have h₁ := hx.1
    have h₂ := hx.2
    refine ⟨h₁, h₂, ?_⟩
    have h := @blockAddr_mul_add o.blockSize 1 (x - o.blockSize)
      (nodeOf (oneBlock o p i j v).object.map) (by omega)
    rw [Nat.one_mul, Nat.add_sub_cancel' h₁] at h
    exact h
  have hvalid : (oneBlock o p i j v).object.Valid o := by
    refine ⟨Nat.add_le_add_left hij _, fun _ => ?_, fun h => absurd h (List.cons_ne_nil _ _),
      fun _ => le_rfl, hfits, fun h => absurd (hse.symm.trans h) Bool.false_ne_true, ?_⟩
    · show o.blockSize + j < 4 * o.blockSize
      omega
    · rw [hnodes]
      rintro _ rfl
      exact ⟨p, rfl⟩
  have hsub := hvalid.elements_subset
  refine ⟨⟨hvalid, fun x hx y hy hxy => ?_, hsub, rfl, Heap.Exchange.refl _ _,
    Set.image_mono hsub, ?_, ?_, fun _ => ?_, fun _ _ => rfl⟩, rfl⟩
  · obtain ⟨h₁, h₂, h₃⟩ := haddr x hx
    obtain ⟨h₄, h₅, h₆⟩ := haddr y hy
    omega
  · rintro _ ⟨x, hx, rfl⟩
    obtain ⟨h₁, h₂, h₃⟩ := haddr x hx
    rw [h₃]
    refine (ne_of_eq_of_ne (if_pos ⟨by omega, by omega⟩) (Option.some_ne_none _))
  · rintro _ ⟨x, hx, rfl⟩
    obtain ⟨h₁, h₂, h₃⟩ := haddr x (hsub hx)
    have hlo : o.blockSize + i ≤ x := hx.1
    have hhi : x < o.blockSize + j := hx.2
    rw [h₃]
    have hin : p ≤ p + (x - o.blockSize) ∧ p + (x - o.blockSize) < p + o.blockSize := by omega
    have hel : p + i ≤ p + (x - o.blockSize) ∧ p + (x - o.blockSize) < p + j := by omega
    simp [shape, oneBlock, State.start, hin, hel]
  · rintro _ ⟨x, hx, rfl⟩ hn
    obtain ⟨h₁, h₂, h₃⟩ := haddr x hx
    have hnot : ¬ (o.blockSize + i ≤ x ∧ x < o.blockSize + j) := fun h =>
      hn (Set.mem_image_of_mem _ h)
    rw [h₃]
    have hin : p ≤ p + (x - o.blockSize) ∧ p + (x - o.blockSize) < p + o.blockSize := by omega
    have hel : ¬ (p + i ≤ p + (x - o.blockSize) ∧ p + (x - o.blockSize) < p + j) := by omega
    simp only [shape, oneBlock, State.start, if_pos hin, if_neg hel]
    rfl

/-- Blocks of four elements, and offsets of 64 bits. -/
def Options.fours : Options := ⟨4, by decide, false, false, 64, 2 ^ 64 - 1⟩

/-- A rotation that puts the parts of a list together. -/
def Rotation.parts : Rotation :=
  ⟨fun l a m b => l.take a ++ (l.drop m).take (b - m) ++ (l.drop a).take (m - a) ++ l.drop b,
    fun _ _ _ _ _ _ _ => rfl⟩

/-- Memory that is allocated at one address, while it is nobody's. -/
def addressAt (p : ℕ) (hp : p ≠ 0) (h : Heap (Slot ℕ)) (n : ℕ) :
    Option {p : ℕ // p ≠ 0 ∧ ∀ q ∈ Set.Ico p (p + n), h q = none} :=
  if hfree : ∀ i < n, (h (p + i)).isNone = true then
    some ⟨p, hp, fun q hq => by
      have hq' := hfree (q - p) (by have := hq.2; have := hq.1; omega)
      rwa [Nat.add_sub_cancel' hq.1, Option.isNone_iff_eq_none] at hq'⟩
  else none

/-- Operation `n` throws, and there is memory for one block. -/
def throwingAt (n : ℕ) : Env ℕ := ⟨some n, none, addressAt 200 (by decide), id, false⟩

theorem sound_fours {i j : ℕ} (hij : i ≤ j) (hj : j < 4) :
    Sound .fours false (oneBlock .fours 100 i j 5) :=
  sound_oneBlock 5 hij hj rfl rfl (by decide)

/-! ## The back -/

/-- **An insertion at the back**: of one element, or of what a proxy gives. -/
inductive BackInsertion (α : Type*)
  | emplaceBack (v : α)
  | insert (proxy : InsertProxy α)

namespace BackInsertion

variable {α : Type*}

/-- What is inserted. -/
def proxy : BackInsertion α → InsertProxy α
  | emplaceBack v => .emplace v
  | insert proxy => proxy

/-- The call. -/
def run (o : Options) (rot : Rotation) (e : Env α) :
    BackInsertion α → Prog (State Members α) Unit
  | emplaceBack v => DequeImpl.emplaceBack o rot e v
  | insert proxy => do
    let k ← object
    let _ ← privInsertAuxImpl o rot e k.protSize proxy
    pure ()

end BackInsertion

theorem InsertProxy.readable_constructed (proxy : InsertProxy α) :
    ∀ src ∈ proxy.constructed, src.Readable ∅ := by
  cases proxy with
  | range vs => exact readable_values vs
  | value v => exact readable_values [v]
  | emplace v => exact readable_values [v]

theorem InsertProxy.single_size (proxy : InsertProxy α) (h : proxy.single = true) :
    proxy.constructed.length = 1 := by
  cases proxy with
  | range vs => exact absurd h Bool.false_ne_true
  | value v => rfl
  | emplace v => rfl

/-- Which operation throws, counted from the first of some. -/
theorem blows_iff {i : ℕ} (hf : e.fuse = some (j + i)) : e.Blows j n ↔ i < n := by
  constructor
  · rintro ⟨x, h₁, h₂, h₃⟩
    have := Option.some.inj (hf.symm.trans h₃)
    omega
  · intro h
    exact ⟨j + i, by omega, by omega, hf⟩

theorem HasRoom.Icc_subset_span (hr : HasRoom o t s s₁ a b) (ha : a ≤ m) (hb : n ≤ b) :
    Set.Icc (m / o.blockSize) (n / o.blockSize) ⊆ s₁.object.span o a b := by
  rw [Members.span]
  split
  · intro i hi
    exact lt_of_le_of_lt hi.2 ((Nat.div_lt_iff_lt_mul o.blockSize_pos).mpr
      (lt_of_le_of_lt hb hr.lt_length))
  · exact Set.Icc_subset_Icc (Nat.div_le_div_right ha) (Nat.div_le_div_right hb)

/-- **An insertion at the back that throws**, in terms of its cleanup. -/
theorem insertBack_undone_iff (hs : Sound o e.trivialDestructor s) (proxy : InsertProxy α)
    (hsize : 0 < proxy.size) (hb : e.Blows s.ops proxy.size)
    (hroom : privReserveElementsAtBack o rot e proxy.size s = .done () s₁) :
    (privInsertBackAuxImpl o rot e proxy s).Meets (fun _ _ => False)
        (Undone o e.trivialDestructor s s₁)
      ↔ CleanupFits o e proxy.single s₁.object.finishOff proxy.size s₁.ops := by
  obtain ⟨hr, -, hops⟩ := reserveAtBack_hasRoom hs hsize hroom
  have hrun : privInsertBackAuxImpl o rot e proxy s = (do
      privInsertSegmentedUninitializedCopyNAndUpdate o e proxy.single s₁.object.map
        s₁.object.finishOff proxy.constructed
      setObject (Members.protIncFinish o proxy.size)
      pure s₁.object.finishOff) s₁ := Prog.bind_of_done hroom
  have hle := hr.valid.start_le
  have hnode : Set.Icc (s₁.object.finishOff / o.blockSize)
      ((s₁.object.finishOff + proxy.constructed.length) / o.blockSize)
      ⊆ s₁.object.span o s₁.object.startOff (s₁.object.finishOff + proxy.size) :=
    hr.Icc_subset_span hle le_rfl
  have hin : Set.Ico s₁.object.finishOff (s₁.object.finishOff + proxy.constructed.length)
      ⊆ slotsOf o.blockSize
        (s₁.object.span o s₁.object.startOff (s₁.object.finishOff + proxy.size)) :=
    Ico_subset_slotsOf hnode
  have hd : Disjoint s₁.object.elements
      (Set.Ico s₁.object.finishOff (s₁.object.finishOff + proxy.constructed.length)) :=
    Set.disjoint_left.mpr (fun x hx hx' => absurd hx.2 (by have := hx'.1; omega))
  rw [hrun]
  constructor
  · intro h
    by_contra hfit
    have hundef := privSegmentedProxyUninitializedCopyNAndUpdate_undefined (hr.written.mono hnode)
      hin hd (fun src hsrc => (proxy.readable_constructed src hsrc).mono (Set.empty_subset _))
      hfit hr.owns rfl
    have hcall : privInsertSegmentedUninitializedCopyNAndUpdate o e proxy.single s₁.object.map
        s₁.object.finishOff proxy.constructed s₁ = .undefined := Prog.onThrow_of_undefined hundef
    rw [Prog.bind_of_undefined hcall] at h
    exact h
  · intro hfit
    refine Prog.bind_meets_of_throws (hr.rollback hs
      (fun x hx => ⟨hin hx, fun hx' => Set.disjoint_left.mp hd hx' hx⟩) hnode (fun hres => ?_)
      proxy.readable_constructed proxy.single_size hfit (hops ▸ hb))
    have hdiv : s₁.object.startOff / o.blockSize ≤ s₁.object.finishOff / o.blockSize :=
      Nat.div_le_div_right hle
    have hdiv' : s₁.object.finishOff / o.blockSize
        ≤ (s₁.object.finishOff + proxy.size) / o.blockSize := Nat.div_le_div_right (by omega)
    rw [Members.nodes_eq_Icc _ hres hr.null, Members.span, if_neg (by rw [hres]; decide)]
    ext i
    show i ∈ Set.Icc (s₁.object.startOff / o.blockSize) (s₁.object.finishOff / o.blockSize) ↔ _
    simp only [Set.mem_sdiff, Set.mem_Icc, Set.mem_Ico]
    rw [show proxy.constructed.length = proxy.size from rfl]
    omega

/-- `emplace_back` where the last block has room. -/
theorem emplaceBack_undone (hs : Sound o e.trivialDestructor s) {v : α}
    (hsimple : s.object.map ≠ [] ∧ s.object.finishOff % o.blockSize ≠ o.blockSize - 1)
    (hb : e.Blows s.ops 1) (hroom : privReserveElementsAtBack o rot e 1 s = .done () s₁) :
    (emplaceBack o rot e v s).Meets (fun _ _ => False) (Undone o e.trivialDestructor s s₁) := by
  have hbs := o.blockSize_pos
  have hmod := Nat.mod_lt s.object.finishOff hbs
  have hdm := Nat.div_add_mod s.object.finishOff o.blockSize
  have hv := hs.holds.valid
  have hlt := hv.finish_lt hsimple.1
  have hnode : (s.object.finishOff + 1) / o.blockSize = s.object.finishOff / o.blockSize :=
    add_div_of_mod_add_lt (by have := hsimple.2; omega)
  -- the reservation has nothing to do
  have hlast : s.object.finishOff + 1 < s.object.map.length * o.blockSize := by
    rw [← Nat.div_lt_iff_lt_mul hbs, hnode, Nat.div_lt_iff_lt_mul hbs]
    exact hlt
  have hvac : ¬ 1 > s.object.protBackFreeCapacity o := by
    rw [Members.protBackFreeCapacity, hs.mapSize_eq, if_neg hsimple.1, if_neg hsimple.1]
    have := hsimple.2
    split <;> omega
  have hsame : s₁ = s := by
    have hdone : privReserveElementsAtBack o rot e 1 s = .done () s :=
      congrFun (if_neg hvac : (if 1 > s.object.protBackFreeCapacity o then _ else pure ())
        = (pure () : Prog (State Members α) Unit)) s
    rw [hdone] at hroom
    exact (Outcome.done.inj hroom).2.symm
  subst hsame
  obtain ⟨hr, -, -⟩ := reserveAtBack_hasRoom hs Nat.one_pos hroom
  have hspan : s₁.object.span o s₁.object.startOff (s₁.object.finishOff + 1)
      = s₁.object.nodes o := by
    rw [Members.Valid.nodes_eq hsimple.1, Members.span, Members.span, hnode]
  have hmem : s₁.object.finishOff ∈ slotsOf o.blockSize
      (s₁.object.span o s₁.object.startOff (s₁.object.finishOff + 1)) :=
    hr.Icc_subset_span hv.start_le (by omega) ⟨le_rfl, le_rfl⟩
  have hrun : emplaceBack o rot e v s₁ = (do
      let p ← elementIn o s₁.object.map s₁.object.finishOff
      construct e p (.value v)
      setObject (Members.protIncFinish o 1)) s₁ := congrFun (if_pos hsimple) s₁
  rw [hrun, elementIn_bind hr.written hmem]
  have hsmall := @OwnsVia.restrict _ _ _ _ _ _ (slotsOf o.blockSize
    (s₁.object.span o s₁.object.startOff (s₁.object.finishOff + 1)) \ s₁.object.elements) _ _ _ _
      hr.owns
    Set.sdiff_subset
  rw [Set.inter_sdiff_self] at hsmall
  refine Prog.bind_meets_of_throws ?_
  have hfree : s₁.object.finishOff ∈ slotsOf o.blockSize
      (s₁.object.span o s₁.object.startOff (s₁.object.finishOff + 1)) \ s₁.object.elements :=
    ⟨hmem, fun h => absurd h.2 (lt_irrefl _)⟩
  have hval : (Source.value v).Readable (addrIn o s₁.object.map '' ∅) := trivial
  refine (takes_construct.meets (construct_via hfree (Set.notMem_empty _) hval) s₁
    ⟨hsmall, rfl⟩).imp (fun _ _ hq => hq.2 hb) (fun s' hs' => ?_)
  refine hr.undone hs ?_ subset_rfl hs'.1
  rw [hspan]
  exact Set.sdiff_union_of_subset hv.elements_subset

/-- When the cleanup of an insertion at the back is right. -/
theorem cleanupFits_back_iff {single : Bool} {x i : ℕ} (hi : i < n)
    (hf : e.fuse = some (j + i)) :
    CleanupFits o e single x n j
      ↔ e.trivialDestructor = true ∨ single = true ∨ x % o.blockSize = 0
        ∨ o.blockSize - x % o.blockSize ≤ i := by
  have hfirst : ¬ i < min n (o.blockSize - x % o.blockSize)
      ↔ o.blockSize - x % o.blockSize ≤ i := by
    omega
  rw [CleanupFits, blows_iff hf, hfirst]
  tauto

/-- `insert` at the end. -/
theorem insertAux_back (proxy : InsertProxy α) {i : ℕ} (h : i = s.object.protSize) :
    privInsertAuxImpl o rot e i proxy s = privInsertBackAuxImpl o rot e proxy s :=
  congrFun (if_pos h : (if i = s.object.protSize then
    privInsertBackAuxImpl o rot e proxy else _) = _) s

/-- **The strong guarantee of insertion at the back** holds if and only if the new
elements of the first block need no cleanup: the last block is empty or full
but for the sentinel's place, or it is filled before the exception, or there is
one element only, or nothing has to be destroyed. -/
theorem backInsertion_undone_iff (hs : Sound o e.trivialDestructor s) (c : BackInsertion α)
    {i : ℕ} (hi : i < c.proxy.size) (hfuse : e.fuse = some (s.ops + i))
    (hroom : privReserveElementsAtBack o rot e c.proxy.size s = .done () s₁) :
    (c.run o rot e s).Meets (fun _ _ => False) (Undone o e.trivialDestructor s s₁)
      ↔ e.trivialDestructor = true ∨ c.proxy.single = true
        ∨ s.object.finishOff % o.blockSize = 0
        ∨ o.blockSize - s.object.finishOff % o.blockSize ≤ i := by
  have hsize : 0 < c.proxy.size := by omega
  have hb : e.Blows s.ops c.proxy.size := (blows_iff hfuse).mpr hi
  obtain ⟨hr, hmod, hops⟩ := reserveAtBack_hasRoom hs hsize hroom
  rw [← hmod, ← cleanupFits_back_iff hi (hops.symm ▸ hfuse)]
  cases c with
  | insert proxy =>
    have hrun : (BackInsertion.insert proxy).run o rot e s
        = (privInsertAuxImpl o rot e s.object.protSize proxy >>= fun _ => pure ()) s := rfl
    rw [hrun, Prog.bind_pure_meets_iff, insertAux_back proxy rfl]
    exact insertBack_undone_iff hs proxy hsize hb hroom
  | emplaceBack v =>
    by_cases hsimple : s.object.map ≠ [] ∧ s.object.finishOff % o.blockSize ≠ o.blockSize - 1
    · exact iff_of_true (emplaceBack_undone hs hsimple hb hroom) (Or.inl rfl)
    · have hrun : (BackInsertion.emplaceBack v).run o rot e s
          = (privInsertBackAuxImpl o rot e (.emplace v) >>= fun _ => pure ()) s :=
        congrFun (if_neg hsimple) s
      rw [hrun, Prog.bind_pure_meets_iff]
      exact insertBack_undone_iff hs _ hsize hb hroom

theorem backInsertion_undone_empty :
    ((BackInsertion.insert (.range [7, 8])).run .fours .parts (throwingAt 1)
      (oneBlock .fours 100 0 0 5)).Meets (fun _ _ => False)
      (Undone .fours false (oneBlock .fours 100 0 0 5) (oneBlock .fours 100 0 0 5)) :=
  (backInsertion_undone_iff (i := 1) (sound_fours le_rfl (by decide))
    (.insert (.range [7, 8])) (by decide) rfl rfl).mpr (Or.inr (Or.inr (Or.inl rfl)))

/-- Two elements are appended to one, and the second throws. -/
theorem not_backInsertion_undone :
    Sound .fours false (oneBlock .fours 100 0 1 5)
      ∧ ¬ ((BackInsertion.insert (.range [7, 8])).run .fours .parts (throwingAt 1)
        (oneBlock .fours 100 0 1 5)).Meets (fun _ _ => False)
        (Undone .fours false (oneBlock .fours 100 0 1 5) (oneBlock .fours 100 0 1 5)) := by
  have hs : Sound .fours false (oneBlock .fours 100 0 1 5) := sound_fours (by decide) (by decide)
  refine ⟨hs, fun h => ?_⟩
  have hrun : (BackInsertion.insert (.range [7, 8])).run .fours .parts (throwingAt 1)
      (oneBlock .fours 100 0 1 5) = (privInsertAuxImpl .fours .parts (throwingAt 1) 1
        (.range [7, 8]) >>= fun _ => pure ()) (oneBlock .fours 100 0 1 5) := rfl
  have hlen : 1 = (oneBlock .fours 100 0 1 5).object.protSize := rfl
  rw [hrun, Prog.bind_pure_meets_iff, insertAux_back _ hlen] at h
  have hfuse : (throwingAt 1).fuse = some (0 + 1) := rfl
  have hfit := (insertBack_undone_iff (e := throwingAt 1) hs (.range [7, 8]) (by decide)
    ((blows_iff hfuse).mpr (by decide)) rfl).mp h
  exact absurd ((cleanupFits_back_iff (n := 2) (i := 1) (by decide) hfuse).mp hfit) (by decide)

/-! ## The front -/

/-- Nodes that are deallocated are gone. -/
theorem protDeallocateNodesLoop_permits {map : List (Option ℕ)}
  (hw : Written map (Set.Ico a (a + n)))
    (s : State Members α) : (protDeallocateNodesLoop o map a n s).Permits
      (fun _ u => (∀ q, s.heap q = none → u.heap q = none)
        ∧ ∀ i ∈ Set.Ico a (a + n), ∀ x < o.blockSize, u.heap (nodeOf map i + x) = none)
      (fun _ => True) := by
  induction n generalizing a s with
  | zero => exact ⟨fun _ hq => hq, fun i hi => absurd hi.2 (by have := hi.1; omega)⟩
  | succ n ih =>
    have hmem : a ∈ Set.Ico a (a + (n + 1)) := ⟨le_rfl, by omega⟩
    rw [protDeallocateNodesLoop, nodeIn_bind hw hmem]
    by_cases hall : ∀ x < o.blockSize, (s.heap (nodeOf map a + x)).isSome
    · have hrun : protDeallocateNode o (nodeOf map a) s
          = .done () { s with heap := setRange s.heap (nodeOf map a) o.blockSize none } :=
        if_pos hall
      rw [Prog.bind_of_done hrun]
      have hin : ∀ q ∈ Set.Ico (nodeOf map a) (nodeOf map a + o.blockSize),
          setRange s.heap (nodeOf map a) o.blockSize none q = none := fun q hq => if_pos hq
      refine (ih (hw.mono (Set.Ico_subset_Ico (by omega) (by omega))) _).imp
        (fun _ u hu => ⟨fun q hq => hu.1 q ?_, fun i hi x hx => ?_⟩) (fun _ => id)
      · show setRange s.heap (nodeOf map a) o.blockSize none q = none
        rw [setRange]
        split
        · rfl
        · exact hq
      · rcases Nat.eq_or_lt_of_le hi.1 with rfl | h
        · exact hu.1 _ (hin _ ⟨by omega, by omega⟩)
        · exact hu.2 i ⟨by omega, by have := hi.2; omega⟩ x hx
    · have hrun : protDeallocateNode o (nodeOf map a) s = .undefined := if_neg hall
      rw [Prog.bind_of_undefined hrun]
      trivial

/-- Offsets of one block. -/
theorem sub_div_of_le_mod {bs x : ℕ} (hbs : 0 < bs) (h : m ≤ x % bs) : (x - m) / bs = x / bs := by
  have hdm := Nat.div_add_mod x bs
  have hlt := Nat.mod_lt x hbs
  rw [show x - m = bs * (x / bs) + (x % bs - m) by omega, Nat.mul_add_div hbs,
    Nat.div_eq_of_lt (show x % bs - m < bs by omega), Nat.add_zero]

/-- **An insertion at the front that throws**, in terms of its cleanup. -/
theorem insertFront_undone_iff (hs : Sound o e.trivialDestructor s) (hse : o.singleEnded = false)
    (proxy : InsertProxy α) (hsize : 0 < proxy.size) (hb : e.Blows s.ops proxy.size)
    (hroom : privReserveElementsAtFront o rot e proxy.size s = .done () s₁) :
    (privInsertFrontAuxImpl o rot e proxy s).Meets (fun _ _ => False)
        (Undone o e.trivialDestructor s s₁)
      ↔ CleanupFits o e proxy.single (s₁.object.startOff - proxy.size) proxy.size s₁.ops
        ∧ (o.reservable = true ∨ proxy.size ≤ s₁.object.startOff % o.blockSize) := by
  have hbs := o.blockSize_pos
  obtain ⟨hr, hn, -, hops⟩ := reserveAtFront_hasRoom hs hse hsize hroom
  have hrun : privInsertFrontAuxImpl o rot e proxy s = (do
      privInsertSegmentedUninitializedCopyNAndUpdate o e proxy.single s₁.object.map
        (s₁.object.startOff - proxy.size) proxy.constructed
      setObject (Members.decStart o proxy.size)
      pure (s₁.object.startOff - proxy.size)) s₁ := Prog.bind_of_done hroom
  have hlast : s₁.object.startOff - proxy.size + proxy.constructed.length = s₁.object.startOff :=
    Nat.sub_add_cancel hn
  have hle := hr.valid.start_le
  have hnode : Set.Icc ((s₁.object.startOff - proxy.size) / o.blockSize)
      ((s₁.object.startOff - proxy.size + proxy.constructed.length) / o.blockSize)
      ⊆ s₁.object.span o (s₁.object.startOff - proxy.size) s₁.object.finishOff := by
    rw [hlast]
    exact hr.Icc_subset_span le_rfl hle
  have hin : Set.Ico (s₁.object.startOff - proxy.size)
      (s₁.object.startOff - proxy.size + proxy.constructed.length) ⊆ slotsOf o.blockSize
        (s₁.object.span o (s₁.object.startOff - proxy.size) s₁.object.finishOff) :=
    Ico_subset_slotsOf hnode
  have hd : Disjoint s₁.object.elements (Set.Ico (s₁.object.startOff - proxy.size)
      (s₁.object.startOff - proxy.size + proxy.constructed.length)) := by
    rw [hlast]
    exact Set.disjoint_left.mpr (fun x hx hx' => absurd hx.1 (by have := hx'.2; omega))
  have hdm := Nat.div_add_mod s₁.object.startOff o.blockSize
  rw [hrun]
  constructor
  · intro h
    by_cases hfit : CleanupFits o e proxy.single (s₁.object.startOff - proxy.size) proxy.size s₁.ops
    · refine ⟨hfit, ?_⟩
      by_contra hnot
      rw [not_or] at hnot
      -- the node that the elements start in is one of those that are freed
      have hstart : s₁.object.startOff / o.blockSize
          ∈ Set.Ico ((s₁.object.startOff - proxy.size) / o.blockSize + 1)
            (s₁.object.startOff / o.blockSize + 1) := by
        refine ⟨Nat.succ_le_of_lt ?_, Nat.lt_succ_self _⟩
        rw [Nat.div_lt_iff_lt_mul hbs, Nat.mul_comm]
        omega
      have hcopy := privSegmentedProxyUninitializedCopyNAndUpdate_via (o := o) (e := e)
        (hr.written.mono hnode) hin hd
        (fun src hsrc => (proxy.readable_constructed src hsrc).mono (Set.empty_subset _))
        proxy.single_size hfit s₁ ⟨hr.owns, rfl⟩
      have hfreed : Set.Ico ((s₁.object.startOff - proxy.size) / o.blockSize + 1)
          (s₁.object.startOff / o.blockSize + 1)
          ⊆ s₁.object.span o (s₁.object.startOff - proxy.size) s₁.object.finishOff := by
        rw [hlast] at hnode
        exact fun i hi => hnode ⟨by have := hi.1; omega, by have := hi.2; omega⟩
      have hgone : (privInsertSegmentedUninitializedCopyNAndUpdate o e proxy.single s₁.object.map
          (s₁.object.startOff - proxy.size) proxy.constructed s₁).Permits (fun _ _ => True)
          (fun u => u.heap (addrIn o s₁.object.map s₁.object.startOff) = none) := by
        refine Prog.onThrow_permits (F := fun u => u.object = s₁.object)
          (hcopy.imp (fun _ _ _ => trivial) (fun u hu => hu.1.owns.object_eq)).permits
          (fun u hu => ?_)
        rw [hlast, protDeallocateNodesIfNotReservable, if_neg hnot.1]
        show (protDeallocateNodesLoop o u.object.map _ _ u).Permits _ _
        rw [hu]
        have hlen := Nat.add_sub_cancel' (hstart.1.trans hstart.2.le)
        refine (protDeallocateNodesLoop_permits (hr.written.mono ?_) u).imp
          (fun _ v hv => hv.2 _ ?_ _ (Nat.mod_lt _ hbs)) (fun _ => id)
        · rw [hlen]
          exact hfreed
        · rw [hlen]
          exact hstart
      obtain ⟨u, hu, hnone⟩ := h.elim_of_permits (Prog.bind_permits hgone (fun _ _ _ => trivial))
      have hmem : s₁.object.startOff ∈ s₁.object.slots o :=
        hr.valid.mem_nodes hr.null le_rfl hr.valid.node_le
      have hpres := hu.holds.owns.owns.present (addrIn o s₁.object.map s₁.object.startOff)
      rw [hu.object_eq] at hpres
      exact hpres (Set.mem_image_of_mem _ hmem) hnone
    · have hundef := privSegmentedProxyUninitializedCopyNAndUpdate_undefined (hr.written.mono hnode)
        hin hd (fun src hsrc => (proxy.readable_constructed src hsrc).mono (Set.empty_subset _))
        hfit hr.owns rfl
      have hcall : privInsertSegmentedUninitializedCopyNAndUpdate o e proxy.single s₁.object.map
          (s₁.object.startOff - proxy.size) proxy.constructed s₁ = .undefined :=
        Prog.onThrow_of_undefined hundef
      rw [Prog.bind_of_undefined hcall] at h
      exact h.elim
  · rintro ⟨hfit, hres⟩
    refine Prog.bind_meets_of_throws (hr.rollback hs
      (fun x hx => ⟨hin hx, fun hx' => Set.disjoint_left.mp hd hx' hx⟩) hnode (fun hf => ?_)
      proxy.readable_constructed proxy.single_size hfit (hops ▸ hb))
    have hsame : (s₁.object.startOff - proxy.size) / o.blockSize
        = s₁.object.startOff / o.blockSize :=
      sub_div_of_le_mod hbs (hres.resolve_left (by rw [hf]; exact Bool.false_ne_true))
    rw [hlast, hsame, Set.Ico_self, Set.sdiff_empty, Members.nodes_eq_Icc _ hf hr.null,
      Members.span, if_neg (by rw [hf]; decide), hsame]
    rfl

/-- `emplace_front` where the first block has room. -/
theorem emplaceFront_undone (hs : Sound o e.trivialDestructor s) (hse : o.singleEnded = false)
    {v : α} (hsimple : s.object.startOff % o.blockSize ≠ 0) (hb : e.Blows s.ops 1)
    (hroom : privReserveElementsAtFront o rot e 1 s = .done () s₁) :
    (emplaceFront o rot e v s).Meets (fun _ _ => False) (Undone o e.trivialDestructor s s₁) := by
  have hbs := o.blockSize_pos
  have hmod := Nat.mod_lt s.object.startOff hbs
  have hdm := Nat.div_add_mod s.object.startOff o.blockSize
  have hv := hs.holds.valid
  have hne : s.object.map ≠ [] := by
    intro h
    rw [hv.start_eq_zero h, Nat.zero_mod] at hsimple
    exact hsimple rfl
  have hprev : s.object.startOff - 1
      = s.object.startOff / o.blockSize * o.blockSize + (s.object.startOff % o.blockSize - 1) := by
    rw [Nat.mul_comm]
    omega
  have hlt : s.object.startOff % o.blockSize - 1 < o.blockSize := by omega
  have hnode : (s.object.startOff - 1) / o.blockSize = s.object.startOff / o.blockSize := by
    rw [hprev, Nat.mul_comm, Nat.mul_add_div hbs, Nat.div_eq_of_lt hlt, Nat.add_zero]
  -- the reservation has nothing to do
  have hvac : ¬ 1 > s.object.protFrontFreeCapacity o := by
    rw [Members.protFrontFreeCapacity]
    split <;> omega
  have hsame : s₁ = s := by
    have hdone : privReserveElementsAtFront o rot e 1 s = .done () s :=
      congrFun (if_neg hvac : (if 1 > s.object.protFrontFreeCapacity o then _ else pure ())
        = (pure () : Prog (State Members α) Unit)) s
    rw [hdone] at hroom
    exact (Outcome.done.inj hroom).2.symm
  subst hsame
  obtain ⟨hr, -, -⟩ := reserveAtFront_hasRoom hs hse Nat.one_pos hroom
  have hspan : s₁.object.span o (s₁.object.startOff - 1) s₁.object.finishOff
      = s₁.object.nodes o := by
    rw [Members.Valid.nodes_eq hne, Members.span, Members.span, hnode]
  have hstart : s₁.object.startOff / o.blockSize
      ∈ s₁.object.span o (s₁.object.startOff - 1) s₁.object.finishOff :=
    hr.Icc_subset_span (Nat.sub_le _ _) hv.start_le ⟨le_rfl, le_rfl⟩
  have haddr : nodeOf s₁.object.map (s₁.object.startOff / o.blockSize)
      + (s₁.object.startOff % o.blockSize - 1)
      = addrIn o s₁.object.map (s₁.object.startOff - 1) := by
    rw [hprev]
    exact (blockAddr_mul_add hlt).symm
  have hrun : emplaceFront o rot e v s₁ = (do
      let p ← nodeIn s₁.object.map (s₁.object.startOff / o.blockSize)
      construct e (p + (s₁.object.startOff % o.blockSize - 1)) (.value v)
      setObject (Members.decStart o 1)) s₁ := congrFun (if_pos hsimple) s₁
  rw [hrun, nodeIn_bind hr.written hstart, haddr]
  have hsmall := @OwnsVia.restrict _ _ _ _ _ _ (slotsOf o.blockSize
    (s₁.object.span o (s₁.object.startOff - 1) s₁.object.finishOff) \ s₁.object.elements) _ _ _ _
      hr.owns
    Set.sdiff_subset
  rw [Set.inter_sdiff_self] at hsmall
  refine Prog.bind_meets_of_throws ?_
  have hfree : s₁.object.startOff - 1 ∈ slotsOf o.blockSize
      (s₁.object.span o (s₁.object.startOff - 1) s₁.object.finishOff) \ s₁.object.elements := by
    refine ⟨?_, fun h => absurd h.1 (by omega)⟩
    rw [mem_slotsOf, hnode]
    exact hstart
  have hval : (Source.value v).Readable (addrIn o s₁.object.map '' ∅) := trivial
  refine (takes_construct.meets (construct_via hfree (Set.notMem_empty _) hval) s₁
    ⟨hsmall, rfl⟩).imp (fun _ _ hq => hq.2 hb) (fun s' hs' => ?_)
  refine hr.undone hs ?_ subset_rfl hs'.1
  rw [hspan]
  exact Set.sdiff_union_of_subset hv.elements_subset

/-- **An insertion at the front**: of one element, or of what a proxy gives. -/
inductive FrontInsertion (α : Type*)
  | emplaceFront (v : α)
  | insert (proxy : InsertProxy α)

namespace FrontInsertion

variable {α : Type*}

/-- What is inserted. -/
def proxy : FrontInsertion α → InsertProxy α
  | emplaceFront v => .emplace v
  | insert proxy => proxy

/-- The call. -/
def run (o : Options) (rot : Rotation) (e : Env α) :
    FrontInsertion α → Prog (State Members α) Unit
  | emplaceFront v => DequeImpl.emplaceFront o rot e v
  | insert proxy => do
    let _ ← privInsertAuxImpl o rot e 0 proxy
    pure ()

/-- An insertion into a deque without elements is one at its back. -/
def atBack (k : Members) : FrontInsertion α → Bool
  | emplaceFront _ => false
  | insert _ => k.protSize == 0

/-- The part of the call that makes room. -/
def reserve (o : Options) (rot : Rotation) (e : Env α) (c : FrontInsertion α) (k : Members) :
    Prog (State Members α) Unit :=
  if c.atBack k then privReserveElementsAtBack o rot e c.proxy.size
  else privReserveElementsAtFront o rot e c.proxy.size

/-- How many of the elements fit before the start of a deque, in its block. -/
def fitting (o : Options) (c : FrontInsertion α) (k : Members) : ℕ :=
  (if k.map = [] then c.proxy.size else k.startOff) % o.blockSize

/-- **When an insertion at the front is undone.** No node may be freed: all elements
fit before the start in its block, or the nodes are kept anyway. And the first
of the blocks may need no cleanup, or be filled before the exception. -/
def Undoes (o : Options) (e : Env α) (c : FrontInsertion α) (k : Members) (i : ℕ) : Prop :=
  if c.atBack k then
    e.trivialDestructor = true ∨ c.proxy.single = true ∨ k.finishOff % o.blockSize = 0
      ∨ o.blockSize - k.finishOff % o.blockSize ≤ i
  else
    (o.reservable = true ∨ c.proxy.size ≤ c.fitting o k)
      ∧ (e.trivialDestructor = true ∨ c.proxy.single = true ∨ c.proxy.size = c.fitting o k
        ∨ c.fitting o k < c.proxy.size
          ∧ (c.proxy.size - c.fitting o k) % o.blockSize ≤ i)

end FrontInsertion

/-- Offsets before that of a start. -/
theorem sub_mod_front {bs x : ℕ} (hbs : 0 < bs) (hn : n ≤ x) (h : x % bs < n) :
    (x - n) % bs = 0 ∧ (n - x % bs) % bs = 0
      ∨ (x - n) % bs = bs - (n - x % bs) % bs ∧ 0 < (n - x % bs) % bs := by
  have h1 := Nat.div_add_mod x bs
  have h2 := Nat.div_add_mod (n - x % bs) bs
  have h3 := Nat.mod_lt (n - x % bs) hbs
  have hle : bs * ((n - x % bs) / bs) + (n - x % bs) % bs ≤ bs * (x / bs) := by omega
  rcases Nat.eq_zero_or_pos ((n - x % bs) % bs) with h0 | hpos
  · refine Or.inl ⟨?_, h0⟩
    rw [show x - n = bs * (x / bs) - bs * ((n - x % bs) / bs) by omega, ← Nat.mul_sub,
      Nat.mul_mod_right]
  · refine Or.inr ⟨?_, hpos⟩
    have hlt : (n - x % bs) / bs < x / bs := by
      by_contra hge
      have := Nat.mul_le_mul_left bs (Nat.le_of_not_lt hge)
      omega
    have hmul : bs * (x / bs - (n - x % bs) / bs - 1) + bs
        = bs * (x / bs) - bs * ((n - x % bs) / bs) := by
      rw [← Nat.mul_succ, ← Nat.mul_sub]
      congr 1
      omega
    rw [show x - n = bs * (x / bs - (n - x % bs) / bs - 1) + (bs - (n - x % bs) % bs) by omega,
      Nat.mul_add_mod, Nat.mod_eq_of_lt (by omega)]

/-- When the cleanup of an insertion at the front is right. -/
theorem cleanupFits_front_iff {single : Bool} {x i : ℕ} (hn : n ≤ x) (hi : i < n)
    (hf : e.fuse = some (j + i)) :
    CleanupFits o e single (x - n) n j
      ↔ e.trivialDestructor = true ∨ single = true ∨ n = x % o.blockSize
        ∨ x % o.blockSize < n ∧ (n - x % o.blockSize) % o.blockSize ≤ i := by
  have hbs := o.blockSize_pos
  have hmod : ((x - n) % o.blockSize = 0
      ∨ ¬ i < min n (o.blockSize - (x - n) % o.blockSize))
      ↔ (n = x % o.blockSize
        ∨ x % o.blockSize < n ∧ (n - x % o.blockSize) % o.blockSize ≤ i) := by
    rcases Nat.lt_or_ge (x % o.blockSize) n with h | h
    · have hle : (n - x % o.blockSize) % o.blockSize ≤ n - x % o.blockSize := Nat.mod_le _ _
      have hlt := Nat.mod_lt (n - x % o.blockSize) hbs
      rcases sub_mod_front hbs hn h with ⟨h₁, h₂⟩ | ⟨h₁, h₂⟩
      · rw [h₁, h₂]
        omega
      · rw [h₁]
        omega
    · have hdm := Nat.div_add_mod x o.blockSize
      have hlt := Nat.mod_lt x hbs
      have heq : (x - n) % o.blockSize = x % o.blockSize - n := by
        rw [show x - n = o.blockSize * (x / o.blockSize) + (x % o.blockSize - n) by omega,
          Nat.mul_add_mod, Nat.mod_eq_of_lt (show x % o.blockSize - n < o.blockSize by omega)]
      rw [heq]
      omega
  rw [CleanupFits, blows_iff hf, hmod]
  tauto

/-- **The strong guarantee of insertion at the front** holds if and only if the
cleanup frees no node of the elements, and destroys no more than was
constructed. -/
theorem frontInsertion_undone_iff (hs : Sound o e.trivialDestructor s)
    (hse : o.singleEnded = false) (c : FrontInsertion α) {i : ℕ} (hi : i < c.proxy.size)
    (hfuse : e.fuse = some (s.ops + i))
    (hroom : c.reserve o rot e s.object s = .done () s₁) :
    (c.run o rot e s).Meets (fun _ _ => False) (Undone o e.trivialDestructor s s₁)
      ↔ c.Undoes o e s.object i := by
  have hsize : 0 < c.proxy.size := by omega
  have hb : e.Blows s.ops c.proxy.size := (blows_iff hfuse).mpr hi
  by_cases hat : c.atBack s.object = true
  · rw [FrontInsertion.reserve, if_pos hat] at hroom
    rw [FrontInsertion.Undoes, if_pos hat]
    obtain ⟨-, hmod, hops⟩ := reserveAtBack_hasRoom hs hsize hroom
    rw [← hmod, ← cleanupFits_back_iff hi (hops.symm ▸ hfuse)]
    cases c with
    | emplaceFront v => exact absurd hat Bool.false_ne_true
    | insert proxy =>
      have h0 : 0 = s.object.protSize := (beq_iff_eq.mp hat).symm
      have hrun : (FrontInsertion.insert proxy).run o rot e s
          = (privInsertAuxImpl o rot e 0 proxy >>= fun _ => pure ()) s := rfl
      rw [hrun, Prog.bind_pure_meets_iff, insertAux_back proxy h0]
      exact insertBack_undone_iff hs proxy hsize hb hroom
  · rw [FrontInsertion.reserve, if_neg hat] at hroom
    rw [FrontInsertion.Undoes, if_neg hat]
    obtain ⟨-, hn, hmod, hops⟩ := reserveAtFront_hasRoom hs hse hsize hroom
    have hfit : c.fitting o s.object = s₁.object.startOff % o.blockSize := hmod.symm
    rw [hfit, ← cleanupFits_front_iff hn hi (hops.symm ▸ hfuse), and_comm]
    cases c with
    | insert proxy =>
      have h0 : ¬ 0 = s.object.protSize := fun h => hat (beq_iff_eq.mpr h.symm)
      have hrun : (FrontInsertion.insert proxy).run o rot e s
          = (privInsertAuxImpl o rot e 0 proxy >>= fun _ => pure ()) s := rfl
      have haux : privInsertAuxImpl o rot e 0 proxy s = privInsertFrontAuxImpl o rot e proxy s :=
        congrFun ((if_neg h0).trans (if_pos ⟨hse, rfl⟩) : (if 0 = s.object.protSize then
          privInsertBackAuxImpl o rot e proxy else if o.singleEnded = false ∧ 0 = 0 then
          privInsertFrontAuxImpl o rot e proxy else _) = _) s
      rw [hrun, Prog.bind_pure_meets_iff, haux]
      exact insertFront_undone_iff hs hse proxy hsize hb hroom
    | emplaceFront v =>
      by_cases hsimple : s.object.startOff % o.blockSize ≠ 0
      · refine iff_of_true (emplaceFront_undone hs hse hsimple hb hroom) ⟨Or.inl rfl, Or.inr ?_⟩
        have hne : s.object.map ≠ [] := by
          intro h
          rw [hs.holds.valid.start_eq_zero h, Nat.zero_mod] at hsimple
          exact hsimple rfl
        rw [hmod, if_neg hne]
        exact Nat.pos_of_ne_zero hsimple
      · have hrun : (FrontInsertion.emplaceFront v).run o rot e s
            = (privInsertFrontAuxImpl o rot e (.emplace v) >>= fun _ => pure ()) s :=
          congrFun (if_neg hsimple) s
        rw [hrun, Prog.bind_pure_meets_iff]
        exact insertFront_undone_iff hs hse _ hsize hb hroom

theorem frontInsertion_undone_fitting :
    ((FrontInsertion.insert (.range [7, 8])).run .fours .parts (throwingAt 1)
      (oneBlock .fours 100 2 3 5)).Meets (fun _ _ => False)
      (Undone .fours false (oneBlock .fours 100 2 3 5) (oneBlock .fours 100 2 3 5)) :=
  (frontInsertion_undone_iff (i := 1) (sound_fours (by decide) (by decide)) rfl
    (.insert (.range [7, 8])) (by decide) rfl rfl).mpr
    ⟨Or.inr (by decide), Or.inr (Or.inr (Or.inl rfl))⟩

/-- One element is pushed before another that starts its block, and throws: the
block of the old element is freed. -/
theorem not_frontInsertion_undone :
    Sound .fours false (oneBlock .fours 100 0 1 5) ∧ ∃ s₁,
      privReserveElementsAtFront .fours .parts (throwingAt 0) 1 (oneBlock .fours 100 0 1 5)
          = .done () s₁
        ∧ ¬ ((FrontInsertion.emplaceFront 7).run .fours .parts (throwingAt 0)
          (oneBlock .fours 100 0 1 5)).Meets (fun _ _ => False)
          (Undone .fours false (oneBlock .fours 100 0 1 5) s₁) := by
  have hs : Sound .fours false (oneBlock .fours 100 0 1 5) := sound_fours (by decide) (by decide)
  refine ⟨hs, _, rfl, fun h => ?_⟩
  have hrun : (FrontInsertion.emplaceFront 7).run .fours .parts (throwingAt 0)
      (oneBlock .fours 100 0 1 5) = (privInsertFrontAuxImpl .fours .parts (throwingAt 0)
        (.emplace 7) >>= fun _ => pure ()) (oneBlock .fours 100 0 1 5) := rfl
  rw [hrun, Prog.bind_pure_meets_iff] at h
  have hfuse : (throwingAt 0).fuse = some (0 + 0) := rfl
  have hkept := ((insertFront_undone_iff (e := throwingAt 0) hs rfl (.emplace 7) (by decide)
    ((blows_iff hfuse).mpr (by decide)) rfl).mp h).2
  exact absurd hkept (by decide)

end DequeImpl
