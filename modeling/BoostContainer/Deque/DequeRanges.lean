import BoostContainer.Deque.DequeImpl

/-!
# Ranges of elements of a deque

What the loops over elements do, told by offsets. A cleanup that destroys a
range does so up to the start of a block; it is right where the range starts
before that, or is empty, and where it starts inside that very block it runs
past its end.
-/

open Slots

namespace DequeImpl

variable {α : Type*} {o : Options} {e : Env α} {t : Bool} {s₀ s : State Members α}
  {S₀ own live : Set ℕ} {k : Members} {map : List (Option ℕ)} {N : Set ℕ}
  {a b i j n off first start finish : ℕ} {srcs : List (Source α)}

/-- An element of a node that is there is found. -/
theorem elementIn_bind {β : Type} (h : Written map N) (hoff : off ∈ slotsOf o.blockSize N)
    (c : ℕ → Prog (State Members α) β) : elementIn o map off >>= c = c (addrIn o map off) := by
  obtain ⟨p, hp⟩ := h _ hoff
  rw [addrIn, blockAddr, elementIn, nodeIn, nodeOf, hp]
  rfl

/-! ## Ranges that are destroyed -/

/-- Part of a block. -/
theorem Ico_block (h : b ≤ o.blockSize) (hab : a ≤ b) :
    ∀ j < b - a, addrIn o map (i * o.blockSize + a + j) = nodeOf map i + a + j := by
  intro j hj
  rw [Nat.add_assoc, addrIn, blockAddr_mul_add (by omega), Nat.add_assoc]

theorem protDestroySegment_via (h : b ≤ o.blockSize) (hab : a ≤ b)
    (hl : Set.Ico (i * o.blockSize + a) (i * o.blockSize + b) ⊆ live) :
    Prog.Meets (OwnsVia e.trivialDestructor s₀ S₀ k (addrIn o map) own live)
      (protDestroySegment e (nodeOf map i) a b)
      (fun _ => OwnsVia e.trivialDestructor s₀ S₀ k (addrIn o map) own
        (live \ Set.Ico (i * o.blockSize + a) (i * o.blockSize + b))) (fun _ => False) := by
  have hlen : i * o.blockSize + a + (b - a) = i * o.blockSize + b := by omega
  refine Prog.Meets.ite (fun ht => ?_) (fun _ => ?_)
  · refine Prog.meets_pure (fun s hs => hs.forget Set.sdiff_subset (fun hf => ?_))
    rw [ht] at hf
    exact absurd hf.symm Bool.false_ne_true
  · rw [if_pos hab]
    refine (destroyN_via (Ico_block h hab) (hlen ▸ hl)).post (fun _ s hs => ?_)
    rwa [hlen] at hs

theorem destroyNodes_via (hw : Written map (Set.Ico a (a + n)))
    (hl : slotsOf o.blockSize (Set.Ico a (a + n)) ⊆ live) :
    Prog.Meets (OwnsVia e.trivialDestructor s₀ S₀ k (addrIn o map) own live)
      (destroyNodes o e map a n)
      (fun _ => OwnsVia e.trivialDestructor s₀ S₀ k (addrIn o map) own
        (live \ slotsOf o.blockSize (Set.Ico a (a + n)))) (fun _ => False) := by
  induction n generalizing a live with
  | zero =>
    refine Prog.meets_pure (fun s hs => hs.congr rfl ?_)
    rw [Nat.add_zero, Set.Ico_self, slotsOf_empty, Set.sdiff_empty]
  | succ n ih =>
    have hbs := o.blockSize_pos
    have hmem : a ∈ Set.Ico a (a + (n + 1)) := ⟨le_rfl, by omega⟩
    have hsub : Set.Ico (a + 1) (a + 1 + n) ⊆ Set.Ico a (a + (n + 1)) :=
      Set.Ico_subset_Ico (by omega) (by omega)
    have hone : slotsOf o.blockSize {a} ⊆ slotsOf o.blockSize (Set.Ico a (a + (n + 1))) :=
      slotsOf_mono (Set.singleton_subset_iff.mpr hmem)
    have hseg : Set.Ico (a * o.blockSize + 0) (a * o.blockSize + o.blockSize)
        = slotsOf o.blockSize {a} := by
      rw [Nat.add_zero, slotsOf_singleton hbs]
    rw [destroyNodes, nodeIn_bind hw hmem]
    refine Prog.Meets.bind (protDestroySegment_via le_rfl (Nat.zero_le _)
      (hseg ▸ hone.trans hl)) (fun _ => ?_)
    rw [hseg]
    have hl' : slotsOf o.blockSize (Set.Ico (a + 1) (a + 1 + n))
        ⊆ live \ slotsOf o.blockSize {a} := by
      refine fun y hy => ⟨hl (slotsOf_mono hsub hy), fun h => ?_⟩
      have h1 : a + 1 ≤ y / o.blockSize := hy.1
      have h2 : y / o.blockSize = a := h
      omega
    refine (ih (hw.mono hsub) hl').post (fun _ s hs => hs.congr rfl ?_)
    rw [Set.sdiff_sdiff, ← slotsOf_union]
    congr 2
    ext i
    simp only [Set.mem_union, Set.mem_singleton_iff, Set.mem_Ico]
    omega

/-- **A range is destroyed.** -/
theorem protDestroyRange_via
    (hw : Written map (Set.Icc (start / o.blockSize) (finish / o.blockSize)))
    (hle : start ≤ finish) (hl : Set.Ico start finish ⊆ live) :
    Prog.Meets (OwnsVia e.trivialDestructor s₀ S₀ k (addrIn o map) own live)
      (protDestroyRange o e map start finish)
      (fun _ => OwnsVia e.trivialDestructor s₀ S₀ k (addrIn o map) own
        (live \ Set.Ico start finish)) (fun _ => False) := by
  have hbs := o.blockSize_pos
  have hnode : start / o.blockSize ≤ finish / o.blockSize := Nat.div_le_div_right hle
  have hs₁ : start / o.blockSize ∈ Set.Icc (start / o.blockSize) (finish / o.blockSize) :=
    ⟨le_rfl, hnode⟩
  have hf₁ : finish / o.blockSize ∈ Set.Icc (start / o.blockSize) (finish / o.blockSize) :=
    ⟨hnode, le_rfl⟩
  have hsd := Nat.div_add_mod start o.blockSize
  have hfd := Nat.div_add_mod finish o.blockSize
  have hsm := Nat.mod_lt start hbs
  have hfm := Nat.mod_lt finish hbs
  rw [Nat.mul_comm] at hsd hfd
  refine Prog.Meets.ite (fun ht => ?_) (fun ht => ?_)
  · rcases ht with ht | hnull
    · refine Prog.meets_pure (fun s hs => hs.forget Set.sdiff_subset (fun hf => ?_))
      rw [ht] at hf
      exact absurd hf.symm Bool.false_ne_true
    · have := hw.lt_length hs₁
      rw [hnull] at this
      exact absurd this (Nat.not_lt_zero _)
  · have hwin : Set.Ico (start / o.blockSize + 1)
        (start / o.blockSize + 1 + (finish / o.blockSize - (start / o.blockSize + 1)))
        ⊆ Set.Icc (start / o.blockSize) (finish / o.blockSize) := by
      rintro i ⟨h₁, h₂⟩
      exact ⟨by omega, by omega⟩
    have hmid : slotsOf o.blockSize (Set.Ico (start / o.blockSize + 1)
        (start / o.blockSize + 1 + (finish / o.blockSize - (start / o.blockSize + 1))))
        ⊆ Set.Ico start finish := by
      rw [slotsOf_Ico hbs]
      rintro x ⟨h₁, h₂⟩
      rw [Nat.succ_mul] at h₁
      rcases Nat.lt_or_ge (finish / o.blockSize) (start / o.blockSize + 1) with h | h
      · rw [Nat.sub_eq_zero_of_le h.le, Nat.add_zero, Nat.succ_mul] at h₂
        omega
      · rw [Nat.add_sub_cancel' h] at h₂
        exact ⟨by omega, by omega⟩
    refine Prog.Meets.bind (destroyNodes_via (hw.mono hwin) (hmid.trans hl)) (fun _ => ?_)
    refine Prog.Meets.ite (fun hne => ?_) (fun heq => ?_)
    · -- the range ends in a later block
      have hlt : start / o.blockSize + 1 ≤ finish / o.blockSize := by omega
      have hmul : (start / o.blockSize + 1) * o.blockSize ≤ finish / o.blockSize * o.blockSize :=
        Nat.mul_le_mul_right _ hlt
      rw [Nat.succ_mul] at hmul
      rw [Nat.add_sub_cancel' hlt, nodeIn_bind hw hs₁, slotsOf_Ico hbs, Nat.succ_mul]
      refine Prog.Meets.bind (protDestroySegment_via le_rfl hsm.le ?_) (fun _ => ?_)
      · rintro x ⟨h₁, h₂⟩
        exact ⟨hl ⟨by omega, by omega⟩, fun h => absurd h.1 (by omega)⟩
      · rw [nodeIn_bind hw hf₁]
        refine (protDestroySegment_via hfm.le (Nat.zero_le _) ?_).post
          (fun _ s hs => hs.congr rfl ?_)
        · rintro x ⟨h₁, h₂⟩
          exact ⟨⟨hl ⟨by omega, by omega⟩, fun h => absurd h.2 (by omega)⟩,
            fun h => absurd h.2 (by omega)⟩
        · ext x
          simp only [Set.mem_sdiff, Set.mem_Ico]
          constructor
          · rintro ⟨⟨⟨h, h₁⟩, h₂⟩, h₃⟩
            exact ⟨h, by omega⟩
          · rintro ⟨h, h₁⟩
            exact ⟨⟨⟨h, by omega⟩, by omega⟩, by omega⟩
    · have heq' : start / o.blockSize = finish / o.blockSize := not_not.mp heq
      rw [nodeIn_bind hw hs₁, Nat.sub_eq_zero_of_le (by omega), Nat.add_zero, Set.Ico_self,
        slotsOf_empty, Set.sdiff_empty]
      rw [← heq'] at hfd
      refine (protDestroySegment_via hfm.le (by omega) ?_).post (fun _ s hs => hs.congr rfl ?_)
      · rw [hsd, hfd]
        exact hl
      · rw [hsd, hfd]

/-- **A range that ends before it starts**, in one block: the loop runs past its
end. -/
theorem protDestroyRange_undefined (ht : e.trivialDestructor = false) (hw : Written map N)
    (hN : start / o.blockSize ∈ N) (heq : start / o.blockSize = finish / o.blockSize)
    (hlt : finish % o.blockSize < start % o.blockSize) (s : State Members α) :
    protDestroyRange o e map start finish s = .undefined := by
  have hne : ¬ (e.trivialDestructor = true ∨ map = []) := by
    rintro (h | h)
    · exact Bool.false_ne_true (ht.symm.trans h)
    · have := hw.lt_length hN
      rw [h] at this
      exact absurd this (Nat.not_lt_zero _)
  rw [protDestroyRange, if_neg hne]
  simp only [← heq, Nat.sub_eq_zero_of_le (Nat.le_succ _), ne_eq, not_true_eq_false, if_false,
    nodeIn_bind hw hN]
  rw [protDestroySegment, if_neg (ht ▸ Bool.false_ne_true), if_neg (by omega)]
  rfl

/-! ## Elements that are constructed -/

/-- A cleanup that has nothing to do. -/
theorem protDestroyRange_of_trivial (ht : e.trivialDestructor = true) :
    (protDestroyRange o e map start finish : Prog (State Members α) Unit) = pure () :=
  if_pos (Or.inl ht)

/-- The rest of a block. -/
theorem addrIn_add (h : off % o.blockSize + n ≤ o.blockSize) :
    ∀ j < n, addrIn o map (off + j) = addrIn o map off + j :=
  fun _ hj => blockAddr_add (by omega)

/-- The part of a list for one block. -/
theorem length_drop_take {m c : ℕ} {β : Type*} {l : List β} (hc : m + c ≤ l.length) :
    ((l.drop m).take c).length = c := by
  rw [List.length_take, List.length_drop]
  omega

theorem mem_of_mem_drop_take {m c : ℕ} {β : Type*} {l : List β} {x : β}
    (h : x ∈ (l.drop m).take c) : x ∈ l :=
  List.mem_of_mem_drop (List.mem_of_mem_take h)

/-- One block of elements is constructed, all or none. -/
theorem uninitializedCopy_block (hw : Written map N) (hoff : off ∈ slotsOf o.blockSize N)
    (hmod : off % o.blockSize + srcs.length ≤ o.blockSize)
    (hin : Set.Ico off (off + srcs.length) ⊆ own)
    (hd : Disjoint live (Set.Ico off (off + srcs.length)))
    (hsrcs : ∀ src ∈ srcs, src.Readable (addrIn o map '' live)) :
    Prog.Meets
      (fun s => OwnsVia e.trivialDestructor s₀ S₀ k (addrIn o map) own live s ∧ s.ops = j)
      (do
        let p ← elementIn o map off
        uninitializedCopy e p srcs)
      (fun _ s => (OwnsVia e.trivialDestructor s₀ S₀ k (addrIn o map) own
          (live ∪ Set.Ico off (off + srcs.length)) s ∧ s.ops = j + srcs.length)
        ∧ ¬ e.Blows j srcs.length)
      (fun s => OwnsVia e.trivialDestructor s₀ S₀ k (addrIn o map) own live s
        ∧ e.Blows j srcs.length) := by
  rw [elementIn_bind hw hoff]
  exact takes_uninitializedCopy.meets (uninitializedCopy_via (addrIn_add hmod) hin hd hsrcs)

/-- **When the cleanup of an insertion is right**: nothing has to be destroyed, or
the first of the new slots starts a block, or all that go into the block of the
first are constructed. -/
def CleanupFits (o : Options) (e : Env α) (single : Bool) (first n j : ℕ) : Prop :=
  single = true ∨ e.trivialDestructor = true ∨ first % o.blockSize = 0
    ∨ ¬ e.Blows j (min n (o.blockSize - first % o.blockSize))

/-- **Elements are constructed block by block**, all or none. -/
theorem privSegmentedProxyUninitializedCopyNAndUpdate_via {single : Bool}
    (hw : Written map
      (Set.Icc (first / o.blockSize) ((first + srcs.length) / o.blockSize)))
    (hin : Set.Ico first (first + srcs.length) ⊆ own)
    (hd : Disjoint live (Set.Ico first (first + srcs.length)))
    (hsrcs : ∀ src ∈ srcs, src.Readable (addrIn o map '' live))
    (hsingle : single = true → srcs.length = 1)
    (hfit : CleanupFits o e single first srcs.length j) :
    Prog.Meets
      (fun s => OwnsVia e.trivialDestructor s₀ S₀ k (addrIn o map) own live s ∧ s.ops = j)
      (privSegmentedProxyUninitializedCopyNAndUpdate o e single map first srcs)
      (fun _ s => (OwnsVia e.trivialDestructor s₀ S₀ k (addrIn o map) own
          (live ∪ Set.Ico first (first + srcs.length)) s ∧ s.ops = j + srcs.length)
        ∧ ¬ e.Blows j srcs.length)
      (fun s => OwnsVia e.trivialDestructor s₀ S₀ k (addrIn o map) own live s
        ∧ e.Blows j srcs.length) := by
  have hbs := o.blockSize_pos
  have hfirst : first ∈ slotsOf o.blockSize
      (Set.Icc (first / o.blockSize) ((first + srcs.length) / o.blockSize)) :=
    ⟨le_rfl, Nat.div_le_div_right (by omega)⟩
  have hmodlt := Nat.mod_lt first hbs
  refine Prog.Meets.ite (fun hs => ?_) (fun hs => ?_)
  · have hone := hsingle hs
    exact uninitializedCopy_block hw hfirst (by omega) hin hd hsrcs
  · -- the loop: `m` elements are constructed, in whole blocks but for the first and the last
    have hI : ∀ m ≤ srcs.length, Disjoint (live ∪ Set.Ico first (first + m))
        (Set.Ico (first + m) (first + srcs.length)) := by
      intro m hm
      rw [Set.disjoint_union_left]
      refine ⟨hd.mono_right (Set.Ico_subset_Ico (by omega) le_rfl), ?_⟩
      exact Set.disjoint_left.mpr (fun x hx hx' => absurd hx.2 (by have := hx'.1; omega))
    have hloop := @forSegments_meets _ _ _ hbs (fun off part => (do
        let p ← elementIn o map off
        uninitializedCopy e p part).onThrow
          (protDestroyRange o e map first (off / o.blockSize * o.blockSize))) first srcs
            (fun m s => (OwnsVia e.trivialDestructor s₀ S₀ k (addrIn o map) own
        (live ∪ Set.Ico first (first + m)) s ∧ s.ops = j + m) ∧ ¬ e.Blows j m)
          (fun s => OwnsVia e.trivialDestructor s₀ S₀ k (addrIn o map) own live s
        ∧ e.Blows j srcs.length) (fun m c hm hc hat => ?_)
    · refine Prog.Meets.pre hloop (fun s hs => ⟨⟨hs.1.congr rfl ?_, hs.2⟩, Env.not_blows_zero _⟩)
      rw [Nat.add_zero, Set.Ico_self, Set.union_empty]
    · have hmod := Nat.mod_lt (first + m) hbs
      have hlen : ((srcs.drop m).take c).length = c := length_drop_take (by omega)
      have hoff : first + m ∈ slotsOf o.blockSize
          (Set.Icc (first / o.blockSize) ((first + srcs.length) / o.blockSize)) :=
        ⟨Nat.div_le_div_right (by omega), Nat.div_le_div_right (by omega)⟩
      have hblock := @uninitializedCopy_block _ _ e s₀ S₀ own (live ∪ Set.Ico first (first + m)) k _
        _ (j + m) _ ((srcs.drop m).take c)
        hw hoff (by omega)
        (by rw [hlen]; exact (Set.Ico_subset_Ico (by omega) (by omega)).trans hin)
        (by rw [hlen]; exact (hI m hm.le).mono_right (Set.Ico_subset_Ico le_rfl (by omega)))
        (fun src hsrc => (hsrcs src (mem_of_mem_drop_take hsrc)).mono
          (Set.image_mono Set.subset_union_left))
      rw [hlen] at hblock
      have hunion : live ∪ Set.Ico first (first + m) ∪ Set.Ico (first + m) (first + m + c)
          = live ∪ Set.Ico first (first + (m + c)) := by
        rw [Set.union_assoc, Set.Ico_union_Ico_eq_Ico (by omega) (by omega), Nat.add_assoc]
      refine Prog.Meets.of_pre_right (fun hquiet => ?_)
      refine (Prog.Meets.onThrow hblock ?_).post (fun _ s hs => ⟨⟨hs.1.1.congr rfl hunion, ?_⟩, ?_⟩)
      · refine Prog.Meets.of_pre_right (fun hb => ?_)
        have hblow : e.Blows j srcs.length := by
          have : e.Blows j (m + c) := (Env.blows_add _ _ _).mpr (Or.inr hb)
          exact this.mono (by omega)
        by_cases ht : e.trivialDestructor = true
        · rw [protDestroyRange_of_trivial ht]
          refine Prog.meets_pure (fun s hs => ⟨hs.forget Set.subset_union_left (fun hf => ?_),
            hblow⟩)
          exact absurd (ht.symm.trans hf).symm Bool.false_ne_true
        · have hstart : (first + m) / o.blockSize * o.blockSize = first + m := by
            have hzero : (first + m) % o.blockSize = 0 := by
              rcases hat with rfl | h
              · rcases hfit with h | h | h | h
                · exact absurd h hs
                · exact absurd h ht
                · exact h
                · rw [Nat.add_zero] at hb hc
                  exact absurd (hb.mono (by omega)) h
              · exact h
            have := Nat.div_add_mod (first + m) o.blockSize
            rw [Nat.mul_comm]
            omega
          rw [hstart]
          refine (protDestroyRange_via (hw.mono (Set.Icc_subset_Icc le_rfl
            (Nat.div_le_div_right (by omega)))) (by omega) Set.subset_union_right).post
            (fun _ s hs => ⟨hs.congr rfl ?_, hblow⟩)
          rw [Set.union_sdiff_right]
          exact (hd.mono_right (Set.Ico_subset_Ico le_rfl (by omega))).sdiff_eq_left
      · rw [hs.1.2, Nat.add_assoc]
      · rw [Env.blows_add, not_or]
        exact ⟨hquiet, hs.2⟩

/-- **The cleanup that runs past its end**: the call is not defined. -/
theorem privSegmentedProxyUninitializedCopyNAndUpdate_undefined {single : Bool}
    (hw : Written map
      (Set.Icc (first / o.blockSize) ((first + srcs.length) / o.blockSize)))
    (hin : Set.Ico first (first + srcs.length) ⊆ own)
    (hd : Disjoint live (Set.Ico first (first + srcs.length)))
    (hsrcs : ∀ src ∈ srcs, src.Readable (addrIn o map '' live))
    (hfit : ¬ CleanupFits o e single first srcs.length j)
    (hs : OwnsVia e.trivialDestructor s₀ S₀ k (addrIn o map) own live s) (hj : s.ops = j) :
    privSegmentedProxyUninitializedCopyNAndUpdate o e single map first srcs s = .undefined := by
  have hbs := o.blockSize_pos
  simp only [CleanupFits, not_or, not_not] at hfit
  obtain ⟨hsingle, ht, hmod, hb⟩ := hfit
  have hmodlt := Nat.mod_lt first hbs
  have hfirst : first ∈ slotsOf o.blockSize
      (Set.Icc (first / o.blockSize) ((first + srcs.length) / o.blockSize)) :=
    ⟨le_rfl, Nat.div_le_div_right (by omega)⟩
  have hne : srcs ≠ [] := by
    rintro rfl
    exact Env.not_blows_zero j (hb.mono (Nat.min_le_left _ _))
  have hlen : (srcs.take (min srcs.length (o.blockSize - first % o.blockSize))).length
      = min srcs.length (o.blockSize - first % o.blockSize) := by
    rw [List.length_take]
    omega
  have hblock := @uninitializedCopy_block _ _ e s₀ S₀ own live k _ _ j _
    (srcs.take (min srcs.length (o.blockSize - first % o.blockSize))) hw hfirst
    (by rw [hlen]; omega) (by rw [hlen]; exact (Set.Ico_subset_Ico le_rfl (by omega)).trans hin)
    (by rw [hlen]; exact hd.mono_right (Set.Ico_subset_Ico le_rfl (by omega)))
    (fun src hsrc => hsrcs src (List.mem_of_mem_take hsrc))
  rw [hlen] at hblock
  rw [privSegmentedProxyUninitializedCopyNAndUpdate, if_neg hsingle, forSegments_of_ne_nil hne]
  refine Prog.bind_of_undefined (Prog.onThrow_of_meets (F := fun _ => True) ?_ (fun u _ => ?_))
  · exact (hblock s ⟨hs, hj⟩).imp (fun _ _ hq => hq.2 hb) (fun _ _ => trivial)
  · have heq : first / o.blockSize = first / o.blockSize * o.blockSize / o.blockSize :=
      (Nat.mul_div_cancel _ hbs).symm
    refine protDestroyRange_undefined (Bool.eq_false_of_not_eq_true ht) hw hfirst heq ?_ u
    rw [Nat.mul_mod_left]
    exact Nat.pos_of_ne_zero hmod

end DequeImpl
