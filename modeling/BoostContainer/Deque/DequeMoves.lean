import BoostContainer.Deque.DequeRanges

/-!
# Elements that are moved through blocks

The loops that read one range of elements and construct or assign another, each
in blocks of its own. Where the elements that are read are those of another
deque, both are known by one numbering; the numbers of the source are shifted.

When the construction of elements throws, the cleanup is given the range that
was read, not the range that was constructed. It is empty as long as the
reading is in the first block, from its start on.
-/

open Slots

namespace DequeImpl

variable {α : Type*} {o : Options} {e : Env α} {t : Bool} {s₀ s : State Members α}
  {S₀ own live : Set ℕ} {k : Members} {map src : List (Option ℕ)} {N : Set ℕ} {addr : ℕ → ℕ}
  {a b d f j m n p start finish dest first : ℕ} {l : List (Source α)}

/-! ## Ranges known by other numbers -/

theorem image_add_Ico : (fun x => d + x) '' Set.Ico a b = Set.Ico (d + a) (d + b) :=
  Set.image_const_add_Ico d a b

/-- **A range is destroyed**, whose numbers are shifted. -/
theorem protDestroyRange_shift
    (hw : Written map (Set.Icc (start / o.blockSize) (finish / o.blockSize)))
    (hle : start ≤ finish) (haddr : ∀ x ∈ Set.Ico start finish, addr (d + x) = addrIn o map x)
    (hl : Set.Ico (d + start) (d + finish) ⊆ live) :
    Prog.Meets (OwnsVia e.trivialDestructor s₀ S₀ k addr own live)
      (protDestroyRange o e map start finish)
      (fun _ => OwnsVia e.trivialDestructor s₀ S₀ k addr own
        (live \ Set.Ico (d + start) (d + finish))) (fun _ => False) := by
  intro s hs
  have hown : Set.Ico (d + start) (d + finish) ⊆ own := hl.trans hs.sub
  have hback : (fun x => x - d) '' Set.Ico (d + start) (d + finish) = Set.Ico start finish := by
    rw [← image_add_Ico, Set.image_image]
    simp only [Nat.add_sub_cancel_left, Set.image_id']
  have hsmall := @OwnsVia.renumber _ _ _ _ _ _ _ _ _ (addrIn o map) _ (hs.restrict hown)
    (fun x => x - d) (fun x hx => by
      have h := haddr (x - d) ⟨by have := hx.1; omega, by have := hx.1; have := hx.2; omega⟩
      rw [Nat.add_sub_cancel' (by have := hx.1; omega)] at h
      exact h.symm)
  rw [Set.inter_eq_right.mpr hl, hback] at hsmall
  refine (protDestroyRange_via hw hle subset_rfl s hsmall).imp (fun _ u hu => ?_) (fun _ => id)
  have hthere := hu.renumber (f := fun x => d + x) (fun x hx => haddr x hx)
  rw [Set.sdiff_self, image_add_Ico] at hthere
  obtain ⟨howns, -, -⟩ := hs.frame hown hthere
  refine howns.congr (Set.union_sdiff_cancel hown) ?_
  rw [Set.image_empty, Set.empty_union]

/-! ## Construction through an iterator -/

theorem destroyOffsets_via (hw : Written map N) (hN : Set.Ico a (a + n) ⊆ slotsOf o.blockSize N)
    (haddr : ∀ x ∈ Set.Ico a (a + n), addr x = addrIn o map x)
    (hl : Set.Ico a (a + n) ⊆ live) :
    Prog.Meets (OwnsVia t s₀ S₀ k addr own live) (destroyOffsets o e map a n)
      (fun _ => OwnsVia t s₀ S₀ k addr own (live \ Set.Ico a (a + n))) (fun _ => False) := by
  induction n generalizing a live with
  | zero =>
    refine Prog.meets_pure (fun s hs => hs.congr rfl ?_)
    rw [Nat.add_zero, Set.Ico_self, Set.sdiff_empty]
  | succ n ih =>
    have hmem : a ∈ Set.Ico a (a + (n + 1)) := ⟨le_rfl, by omega⟩
    have hsub : Set.Ico (a + 1) (a + 1 + n) ⊆ Set.Ico a (a + (n + 1)) :=
      Set.Ico_subset_Ico (by omega) (by omega)
    have hnot : a ∉ Set.Ico (a + 1) (a + 1 + n) := fun h => absurd h.1 (by omega)
    rw [destroyOffsets, elementIn_bind hw (hN hmem), ← haddr a hmem]
    refine Prog.Meets.bind (destroy_via (hl hmem)) (fun _ => ?_)
    refine (ih (hsub.trans hN) (fun x hx => haddr x (hsub hx))
      (Set.subset_sdiff_singleton (hsub.trans hl) hnot)).post (fun _ s hs => hs.congr rfl ?_)
    ext x
    simp only [Set.mem_sdiff, Set.mem_singleton_iff, Set.mem_Ico]
    grind

theorem uninitializedToLoop_via {back : ℕ} (hw : Written map N)
    (hN : Set.Ico back (dest + l.length) ⊆ slotsOf o.blockSize N)
    (haddr : ∀ x ∈ Set.Ico back (dest + l.length), addr x = addrIn o map x) (hd : back ≤ dest)
    (hin : Set.Ico back (dest + l.length) ⊆ own)
    (hlive : Disjoint live (Set.Ico back (dest + l.length)))
    (hl : ∀ src ∈ l, src.Readable (addr '' live)) :
    Prog.Meets (OwnsVia e.trivialDestructor s₀ S₀ k addr own (live ∪ Set.Ico back dest))
      (uninitializedToLoop o e map back dest l)
      (fun _ => OwnsVia e.trivialDestructor s₀ S₀ k addr own
        (live ∪ Set.Ico back (dest + l.length)))
      (OwnsVia e.trivialDestructor s₀ S₀ k addr own live) := by
  induction l generalizing dest with
  | nil => exact Prog.meets_pure (fun s hs => hs)
  | cons src l ih =>
    have hlen : dest + (src :: l).length = dest + 1 + l.length := by
      rw [List.length_cons]
      omega
    rw [hlen] at hN haddr hin hlive ⊢
    have hmem : dest ∈ Set.Ico back (dest + 1 + l.length) := ⟨hd, by omega⟩
    have hnot : dest ∉ live ∪ Set.Ico back dest := by
      rintro (h | h)
      · exact Set.disjoint_left.mp hlive h hmem
      · exact absurd h.2 (lt_irrefl _)
    have hsub : Set.Ico back (back + (dest - back)) ⊆ Set.Ico back (dest + 1 + l.length) :=
      Set.Ico_subset_Ico le_rfl (by omega)
    rw [uninitializedToLoop, elementIn_bind hw (hN hmem), ← haddr dest hmem]
    refine Prog.Meets.bind (Prog.Meets.onThrow (construct_via (hin hmem) hnot
      ((hl src List.mem_cons_self).mono (Set.image_mono Set.subset_union_left))) ?_) (fun _ => ?_)
    · refine (destroyOffsets_via hw (hsub.trans hN) (fun x hx => haddr x (hsub hx)) ?_).post
        (fun _ s hs => hs.congr rfl ?_)
      · rw [Nat.add_sub_cancel' hd]
        exact Set.subset_union_right
      · rw [Nat.add_sub_cancel' hd, Set.union_sdiff_right]
        exact (hlive.mono_right (Set.Ico_subset_Ico le_rfl (by omega))).sdiff_eq_left
    · have hins : insert dest (live ∪ Set.Ico back dest) = live ∪ Set.Ico back (dest + 1) := by
        ext x
        simp only [Set.mem_insert_iff, Set.mem_union, Set.mem_Ico]
        grind
      rw [hins]
      exact ih hN haddr (by omega) hin hlive
        (fun src hsrc => hl src (List.mem_cons_of_mem _ hsrc))

/-- **Construction through an iterator**, all or none. -/
theorem uninitializedTo_via (hw : Written map N)
    (hN : Set.Ico dest (dest + l.length) ⊆ slotsOf o.blockSize N)
    (haddr : ∀ x ∈ Set.Ico dest (dest + l.length), addr x = addrIn o map x)
    (hin : Set.Ico dest (dest + l.length) ⊆ own)
    (hlive : Disjoint live (Set.Ico dest (dest + l.length)))
    (hl : ∀ src ∈ l, src.Readable (addr '' live)) :
    Prog.Meets (OwnsVia e.trivialDestructor s₀ S₀ k addr own live) (uninitializedTo o e map dest l)
      (fun _ => OwnsVia e.trivialDestructor s₀ S₀ k addr own
        (live ∪ Set.Ico dest (dest + l.length)))
      (OwnsVia e.trivialDestructor s₀ S₀ k addr own live) := by
  refine Prog.Meets.pre (uninitializedToLoop_via hw hN haddr le_rfl hin hlive hl) (fun s hs => ?_)
  rwa [Set.Ico_self, Set.union_empty]

theorem takes_elementIn {β : Type} {c : ℕ → Prog (State Members α) β}
    (hc : ∀ p, Takes e (c p) n) : Takes e (elementIn o map f >>= c) n := by
  rw [elementIn, nodeIn]
  split
  · exact hc _
  · exact fun _ => trivial

theorem takes_uninitializedTo : Takes e (uninitializedTo o e map dest l) l.length := by
  have hall : ∀ (l : List (Source α)) (back dest : ℕ),
      Takes e (uninitializedToLoop o e map back dest l) l.length := by
    intro l
    induction l with
    | nil => exact fun _ _ => takes_pure ()
    | cons src l ih =>
      intro back dest
      rw [List.length_cons, Nat.add_comm]
      exact takes_elementIn (fun p => takes_construct.onThrow.bind (fun _ => ih _ _))
  exact hall l dest dest

/-! ## Construction from a range -/

/-- **What a loop that constructs elements from others relies on**: the elements it
reads, from `first` on, and the raw slots it fills, from `dest` on. -/
structure Transfer (o : Options) (src map : List (Option ℕ)) (addr : ℕ → ℕ)
    (d first dest n : ℕ) (own live : Set ℕ) : Prop where
  src_written : Written src (Set.Icc (first / o.blockSize) ((first + n) / o.blockSize))
  src_addr : ∀ x ∈ Set.Ico first (first + n), addr (d + x) = addrIn o src x
  src_live : Set.Ico (d + first) (d + (first + n)) ⊆ live
  dest_written : Written map (Set.Icc (dest / o.blockSize) ((dest + n) / o.blockSize))
  dest_addr : ∀ x ∈ Set.Ico dest (dest + n), addr x = addrIn o map x
  dest_owned : Set.Ico dest (dest + n) ⊆ own
  dest_vacant : Disjoint live (Set.Ico dest (dest + n))

/-- Sources that read a range of elements. -/
structure ReadsRange (sources : ℕ → ℕ → List (Source α)) : Prop where
  length_eq : ∀ p n, (sources p n).length = n
  readable : ∀ (p n : ℕ) (live : Set ℕ), Set.Ico p (p + n) ⊆ live →
    ∀ src ∈ sources p n, src.Readable live

theorem readsRange_slots : ReadsRange (slots : ℕ → ℕ → List (Source α)) :=
  ⟨length_slots, fun _ _ _ => readable_slots⟩

theorem readsRange_copies : ReadsRange (copies : ℕ → ℕ → List (Source α)) :=
  ⟨length_copies, fun _ _ _ => readable_copies⟩

/-- **When the cleanup leaves the elements that were read**: nothing has to be
destroyed, or nothing throws, or it throws in the first block, which is read
from its start. -/
def SourceKept (o : Options) (e : Env α) (first n j : ℕ) : Prop :=
  e.trivialDestructor = true ∨ ¬ e.Blows j n
    ∨ first % o.blockSize = 0 ∧ ¬ e.Blows (j + o.blockSize) (n - o.blockSize)

namespace Transfer

variable {sources : ℕ → ℕ → List (Source α)} {c m : ℕ}

/-- One block. -/
theorem chunk (h : Transfer o src map addr d first dest n own live) (hs : ReadsRange sources)
    (hc : m + c ≤ n) (hmod : (first + m) % o.blockSize + c ≤ o.blockSize) (hpos : 0 < c) :
    Prog.Meets
      (fun s => OwnsVia e.trivialDestructor s₀ S₀ k addr own
        (live ∪ Set.Ico dest (dest + m)) s ∧ s.ops = j + m)
      (do
        let p ← elementIn o src (first + m)
        uninitializedTo o e map (dest + (first + m - first)) (sources p c))
      (fun _ s => (OwnsVia e.trivialDestructor s₀ S₀ k addr own
        (live ∪ Set.Ico dest (dest + (m + c))) s ∧ s.ops = j + m + c) ∧ ¬ e.Blows (j + m) c)
      (fun s => OwnsVia e.trivialDestructor s₀ S₀ k addr own
        (live ∪ Set.Ico dest (dest + m)) s ∧ e.Blows (j + m) c) := by
  have hread : first + m ∈ slotsOf o.blockSize
      (Set.Icc (first / o.blockSize) ((first + n) / o.blockSize)) :=
    ⟨Nat.div_le_div_right (by omega), Nat.div_le_div_right (by omega)⟩
  have hsub : Set.Ico (dest + m) (dest + m + (sources (addrIn o src (first + m)) c).length)
      ⊆ Set.Ico dest (dest + n) := by
    rw [hs.length_eq]
    exact Set.Ico_subset_Ico (by omega) (by omega)
  have hnode : Set.Ico (dest + m) (dest + m + (sources (addrIn o src (first + m)) c).length)
      ⊆ slotsOf o.blockSize (Set.Icc (dest / o.blockSize) ((dest + n) / o.blockSize)) :=
    hsub.trans (Ico_subset_slotsOf subset_rfl)
  have haddr : ∀ x < c, addr (d + (first + m) + x) = addrIn o src (first + m) + x := by
    intro x hx
    rw [Nat.add_assoc, h.src_addr (first + m + x) ⟨by omega, by omega⟩]
    exact addrIn_add (n := c) (by omega) x hx
  have hlive : Set.Ico (d + (first + m)) (d + (first + m) + c)
      ⊆ live ∪ Set.Ico dest (dest + m) :=
    (Set.Ico_subset_Ico (by omega) (by omega)).trans (h.src_live.trans Set.subset_union_left)
  have hvacant : Disjoint (live ∪ Set.Ico dest (dest + m))
      (Set.Ico (dest + m) (dest + m + (sources (addrIn o src (first + m)) c).length)) := by
    rw [Set.disjoint_union_left]
    refine ⟨h.dest_vacant.mono_right hsub, Set.disjoint_left.mpr (fun x hx hx' => ?_)⟩
    have := hx.2
    have := hx'.1
    omega
  have hread' : ∀ s ∈ sources (addrIn o src (first + m)) c,
      s.Readable (addr '' (live ∪ Set.Ico dest (dest + m))) :=
    hs.readable _ _ _ (image_Ico haddr ▸ Set.image_mono hlive)
  have hrun := takes_uninitializedTo.meets (j := j + m) (@uninitializedTo_via _ _ e s₀ S₀ _ _ k _ _
    _ _ _ h.dest_written hnode (fun x hx => h.dest_addr x (hsub hx))
    (hsub.trans h.dest_owned) hvacant hread')
  have hunion : live ∪ Set.Ico dest (dest + m) ∪ Set.Ico (dest + m) (dest + m + c)
      = live ∪ Set.Ico dest (dest + (m + c)) := by
    rw [Set.union_assoc, Set.Ico_union_Ico_eq_Ico (by omega) (by omega), Nat.add_assoc]
  rw [hs.length_eq, hunion] at hrun
  rw [elementIn_bind h.src_written hread, Nat.add_sub_cancel_left]
  exact hrun

/-- **Elements are constructed from a range**, all or none, where the cleanup
leaves the range. -/
theorem meets (h : Transfer o src map addr d first dest n own live) (hs : ReadsRange sources)
    (hkept : SourceKept o e first n j) :
    Prog.Meets
      (fun s => OwnsVia e.trivialDestructor s₀ S₀ k addr own live s ∧ s.ops = j)
      (privSegmentedUninitializedAllocN o e sources src first n map dest)
      (fun _ s => (OwnsVia e.trivialDestructor s₀ S₀ k addr own
        (live ∪ Set.Ico dest (dest + n)) s ∧ s.ops = j + n) ∧ ¬ e.Blows j n)
      (fun s => OwnsVia e.trivialDestructor s₀ S₀ k addr own live s ∧ e.Blows j n) := by
  have hbs := o.blockSize_pos
  have hloop := @forSegmentsN_meets _ _ hbs first n (fun off cnt => (do
      let p ← elementIn o src off
      uninitializedTo o e map (dest + (off - first)) (sources p cnt)).onThrow
        (protDestroyRange o e src first (off / o.blockSize * o.blockSize)))
          (fun m s => (OwnsVia e.trivialDestructor s₀ S₀ k addr own
      (live ∪ Set.Ico dest (dest + m)) s ∧ s.ops = j + m) ∧ ¬ e.Blows j m)
        (fun s => OwnsVia e.trivialDestructor s₀ S₀ k addr own live s ∧ e.Blows j n)
    (fun m c hm hc hat => ?_)
  · refine Prog.Meets.pre hloop (fun s hs => ⟨⟨hs.1.congr rfl ?_, hs.2⟩, Env.not_blows_zero _⟩)
    rw [Nat.add_zero, Set.Ico_self, Set.union_empty]
  · have hmod := Nat.mod_lt (first + m) hbs
    refine Prog.Meets.of_pre_right (fun hquiet => ?_)
    refine (Prog.Meets.onThrow (h.chunk hs (by omega) (by omega) (by omega)) ?_).post
      (fun _ s hs => ⟨⟨hs.1.1, ?_⟩, ?_⟩)
    · refine Prog.Meets.of_pre_right (fun hb => ?_)
      have hblow : e.Blows j n := by
        have hmc : e.Blows j (m + c) := (Env.blows_add _ _ _).mpr (Or.inr hb)
        exact hmc.mono (by omega)
      rcases hkept with ht | hn | ⟨hzero, hlater⟩
      · rw [protDestroyRange_of_trivial ht]
        refine Prog.meets_pure (fun s hs => ⟨hs.forget Set.subset_union_left (fun hf => ?_), hblow⟩)
        exact absurd (ht.symm.trans hf).symm Bool.false_ne_true
      · exact absurd hblow hn
      · -- it throws in the first block, so nothing was read before
        have hm0 : m = 0 := by
          rcases hat with h0 | h0
          · exact h0
          · by_contra hne
            have hge : o.blockSize ≤ m := by
              rw [Nat.add_mod, hzero, Nat.zero_add, Nat.mod_mod] at h0
              exact Nat.le_of_dvd (Nat.pos_of_ne_zero hne) (Nat.dvd_of_mod_eq_zero h0)
            obtain ⟨i, h₁, h₂, h₃⟩ := hb
            exact hlater ⟨i, by omega, by omega, h₃⟩
        subst hm0
        have hstart : (first + 0) / o.blockSize * o.blockSize = first := by
          rw [Nat.add_zero]
          exact Nat.div_mul_cancel (Nat.dvd_of_mod_eq_zero hzero)
        have hempty : Set.Ico (d + first) (d + first) = (∅ : Set ℕ) := Set.Ico_self _
        rw [hstart]
        refine (protDestroyRange_shift (d := d) (h.src_written.mono (Set.Icc_subset_Icc le_rfl
          (Nat.div_le_div_right (by omega)))) le_rfl
          (fun x hx => absurd hx.2 (by have := hx.1; omega))
          (hempty ▸ Set.empty_subset _)).post (fun _ s hs => ⟨hs.congr rfl ?_, hblow⟩)
        rw [hempty, Set.sdiff_empty, Nat.add_zero, Set.Ico_self, Set.union_empty]
    · rw [hs.1.2, Nat.add_assoc]
    · rw [Env.blows_add, not_or]
      exact ⟨hquiet, hs.2⟩

/-- **The cleanup destroys the range that was read**, the first of its elements
among it, or it runs past the end of the range. -/
theorem destroys_source (h : Transfer o src map addr d first dest n own live)
    (hs : ReadsRange sources) (hkept : ¬ SourceKept o e first n j)
    (hown : OwnsVia e.trivialDestructor s₀ S₀ k addr own live s) (hj : s.ops = j) :
    (privSegmentedUninitializedAllocN o e sources src first n map dest s).Permits
      (fun _ _ => False)
      (fun u => u.object = k ∧ shape u.heap (addr (d + first)) = some false) := by
  have hbs := o.blockSize_pos
  simp only [SourceKept, not_or, not_not, not_and] at hkept
  obtain ⟨ht, hb, hlater⟩ := hkept
  have ht' : e.trivialDestructor = false := Bool.eq_false_of_not_eq_true ht
  have hn : 0 < n := Nat.pos_of_ne_zero (fun h0 => Env.not_blows_zero j (h0 ▸ hb))
  have hmod₀ := Nat.mod_lt first hbs
  have hfirst : first / o.blockSize
      ∈ Set.Icc (first / o.blockSize) ((first + n) / o.blockSize) :=
    ⟨le_rfl, Nat.div_le_div_right (by omega)⟩
  have hstart : OwnsVia e.trivialDestructor s₀ S₀ k addr own (live ∪ Set.Ico dest (dest + 0)) s
      ∧ s.ops = j + 0 := by
    refine ⟨hown.congr rfl ?_, hj⟩
    rw [Nat.add_zero, Set.Ico_self, Set.union_empty]
  by_cases hb₀ : e.Blows j (min n (o.blockSize - first % o.blockSize))
  · -- it throws in the first block
    have hne : first % o.blockSize ≠ 0 := by
      intro h0
      obtain ⟨i, h₁, h₂, h₃⟩ := hb₀
      obtain ⟨i', h₁', h₂', h₃'⟩ := hlater h0
      have := Option.some.inj (h₃.symm.trans h₃')
      omega
    have hchunk := @Transfer.chunk _ _ e s₀ S₀ _ _ k _ _ _ _ j _ _ _ _
      (min n (o.blockSize - first % o.blockSize)) 0 h hs (by omega) (by rw [Nat.add_zero]; omega)
      (by omega) s hstart
    have hlist : List.replicate n () ≠ [] := by
      rw [Ne, List.replicate_eq_nil_iff]
      omega
    have hundef : privSegmentedUninitializedAllocN o e sources src first n map dest s
        = .undefined := by
      rw [privSegmentedUninitializedAllocN, forSegmentsN, forSegments_of_ne_nil hlist]
      refine Prog.bind_of_undefined ?_
      simp only [List.length_take, List.length_replicate, Nat.min_assoc, Nat.min_self]
      rw [Nat.min_comm (o.blockSize - first % o.blockSize) n, ← Nat.min_assoc, Nat.min_self]
      refine Prog.onThrow_of_meets (F := fun _ => True)
        (hchunk.imp (fun _ _ hq => hq.2 hb₀) (fun _ _ => trivial)) (fun u _ => ?_)
      refine protDestroyRange_undefined ht' h.src_written hfirst
        (Nat.mul_div_cancel _ hbs).symm ?_ u
      rw [Nat.mul_mod_left]
      exact Nat.pos_of_ne_zero hne
    rw [hundef]
    trivial
  · -- it throws in a later block, and the elements of the first are destroyed
    have hloop := @forSegmentsN_meets _ _ hbs first n (fun off cnt => (do
        let p ← elementIn o src off
        uninitializedTo o e map (dest + (off - first)) (sources p cnt)).onThrow
          (protDestroyRange o e src first (off / o.blockSize * o.blockSize)))
            (fun m s => (OwnsVia e.trivialDestructor s₀ S₀ k addr own
        (live ∪ Set.Ico dest (dest + m)) s ∧ s.ops = j + m) ∧ ¬ e.Blows j m)
          (fun u => u.object = k ∧ shape u.heap (addr (d + first)) = some false)
      (fun m c hm hc hat => ?_)
    · refine ((hloop s ⟨hstart, Env.not_blows_zero _⟩).imp (fun _ _ hq => hq.2 hb)
        (fun _ => id)).permits
    · have hmod := Nat.mod_lt (first + m) hbs
      refine Prog.Meets.of_pre_right (fun hquiet => ?_)
      refine (Prog.Meets.onThrow (h.chunk hs (by omega) (by omega) (by omega)) ?_).post
        (fun _ s hs => ⟨⟨hs.1.1, ?_⟩, ?_⟩)
      · refine Prog.Meets.of_pre_right (fun hbm => ?_)
        have hm0 : m ≠ 0 := by
          rintro rfl
          rw [Nat.add_zero, Nat.sub_zero] at hc
          rw [hc, Nat.add_zero] at hbm
          exact hb₀ hbm
        have hzero : (first + m) % o.blockSize = 0 := hat.resolve_left hm0
        have hend : (first + m) / o.blockSize * o.blockSize = first + m :=
          Nat.div_mul_cancel (Nat.dvd_of_mod_eq_zero hzero)
        have hmem : d + first ∈ Set.Ico (d + first) (d + (first + m)) := ⟨le_rfl, by omega⟩
        rw [hend]
        refine (protDestroyRange_shift (d := d) (h.src_written.mono (Set.Icc_subset_Icc le_rfl
          (Nat.div_le_div_right (by omega)))) (by omega)
          (fun x hx => h.src_addr x ⟨hx.1, by have := hx.2; omega⟩) ?_).post (fun _ u hu => ?_)
        · exact (Set.Ico_subset_Ico le_rfl (by omega)).trans
            (h.src_live.trans Set.subset_union_left)
        · have hin : d + first ∈ own := hown.sub (h.src_live ⟨le_rfl, by omega⟩)
          exact ⟨hu.owns.object_eq, hu.vacant_of_notMem ht' hin (fun hx => hx.2 hmem)⟩
      · rw [hs.1.2, Nat.add_assoc]
      · rw [Env.blows_add, not_or]
        exact ⟨hquiet, hs.2⟩

end Transfer

/-! ## Assignment -/

/-- Values are assigned block by block. -/
theorem privSegmentedProxyCopyNAndUpdate_via {single : Bool}
    (hw : Written map (Set.Icc (first / o.blockSize) ((first + l.length) / o.blockSize)))
    (hl : Set.Ico first (first + l.length) ⊆ live)
    (hread : ∀ src ∈ l, src.Readable (addrIn o map '' live))
    (hsingle : single = true → l.length = 1) :
    Prog.Meets (OwnsVia t s₀ S₀ k (addrIn o map) own live)
      (privSegmentedProxyCopyNAndUpdate o e single map first l)
      (fun _ => OwnsVia t s₀ S₀ k (addrIn o map) own live)
      (OwnsVia t s₀ S₀ k (addrIn o map) own live) := by
  have hbs := o.blockSize_pos
  have hmod₀ := Nat.mod_lt first hbs
  refine Prog.Meets.ite (fun hs => ?_) (fun _ => ?_)
  · have hone := hsingle hs
    rw [elementIn_bind hw ⟨le_rfl, Nat.div_le_div_right (by omega)⟩]
    exact copy_via (addrIn_add (by omega)) hl hread
  · refine forSegments_meets (I := fun _ => OwnsVia t s₀ S₀ k (addrIn o map) own live)
      (fun m c hm hc hat => ?_)
    have hmod := Nat.mod_lt (first + m) hbs
    have hlen : ((l.drop m).take c).length = c := length_drop_take (by omega)
    rw [elementIn_bind hw ⟨Nat.div_le_div_right (by omega), Nat.div_le_div_right (by omega)⟩]
    refine copy_via (addrIn_add (by omega)) ?_
      (fun src hsrc => hread src (mem_of_mem_drop_take hsrc))
    rw [hlen]
    exact (Set.Ico_subset_Ico (by omega) (by omega)).trans hl

theorem cost_append (l l' : List (Source α)) : cost (l ++ l') = cost l + cost l' := by
  rw [cost, List.map_append, List.sum_append]
  rfl

theorem takes_privSegmentedProxyCopyNAndUpdate {single : Bool} :
    Takes e (privSegmentedProxyCopyNAndUpdate o e single map first l) (cost l) := by
  rw [privSegmentedProxyCopyNAndUpdate]
  split
  · exact takes_elementIn (fun p => takes_copy)
  · refine takes_forSegments (w := cost) rfl (fun l c => ?_)
      (fun off l => takes_elementIn (fun p => takes_copy)) l
    rw [← cost_append, List.take_append_drop]

/-- Elements are moved to an iterator, from consecutive slots. -/
theorem moveNTo_via (hw : Written map N) (hN : Set.Ico dest (dest + n) ⊆ slotsOf o.blockSize N)
    (hp : ∀ i < n, addrIn o map (first + i) = p + i) (hl : Set.Ico first (first + n) ⊆ live)
    (hdest : Set.Ico dest (dest + n) ⊆ live) :
    Prog.Meets (OwnsVia t s₀ S₀ k (addrIn o map) own live) (moveNTo o e map p dest n)
      (fun _ => OwnsVia t s₀ S₀ k (addrIn o map) own live)
      (OwnsVia t s₀ S₀ k (addrIn o map) own live) := by
  induction n generalizing p first dest with
  | zero => exact Prog.meets_pure (fun _ hs => hs)
  | succ n ih =>
    have hmem : dest ∈ Set.Ico dest (dest + (n + 1)) := ⟨le_rfl, by omega⟩
    have hsub : Set.Ico (dest + 1) (dest + 1 + n) ⊆ Set.Ico dest (dest + (n + 1)) :=
      Set.Ico_subset_Ico (by omega) (by omega)
    have hread : (Source.slot p : Source α).Readable (addrIn o map '' live) :=
      ⟨first, hl ⟨le_rfl, by omega⟩, hp 0 (by omega)⟩
    rw [moveNTo, elementIn_bind hw (hN hmem)]
    refine Prog.Meets.bind (assign_via (hdest hmem) hread) (fun _ => ?_)
    have hnext : ∀ i < n, addrIn o map (first + 1 + i) = p + 1 + i := by
      intro i hi
      have h := hp (1 + i) (by omega)
      rwa [← Nat.add_assoc, ← Nat.add_assoc] at h
    exact ih (hsub.trans hN) hnext ((Set.Ico_subset_Ico (by omega) (by omega)).trans hl)
      (hsub.trans hdest)

theorem takes_moveNTo : Takes e (moveNTo o e map p dest n) n := by
  induction n generalizing p dest with
  | zero => exact takes_pure ()
  | succ n ih =>
    have h : Takes e (moveNTo o e map p dest (n + 1)) (1 + n) :=
      takes_elementIn (fun q => (takes_assign).bind (fun _ => ih))
    rwa [Nat.add_comm 1 n] at h

/-- **Elements are moved to others.** -/
theorem privSegmentedMoveN_via
    (hw : Written map N) (hN : Set.Ico first (first + n) ⊆ slotsOf o.blockSize N)
    (hN' : Set.Ico dest (dest + n) ⊆ slotsOf o.blockSize N)
    (hl : Set.Ico first (first + n) ⊆ live) (hdest : Set.Ico dest (dest + n) ⊆ live) :
    Prog.Meets (OwnsVia t s₀ S₀ k (addrIn o map) own live)
      (privSegmentedMoveN o e map first n dest)
      (fun p s => p = dest + n ∧ OwnsVia t s₀ S₀ k (addrIn o map) own live s)
      (OwnsVia t s₀ S₀ k (addrIn o map) own live) := by
  have hbs := o.blockSize_pos
  refine Prog.Meets.bind (forSegmentsN_meets
    (I := fun _ => OwnsVia t s₀ S₀ k (addrIn o map) own live) (fun m c hm hc hat => ?_))
    (fun _ => Prog.meets_pure (fun s hs => ⟨rfl, hs⟩))
  have hmod := Nat.mod_lt (first + m) hbs
  have hsub : Set.Ico (dest + (first + m - first)) (dest + (first + m - first) + c)
      ⊆ Set.Ico dest (dest + n) := Set.Ico_subset_Ico (by omega) (by omega)
  rw [elementIn_bind hw (hN ⟨by omega, by omega⟩)]
  exact moveNTo_via hw (hsub.trans hN') (addrIn_add (n := c) (by omega))
    ((Set.Ico_subset_Ico (by omega) (by omega)).trans hl) (hsub.trans hdest)

theorem takes_privSegmentedMoveN : Takes e (privSegmentedMoveN o e map first n dest) n := by
  have h := (@takes_forSegmentsN _ _ e o.blockSize o.blockSize_pos n first _
    (fun off cnt => @takes_elementIn _ o _ map off _ _ _
      (fun p => @takes_moveNTo _ o _ map cnt p (dest + (off - first))))).bind
        (fun _ => takes_pure (dest + n))
  rwa [Nat.add_zero] at h

/-- Elements are moved to an iterator from the back. -/
theorem moveBackwardNTo_via (hw : Written map N) (hn : n ≤ p) (hd : n ≤ dest)
    (hN : Set.Ico (dest - n) dest ⊆ slotsOf o.blockSize N) (hf : n ≤ first)
    (hp : ∀ i < n, addrIn o map (first - n + i) = p - n + i)
    (hl : Set.Ico (first - n) first ⊆ live) (hdest : Set.Ico (dest - n) dest ⊆ live) :
    Prog.Meets (OwnsVia t s₀ S₀ k (addrIn o map) own live) (moveBackwardNTo o e map p dest n)
      (fun _ => OwnsVia t s₀ S₀ k (addrIn o map) own live)
      (OwnsVia t s₀ S₀ k (addrIn o map) own live) := by
  induction n generalizing p first dest with
  | zero => exact Prog.meets_pure (fun _ hs => hs)
  | succ n ih =>
    have hmem : dest - 1 ∈ Set.Ico (dest - (n + 1)) dest := ⟨by omega, by omega⟩
    have hsub : Set.Ico (dest - 1 - n) (dest - 1) ⊆ Set.Ico (dest - (n + 1)) dest :=
      Set.Ico_subset_Ico (by omega) (by omega)
    have hlast := hp n (by omega)
    rw [show first - (n + 1) + n = first - 1 by omega, show p - (n + 1) + n = p - 1 by omega]
      at hlast
    have hread : (Source.slot (p - 1) : Source α).Readable (addrIn o map '' live) :=
      ⟨first - 1, hl ⟨by omega, by omega⟩, hlast⟩
    rw [moveBackwardNTo, elementIn_bind hw (hN hmem)]
    refine Prog.Meets.bind (assign_via (hdest hmem) hread) (fun _ => ?_)
    have hnext : ∀ i < n, addrIn o map (first - 1 - n + i) = p - 1 - n + i := by
      intro i hi
      have h := hp i (by omega)
      rwa [show first - (n + 1) + i = first - 1 - n + i by omega,
        show p - (n + 1) + i = p - 1 - n + i by omega] at h
    have hsrc : Set.Ico (first - 1 - n) (first - 1) ⊆ live :=
      (Set.Ico_subset_Ico (by omega) (by omega)).trans hl
    exact ih (by omega) (by omega) (hsub.trans hN) (by omega) hnext hsrc (hsub.trans hdest)

theorem takes_moveBackwardNTo : Takes e (moveBackwardNTo o e map p dest n) n := by
  induction n generalizing p dest with
  | zero => exact takes_pure ()
  | succ n ih =>
    have h : Takes e (moveBackwardNTo o e map p dest (n + 1)) (1 + n) :=
      takes_elementIn (fun q => (takes_assign).bind (fun _ => ih))
    rwa [Nat.add_comm 1 n] at h

/-- **Elements are moved to others, from the back.** -/
theorem privSegmentedMoveBackwardN_via
    (hw : Written map N) (hn : n ≤ first) (hd : n ≤ dest)
    (hN : Set.Ico (first - n) first ⊆ slotsOf o.blockSize N)
    (hN' : Set.Ico (dest - n) dest ⊆ slotsOf o.blockSize N)
    (hl : Set.Ico (first - n) first ⊆ live) (hdest : Set.Ico (dest - n) dest ⊆ live) :
    Prog.Meets (OwnsVia t s₀ S₀ k (addrIn o map) own live)
      (privSegmentedMoveBackwardN o e map first n dest)
      (fun p s => p = dest - n ∧ OwnsVia t s₀ S₀ k (addrIn o map) own live s)
      (OwnsVia t s₀ S₀ k (addrIn o map) own live) := by
  refine Prog.Meets.bind (forSegmentsBackward_meets
    (I := fun _ => OwnsVia t s₀ S₀ k (addrIn o map) own live) hn (fun m c hm hc hmc hmod => ?_))
    (fun _ => Prog.meets_pure (fun s hs => ⟨rfl, hs⟩))
  have hsub : Set.Ico (dest - (first - (first - m)) - c) (dest - (first - (first - m)))
      ⊆ Set.Ico (dest - n) dest := Set.Ico_subset_Ico (by omega) (by omega)
  rw [elementIn_bind hw (hN ⟨by omega, by omega⟩)]
  refine @moveBackwardNTo_via _ _ _ _ _ _ _ _ _ _ _ _ _ _ (first - m) hw (by omega) (by omega)
    (hsub.trans hN')
    (by omega) (fun i hi => ?_) ((Set.Ico_subset_Ico (by omega) (by omega)).trans hl)
    (hsub.trans hdest)
  rw [Nat.add_sub_cancel]
  exact addrIn_add (n := c) hmod i hi

theorem takes_privSegmentedMoveBackwardN :
    Takes e (privSegmentedMoveBackwardN o e map first n dest) n := by
  have h := (@takes_forSegmentsBackward _ _ e o.blockSize o.blockSize_pos n first _
    (fun off cnt => @takes_elementIn _ o _ map (off - cnt) _ _ _
      (fun p => @takes_moveBackwardNTo _ o _ map cnt (p + cnt) (dest - (first - off))))).bind
        (fun _ => takes_pure (dest - n))
  rwa [Nat.add_zero] at h

end DequeImpl
