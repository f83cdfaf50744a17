import BoostContainer.Dlmalloc.Free

/-!
# Shrinking a chunk in place

`boost_cont_shrink` makes a chunk smaller, or only says how small it would become. A
chunk of a segment is divided, and its tail is freed. A chunk that `mmap` gave is
remapped, and there the flag is taken the other way round: the call that is only to try
remaps, the call that is to shrink does not, and the size that both tell is that of the
region and not of the chunk. All else is as it is asked for.
-/

namespace Dlmalloc

open BoundaryTags

section Definitions

variable {β : Type*} (haveMremap : Bool) (callMremap : ℕ → ℕ → ℕ → ℕ)
  (free : Mstate β → ℕ → Mstate β) (mparams : Mparams)

/-- `MIN_LARGE_SIZE`. -/
def minLargeSize : ℕ := 2 ^ 8

/-- `is_small`. -/
def isSmall (s : ℕ) : Bool := decide (s / 2 ^ 3 < 32)

/-- `mmap_align`, to pages. -/
def mmapAlign (s : ℕ) : ℕ :=
  Word.add 64 s (mparams.pageSize - 1) &&& Word.compl 64 (mparams.pageSize - 1)

/-- `effective_min`. -/
def effectiveMin (nbmin : ℕ) : ℕ := max nbmin minLargeSize

/-- **Whether a region is kept**, which is big enough but not too big. -/
def keepsMmapped (oldsize nbmin : ℕ) : Bool :=
  decide (Word.add 64 (effectiveMin nbmin) sizeTSize ≤ oldsize)
    && decide (oldsize - effectiveMin nbmin ≤ Word.shl 64 mparams.granularity 1)

/-- The size of the region of a chunk. -/
def regionSize (m : Mstate β) (p : ℕ) : ℕ :=
  Word.add 64 (Word.add 64 (chunksize m p) (m.prevFoot p)) mmapFootPad

/-- The size of the region that is to be. -/
def newRegionSize (nbmin : ℕ) : ℕ :=
  mmapAlign mparams (Word.add 64 (Word.add 64 (effectiveMin nbmin) (6 * sizeTSize)) chunkAlignMask)

/-- **A region is remapped**: its chunk is written anew. A null pointer is a usage error. -/
def remap (m : Mstate β) (oldp nbmin : ℕ) : Option (Mstate β) :=
  let offset := m.prevFoot oldp
  let oldmmsize := regionSize m oldp
  let newmmsize := newRegionSize mparams nbmin
  let cp := callMremap (oldp - offset) oldmmsize newmmsize
  if cp = 0 then none
  else
    let newp := cp + offset
    let psize := Word.sub 64 (Word.sub 64 newmmsize offset) mmapFootPad
    let footprint := Word.add 64 m.footprint (Word.sub 64 newmmsize oldmmsize)
    let m := { m with prevFoot := Function.update m.prevFoot newp offset }
    let m := m.setHead newp ⟨psize, false, false⟩
    let m := m.setHead (newp + psize) fencepostHead
    let m := m.setHead (newp + psize + sizeTSize) ⟨0, false, false⟩
    some { m with
      leastAddr := min cp m.leastAddr
      footprint := footprint
      maxFootprint := max footprint m.maxFootprint }

/-- **`internal_mmap_shrink_in_place`**: what it returns, what is received, and the heap. It
remaps where it is not to commit. -/
def internalMmapShrinkInPlace (m : Mstate β) (oldp nbmin nbmax : ℕ) (doCommit : Bool) :
    Option (Bool × ℕ × Mstate β) :=
  if haveMremap then
    if isSmall nbmax then some (false, chunksize m oldp, m)
    else if keepsMmapped mparams (chunksize m oldp) nbmin then some (false, chunksize m oldp, m)
    else if doCommit then some (true, newRegionSize mparams nbmin, m)
    else (remap callMremap mparams m oldp nbmin).map
      fun m' => (true, newRegionSize mparams nbmin, m')
  else some (false, chunksize m oldp, m)

/-- **The tail of a chunk is cut off and freed.** -/
def freeTail (m : Mstate β) (oldp nb rsize : ℕ) : Mstate β :=
  let remainder := oldp + nb
  let m := setInuse m oldp nb
  let m := setInuse m remainder rsize
  let m := { m with allocatedMemory := Word.sub 64 m.allocatedMemory rsize }
  free m (chunk2mem remainder)

/-- `RTCHECK` of a chunk and the next. -/
def rtcheck (m : Mstate β) (oldp : ℕ) : Bool :=
  decide (m.leastAddr ≤ oldp) && isInuse m oldp && decide (oldp < oldp + chunksize m oldp)
    && (m.head (oldp + chunksize m oldp)).prevInuse

/-- **`internal_shrink`**: a usage error has no value. -/
def internalShrink (m : Mstate β) (oldmem minbytes maxbytes : ℕ) (doCommit : Bool) :
    Option (Bool × ℕ × Mstate β) :=
  let oldp := mem2chunk oldmem
  let oldsize := chunksize m oldp
  let received := dlSize m oldmem
  if maxRequest ≤ minbytes ∨ maxRequest ≤ maxbytes then some (false, received, m)
  else
    let minbytes := max minbytes minRequest
    if maxbytes < minbytes then some (false, received, m)
    else if rtcheck m oldp then
      let nbmin := request2size minbytes
      let nbmax := request2size maxbytes
      if oldsize < nbmin then some (false, received, m)
      else if isMmapped m oldp then
        internalMmapShrinkInPlace haveMremap callMremap mparams m oldp nbmin nbmax doCommit
      else
        let rsize := oldsize - nbmin
        if minChunkSize ≤ rsize then
          let m' := if doCommit then freeTail free m oldp nbmin rsize else m
          some (true, nbmin - overheadFor m' oldp, m')
        else some (false, received, m)
    else none

/-- **`boost_cont_shrink`**, of a heap that is there and whose lock is taken. -/
def boostContShrink (m : Mstate β) (oldmem minbytes maxbytes : ℕ) (doCommit : Bool) :
    Option (Bool × ℕ × Mstate β) :=
  internalShrink haveMremap callMremap free mparams m oldmem minbytes maxbytes doCommit

end Definitions

/-! ## What is asked of it -/

section Asked

variable {β : Type*}

/-- A chunk that is in use, of a segment or of its own. -/
def Live (m : Mstate β) (mmaps : List ℕ) (p : ℕ) : Prop := p ∈ mmaps ∨ ∃ s, InUse m p s

/-- **A chunk has shrunk**: it stays where it is, with the size that was told, the heap is
well-formed, and the chunks in use are the others as they were and what is left of it. -/
structure Shrunk (binsHold : β → (Tile → Prop) → Prop) (mparams : Mparams) (m : Mstate β)
    (mmaps : List ℕ) (p minbytes received : ℕ) (m' : Mstate β) : Prop where
  live : Live m' mmaps p
  usable : dlSize m' (chunk2mem p) = received
  min_le : minbytes ≤ received
  le_old : received ≤ dlSize m (chunk2mem p)
  wellFormed : WellFormed binsHold mparams m' mmaps
  inUse : ∀ q t, InUse m' q t ↔
    InUse m q t ∧ q ≠ p ∨ q = p ∧ t = received + chunkOverhead ∧ p ∉ mmaps

/-- **A shrink is as it is asked for**: a call that only tries changes nothing and tells what
the other does, which shrinks the chunk, or fails and changes nothing either. -/
def ShrinkMeets (binsHold : β → (Tile → Prop) → Prop) (mparams : Mparams)
    (shrink : Mstate β → ℕ → ℕ → ℕ → Bool → Option (Bool × ℕ × Mstate β)) (m : Mstate β)
    (mmaps : List ℕ) (p minbytes maxbytes : ℕ) : Prop :=
  ∃ ok received m',
    shrink m (chunk2mem p) minbytes maxbytes true = some (ok, received, m')
      ∧ shrink m (chunk2mem p) minbytes maxbytes false = some (ok, received, m)
      ∧ (ok = true → Shrunk binsHold mparams m mmaps p minbytes received m')
      ∧ (ok = false → m' = m)

/-- **A shrink that comes to remapping**: of a chunk that `mmap` gave, where there is
`mremap`, with sizes that are served and a region that is not kept. -/
structure Remaps (haveMremap : Bool) (mparams : Mparams) (m : Mstate β) (p minbytes maxbytes : ℕ) :
    Prop where
  haveMremap : haveMremap = true
  mmapped : isMmapped m p = true
  served : minbytes < maxRequest ∧ maxbytes < maxRequest
  ordered : max minbytes minRequest ≤ maxbytes
  enough : request2size (max minbytes minRequest) ≤ chunksize m p
  large : isSmall (request2size maxbytes) = false
  changes : keepsMmapped mparams (chunksize m p) (request2size (max minbytes minRequest)) = false

end Asked

section Shrink

variable {β : Type*} {haveMremap : Bool} {callMremap : ℕ → ℕ → ℕ → ℕ}
  {free : Mstate β → ℕ → Mstate β} {binsHold : β → (Tile → Prop) → Prop} {mparams : Mparams}
  {m : Mstate β} {mmaps : List ℕ} {p s a b minbytes maxbytes : ℕ}

/-! ## Live chunks -/

/-- **A chunk that `mmap` gave is one to the code**, and not one of a segment. -/
theorem MmappedChunk.check (h : MmappedChunk mparams m p) :
    rtcheck m p = true ∧ isMmapped m p = true ∧ ∀ t, ¬ InUse m p t := by
  obtain ⟨s, hpos, hhead, hfence, -⟩ := h.head
  refine ⟨?_, ?_, fun t ht => ?_⟩
  · simp only [rtcheck, isInuse, chunksize, hhead, hfence, fencepostHead, h.least, decide_true,
      Bool.and_true, Bool.not_false, Bool.or_true, Bool.true_and, decide_eq_true_eq]
    omega
  · simp only [isMmapped, hhead, Bool.not_false, Bool.and_true]
  · obtain ⟨-, -, -, hinuse, -⟩ := Chunk.tag ht
    rw [hhead] at hinuse
    exact absurd hinuse Bool.false_ne_true

/-- **A chunk in use is one to the code.** -/
theorem InUse.check (hm : WellFormed binsHold mparams m mmaps) (h : InUse m p s) :
    rtcheck m p = true ∧ isMmapped m p = false ∧ chunksize m p = s ∧ p ∉ mmaps := by
  obtain ⟨-, hpos, hsize, hinuse, hprev⟩ := Chunk.tag h
  simp only at hpos hsize hinuse hprev
  have hmmapped : isMmapped m p = false := by
    simp only [isMmapped, hinuse, Bool.not_true, Bool.false_and]
  refine ⟨?_, hmmapped, hsize, fun hp => ?_⟩
  · obtain ⟨g, hg, l, hrow, hl⟩ := h
    have hleast : m.leastAddr ≤ p := (hm.least g hg).trans (hrow.bounds hl).1
    simp only [rtcheck, isInuse, chunksize, hsize, hinuse, hprev, hleast, decide_true,
      Bool.true_or, Bool.and_true, Bool.true_and, decide_eq_true_eq]
    omega
  · rw [(hm.mmapped p hp).check.2.1] at hmmapped
    exact absurd hmmapped.symm Bool.false_ne_true

/-- The usable size of a chunk in use. -/
theorem InUse.dlSize_eq (h : InUse m p s) : dlSize m (chunk2mem p) = s - chunkOverhead := by
  obtain ⟨-, -, hsize, hinuse, -⟩ := Chunk.tag h
  simp only at hsize hinuse
  rw [dlSize, mem2chunk_chunk2mem, overheadFor, isMmapped, hinuse, Bool.not_true, Bool.false_and,
    if_neg Bool.false_ne_true, chunksize, hsize]

/-! ## The tail of a chunk -/

/-- What the two tags are after a chunk has been cut. -/
theorem setInuse_cut (hp : InUse m p (a + b)) (ha : 0 < a) (hb : 0 < b) :
    (setInuse (setInuse m p a) (p + a) b).head p = ⟨a, true, (m.head p).prevInuse⟩
      ∧ (setInuse (setInuse m p a) (p + a) b).head (p + a) = ⟨b, true, true⟩
      ∧ ∀ x, x ≠ p → x ≠ p + a →
        (setInuse (setInuse m p a) (p + a) b).head x = m.head x := by
  obtain ⟨-, -, -, -, hprev⟩ := Chunk.tag hp
  simp only at hprev
  have h1 : p ≠ p + a := by omega
  have h2 : p ≠ p + a + b := by omega
  have h3 : p + a ≠ p + a + b := by omega
  refine ⟨?_, ?_, fun x hx hx' => ?_⟩
  · simp only [setInuse, Mstate.setHead, Function.update_apply, if_neg h1, if_neg h2, if_true]
  · simp only [setInuse, Mstate.setHead, Function.update_apply, if_neg h1.symm, if_neg h3, if_true]
  · simp only [setInuse, Mstate.setHead, Function.update_apply, if_neg hx, if_neg hx']
    split
    · next heq =>
      subst heq
      have hne : p + a + b ≠ p + a := by omega
      have hne' : p + a + b ≠ p := by omega
      simp only [if_neg hne, if_neg hne']
      rw [Nat.add_assoc p a b] at *
      rw [← hprev]
    · rfl

/-- **The tail of a chunk returns to the heap.** -/
theorem freeTail_spec (hfree : Frees binsHold mparams free)
    (hm : WellFormed binsHold mparams m mmaps) (hp : InUse m p (a + b)) (ha : SizeOk a)
    (hb : SizeOk b) :
    WellFormed binsHold mparams (freeTail free m p a b) mmaps
      ∧ ∀ q t, InUse (freeTail free m p a b) q t ↔ InUse m q t ∧ q ≠ p ∨ q = p ∧ t = a := by
  have hapos : 0 < a := (Nat.succ_pos 31).trans_le ha.1
  have hbpos : 0 < b := (Nat.succ_pos 31).trans_le hb.1
  obtain ⟨h1, h2, hrest⟩ := setInuse_cut hp hapos hbpos
  let m₁ : Mstate β := { setInuse (setInuse m p a) (p + a) b with
    allocatedMemory := Word.sub 64 (setInuse (setInuse m p a) (p + a) b).allocatedMemory b }
  obtain ⟨hwell, hchunk⟩ := @WellFormed.split β binsHold mparams m m₁ mmaps p a b hm hp ha hb
    ⟨rfl, rfl, rfl, rfl⟩ h1 h2 hrest
  have htail : InUse m₁ (p + a) b := (hchunk _).mpr (Or.inr (Or.inr rfl))
  obtain ⟨hwell', hinuse, -⟩ := hfree m₁ mmaps (p + a) b hwell htail
  refine ⟨hwell', fun q t => (hinuse q t).trans ?_⟩
  rw [InUse, hchunk]
  constructor
  · rintro ⟨⟨hq, hne⟩ | heq | heq, hne'⟩
    · exact Or.inl ⟨hq, hne⟩
    · obtain ⟨rfl, rfl⟩ : q = p ∧ t = a := ⟨congrArg Tile.pos heq, congrArg Tile.size heq⟩
      exact Or.inr ⟨rfl, rfl⟩
    · exact absurd (congrArg Tile.pos heq) hne'
  · rintro (⟨hq, hne⟩ | ⟨rfl, rfl⟩)
    · refine ⟨Or.inl ⟨hq, hne⟩, fun heq => ?_⟩
      -- no chunk begins inside of another
      subst heq
      rcases hm.eq_or_apart hq hp with h | h | h
      · exact hne (congrArg Tile.pos h)
      · simp only at h
        have := (Chunk.tag hq).2.1
        simp only at this
        omega
      · simp only at h
        omega
    · exact ⟨Or.inr (Or.inl rfl), by omega⟩

/-! ## The call -/

/-- The least request that is padded is the least. -/
theorem max_minRequest_lt (h : minbytes < maxRequest) : max minbytes minRequest < maxRequest :=
  max_lt h (by decide)

/-- **A chunk of a segment shrinks as it is asked for.** -/
theorem shrink_of_inUse (hfree : Frees binsHold mparams free)
    (hm : WellFormed binsHold mparams m mmaps) (hp : InUse m p s) (minbytes maxbytes : ℕ) :
    ShrinkMeets binsHold mparams (boostContShrink haveMremap callMremap free mparams) m mmaps p
      minbytes maxbytes := by
  obtain ⟨hcheck, hmmapped, hsize, hnot⟩ := InUse.check hm hp
  have hrefuse : ∀ received, (∀ commit, boostContShrink haveMremap callMremap free mparams m
      (chunk2mem p) minbytes maxbytes commit = some (false, received, m)) →
      ShrinkMeets binsHold mparams (boostContShrink haveMremap callMremap free mparams) m mmaps p
        minbytes maxbytes :=
    fun received h => ⟨false, received, m, h true, h false, fun he => absurd he Bool.false_ne_true,
      fun _ => rfl⟩
  by_cases hserved : maxRequest ≤ minbytes ∨ maxRequest ≤ maxbytes
  · exact hrefuse _ fun commit => if_pos hserved
  by_cases hord : maxbytes < max minbytes minRequest
  · refine hrefuse (dlSize m (chunk2mem p)) fun commit => ?_
    rw [boostContShrink, internalShrink, if_neg hserved, if_pos hord]
  have hmin : max minbytes minRequest < maxRequest := max_minRequest_lt (by omega)
  obtain ⟨hok, hfits, -⟩ := request2size_spec hmin
  have hopen : ∀ commit, boostContShrink haveMremap callMremap free mparams m (chunk2mem p)
      minbytes maxbytes commit
        = if s < request2size (max minbytes minRequest) then
            some (false, dlSize m (chunk2mem p), m)
          else if minChunkSize ≤ s - request2size (max minbytes minRequest) then
            some (true, request2size (max minbytes minRequest) - overheadFor
              (if commit then freeTail free m p (request2size (max minbytes minRequest))
                (s - request2size (max minbytes minRequest)) else m) p,
              if commit then freeTail free m p (request2size (max minbytes minRequest))
                (s - request2size (max minbytes minRequest)) else m)
          else some (false, dlSize m (chunk2mem p), m) := by
    intro commit
    simp only [boostContShrink, internalShrink, if_neg hserved, if_neg hord, mem2chunk_chunk2mem,
      hcheck, hmmapped, hsize, if_true, Bool.false_eq_true, if_false]
  generalize request2size (max minbytes minRequest) = nb at hok hfits hopen
  by_cases hbig : s < nb
  · exact hrefuse _ fun commit => (hopen commit).trans (if_pos hbig)
  by_cases hrest : minChunkSize ≤ s - nb
  · have hsum : nb + (s - nb) = s := by omega
    have hsok : SizeOk s := (Chunk.tag hp).1
    obtain ⟨hwell, hinuse⟩ := @freeTail_spec β free binsHold mparams m mmaps p nb (s - nb) hfree hm
      (hsum.symm ▸ hp) hok ⟨hrest, Nat.dvd_sub hsok.2 hok.2⟩
    have hleft : InUse (freeTail free m p nb (s - nb)) p nb := (hinuse p nb).mpr (Or.inr ⟨rfl, rfl⟩)
    have hover : ∀ {m' : Mstate β} {t : ℕ}, InUse m' p t → overheadFor m' p = chunkOverhead := by
      intro m' t ht
      obtain ⟨-, -, -, hin, -⟩ := Chunk.tag ht
      simp only at hin
      rw [overheadFor, isMmapped, hin, Bool.not_true, Bool.false_and, if_neg Bool.false_ne_true]
    have hle := le_max_left minbytes minRequest
    refine ⟨true, nb - chunkOverhead, freeTail free m p nb (s - nb), ?_, ?_, fun _ => ?_,
      fun he => absurd he.symm Bool.false_ne_true⟩
    · rw [hopen, if_neg hbig, if_pos hrest, if_pos rfl, hover hleft]
    · rw [hopen, if_neg hbig, if_pos hrest, if_neg Bool.false_ne_true, hover hp]
    · refine ⟨Or.inr ⟨nb, hleft⟩, hleft.dlSize_eq, by omega, ?_, hwell, fun q t => ?_⟩
      · rw [hp.dlSize_eq]
        omega
      · have hnb : nb - chunkOverhead + chunkOverhead = nb := by omega
        rw [hinuse, hnb, and_iff_left hnot]
  · exact hrefuse _ fun commit => (hopen commit).trans ((if_neg hbig).trans (if_neg hrest))

/-- **A chunk that `mmap` gave is left alone**, unless it comes to remapping. -/
theorem shrink_of_mmapped (hm : WellFormed binsHold mparams m mmaps) (hp : p ∈ mmaps)
    (hno : ¬ Remaps haveMremap mparams m p minbytes maxbytes) :
    ShrinkMeets binsHold mparams (boostContShrink haveMremap callMremap free mparams) m mmaps p
      minbytes maxbytes := by
  obtain ⟨hcheck, hmmapped, -⟩ := (hm.mmapped p hp).check
  suffices h : ∃ received, ∀ commit, boostContShrink haveMremap callMremap free mparams m
      (chunk2mem p) minbytes maxbytes commit = some (false, received, m) by
    obtain ⟨received, h⟩ := h
    exact ⟨false, received, m, h true, h false, fun he => absurd he Bool.false_ne_true,
      fun _ => rfl⟩
  simp only [boostContShrink, internalShrink, mem2chunk_chunk2mem, hcheck, hmmapped, if_true,
    internalMmapShrinkInPlace]
  by_cases hserved : maxRequest ≤ minbytes ∨ maxRequest ≤ maxbytes
  · exact ⟨_, fun commit => if_pos hserved⟩
  by_cases hord : maxbytes < max minbytes minRequest
  · exact ⟨_, fun commit => (if_neg hserved).trans (if_pos hord)⟩
  by_cases hbig : chunksize m p < request2size (max minbytes minRequest)
  · exact ⟨_, fun commit => (if_neg hserved).trans ((if_neg hord).trans (if_pos hbig))⟩
  refine ⟨chunksize m p, fun commit => (if_neg hserved).trans ((if_neg hord).trans
    ((if_neg hbig).trans ?_))⟩
  by_cases hhave : haveMremap = true
  · rw [if_pos hhave]
    by_cases hsmall : isSmall (request2size maxbytes) = true
    · rw [if_pos hsmall]
    · rw [if_neg hsmall]
      refine if_pos ?_
      by_contra hkeep
      exact hno ⟨hhave, hmmapped, by omega, by omega, by omega, Bool.eq_false_iff.mpr hsmall,
        Bool.eq_false_iff.mpr hkeep⟩
  · rw [if_neg hhave]

/-- **What remapping does to the footprint**, which is nothing only if the region keeps its
size. -/
theorem remap_eq_some {m' : Mstate β} {nbmin : ℕ}
    (h : remap callMremap mparams m p nbmin = some m') :
    m'.footprint = Word.add 64 m.footprint
      (Word.sub 64 (newRegionSize mparams nbmin) (regionSize m p)) := by
  rw [remap] at h
  split at h
  · exact absurd h.symm (Option.some_ne_none _)
  · obtain rfl := Option.some.inj h
    rfl

/-- A sum that is one of the words was added nothing. -/
theorem eq_of_add_sub {f x y : ℕ} (hx : x < 2 ^ 64) (hy : y < 2 ^ 64)
    (h : Word.add 64 f (Word.sub 64 x y) = f) : x = y := by
  unfold Word.add Word.sub at h
  omega

/-- **What comes to remapping is not as it is asked for.** -/
theorem not_shrinkMeets_of_remaps (hp : MmappedChunk mparams m p)
    (hr : Remaps haveMremap mparams m p minbytes maxbytes) :
    ¬ ShrinkMeets binsHold mparams (boostContShrink haveMremap callMremap free mparams) m mmaps p
      minbytes maxbytes := by
  obtain ⟨hcheck, hmmapped, -⟩ := hp.check
  obtain ⟨hhave, -, hserved, hord, henough, hlarge, hchanges⟩ := hr
  have hserved' : ¬ (maxRequest ≤ minbytes ∨ maxRequest ≤ maxbytes) := by omega
  have hmin : minChunkSize ≤ request2size (max minbytes minRequest) :=
    (request2size_spec (max_minRequest_lt hserved.1)).1.1
  rintro ⟨ok, received, m', hcommit, htry, hshrunk, -⟩
  simp only [boostContShrink, internalShrink, internalMmapShrinkInPlace, mem2chunk_chunk2mem,
    if_neg hserved', if_neg (not_lt.mpr hord), hcheck, if_true, if_neg (not_lt.mpr henough),
    hmmapped, hhave, hlarge, hchanges, Bool.false_eq_true, if_false, Option.some.injEq,
    Prod.mk.injEq, Option.map_eq_some_iff] at hcommit htry
  obtain ⟨rfl, rfl, hsame⟩ := hcommit
  rw [← hsame] at hshrunk
  obtain ⟨m₂, hremap, -, -, hsame'⟩ := htry
  rw [hsame'] at hremap
  have husable := (hshrunk rfl).usable
  have hfoot := eq_of_add_sub (Nat.and_lt_two_pow _ (by
    have := Nat.two_pow_pos 64
    unfold Word.compl
    omega)) (Word.add_lt _ _) (remap_eq_some hremap).symm
  rw [dlSize, mem2chunk_chunk2mem, overheadFor, if_pos hmmapped] at husable
  have hprev := hp.foot
  unfold minChunkSize at hmin
  -- the region would be smaller than its own chunk
  have hregion : regionSize m p = (chunksize m p + m.prevFoot p + 32) % 2 ^ 64 := by
    unfold regionSize Word.add mmapFootPad sizeTSize
    omega
  rw [show newRegionSize mparams (request2size (max minbytes minRequest)) = regionSize m p from
    hfoot, hregion] at husable
  unfold mmapChunkOverhead sizeTSize at husable
  omega

/-- **A shrink is as it is asked for** if and only if it does not come to remapping. -/
theorem boostContShrink_meets_iff (hfree : Frees binsHold mparams free)
    (hm : WellFormed binsHold mparams m mmaps) (hp : Live m mmaps p) (minbytes maxbytes : ℕ) :
    ShrinkMeets binsHold mparams (boostContShrink haveMremap callMremap free mparams) m mmaps p
      minbytes maxbytes ↔ ¬ Remaps haveMremap mparams m p minbytes maxbytes := by
  constructor
  · intro h hr
    rcases hp with hp | ⟨s, hp⟩
    · exact not_shrinkMeets_of_remaps (hm.mmapped p hp) hr h
    · exact absurd (hr.mmapped.symm.trans (InUse.check hm hp).2.1).symm Bool.false_ne_true
  · intro hno
    rcases hp with hp | ⟨s, hp⟩
    · exact shrink_of_mmapped hm hp hno
    · exact shrink_of_inUse hfree hm hp minbytes maxbytes

end Shrink

/-! ## Two heaps -/

/-- The parameters of a machine with pages of 4 KiB. -/
def fourKiB : Mparams := ⟨4096, 65536⟩

/-- A heap of one chunk, which is in use. -/
def oneChunk : Mstate (List Tile) where
  head := fun x => if x = 16 then ⟨128, true, true⟩ else ⟨0, true, true⟩
  prevFoot := fun _ => 0
  segs := [(16, 144)]
  leastAddr := 16
  footprint := 4096
  maxFootprint := 4096
  useMmap := true
  allocatedMemory := 128
  bins := []

/-- A heap whose one chunk `mmap` gave. -/
def oneRegion : Mstate (List Tile) where
  head := fun x =>
    if x = 65536 then ⟨262112, false, false⟩
    else if x = 327648 then fencepostHead
    else ⟨0, false, false⟩
  prevFoot := fun _ => 0
  segs := []
  leastAddr := 65536
  footprint := 262144
  maxFootprint := 262144
  useMmap := true
  allocatedMemory := 262112
  bins := []

theorem oneChunk_row :
    Row oneChunk.head SizeOk true 16 144 [⟨16, 128, true⟩] :=
  Row.cons_of_tag rfl ⟨by decide, by decide⟩ (by decide) (Or.inl rfl) (Row.nil rfl)

theorem oneChunk_chunk {t : Tile} (h : Chunk oneChunk t) : t = ⟨16, 128, true⟩ := by
  obtain ⟨g, hg, l, hrow, ht⟩ := h
  obtain rfl := List.mem_singleton.mp hg
  rw [hrow.unique oneChunk_row] at ht
  exact List.mem_singleton.mp ht

theorem oneChunk_wellFormed : WellFormed binsList fourKiB oneChunk [] := by
  have hused : ∀ t, Chunk oneChunk t → t.inuse = false → False := by
    intro t ht hfree
    rw [oneChunk_chunk ht] at hfree
    exact absurd hfree.symm Bool.false_ne_true
  refine ⟨fun g hg => ?_, List.pairwise_singleton _ _, fun g hg => ?_,
    fun t ht hfree => (hused t ht hfree).elim, fun t => ?_, fun _ hq => absurd hq List.not_mem_nil⟩
  · obtain rfl := List.mem_singleton.mp hg
    exact ⟨_, oneChunk_row⟩
  · obtain rfl := List.mem_singleton.mp hg
    exact le_rfl
  · exact ⟨fun ht => absurd ht List.not_mem_nil, fun ht => (hused t ht.1 ht.2).elim⟩

/-- A chunk of 128 bytes shrinks, and its tail is freed. -/
theorem boostContShrink_meets_of_oneChunk :
    ShrinkMeets binsList fourKiB
      (boostContShrink false (fun a _ _ => a) freeChunk fourKiB) oneChunk [] 16 0 200 := by
  have hlive : Live oneChunk [] 16 :=
    Or.inr ⟨128, (16, 144), List.mem_singleton.mpr rfl, _, oneChunk_row, List.mem_singleton.mpr rfl⟩
  exact (boostContShrink_meets_iff (frees_freeChunk fourKiB) oneChunk_wellFormed hlive 0 200).mpr
    (fun h => absurd h.haveMremap Bool.false_ne_true)

theorem oneRegion_mmapped : MmappedChunk fourKiB oneRegion 65536 :=
  ⟨⟨262112, by decide, rfl, rfl, rfl⟩, by decide, le_rfl, fun _ hg => absurd hg List.not_mem_nil⟩

theorem oneRegion_wellFormed : WellFormed binsList fourKiB oneRegion [65536] := by
  have hnone : ∀ t, ¬ Chunk oneRegion t := by
    rintro t ⟨g, hg, -⟩
    exact absurd hg List.not_mem_nil
  refine ⟨fun g hg => absurd hg List.not_mem_nil, List.Pairwise.nil,
    fun g hg => absurd hg List.not_mem_nil, fun t ht => (hnone t ht).elim,
    fun t => ⟨fun ht => absurd ht List.not_mem_nil, fun ht => (hnone t ht.1).elim⟩,
    fun q hq => ?_⟩
  rw [List.mem_singleton.mp hq]
  exact oneRegion_mmapped

/-- **A region of 256 KiB, asked to shrink to 1000 bytes**: to try remaps it, to commit
does not. -/
theorem shrink_remaps_to_try :
    WellFormed binsList fourKiB oneRegion [65536] ∧ Live oneRegion [65536] 65536
      ∧ ¬ ShrinkMeets binsList fourKiB
        (boostContShrink true (fun a _ _ => a) freeChunk fourKiB) oneRegion [65536] 65536
          1000 100000 :=
  ⟨oneRegion_wellFormed, Or.inl (List.mem_singleton.mpr rfl),
    not_shrinkMeets_of_remaps oneRegion_mmapped ⟨rfl, rfl, by decide, by decide, by decide,
      by decide, by decide⟩⟩

end Dlmalloc
