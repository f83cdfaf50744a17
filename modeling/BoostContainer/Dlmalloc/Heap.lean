import BoostContainer.Lib.BoundaryTags
import BoostContainer.Lib.Word

/-!
# The heap of dlmalloc

The heap is a number of segments, each tiled by chunks with a tag before each
(`head`). A chunk of its own, outside of the segments, is obtained from the
system by `mmap`; its tag says so, and a fencepost is behind it. The sizes are
those of a machine of 64 bits, without footers.

The bins, in which the free chunks are found, are a parameter, with what it means
that they hold the free chunks of a heap; so are the functions that only work on
them, `mspace_malloc_lockless` and `mspace_free_lockless`. What is asked of them is
what they are for: a chunk that is obtained was not in use, one that is freed is
no longer, and all the others stay.
-/

namespace Dlmalloc

open BoundaryTags

/-! ## Sizes -/

/-- `SIZE_T_SIZE`. -/
def sizeTSize : ℕ := 8

/-- `CHUNK_ALIGN_MASK`. -/
def chunkAlignMask : ℕ := 15

/-- `CHUNK_OVERHEAD`. -/
def chunkOverhead : ℕ := sizeTSize

/-- `MMAP_CHUNK_OVERHEAD`. -/
def mmapChunkOverhead : ℕ := 2 * sizeTSize

/-- `MMAP_FOOT_PAD`. -/
def mmapFootPad : ℕ := 4 * sizeTSize

/-- `MIN_CHUNK_SIZE`. -/
def minChunkSize : ℕ := 32

/-- `MAX_REQUEST`. -/
def maxRequest : ℕ := 2 ^ 64 - 128

/-- `MIN_REQUEST`. -/
def minRequest : ℕ := minChunkSize - chunkOverhead - 1

/-- **`pad_request`**, in words. -/
def padRequest (req : ℕ) : ℕ :=
  Word.add 64 (Word.add 64 req chunkOverhead) chunkAlignMask / 16 * 16

/-- **`request2size`.** -/
def request2size (req : ℕ) : ℕ := if req < minRequest then minChunkSize else padRequest req

/-- The offset of `chunk2mem`. -/
def memOffset : ℕ := 2 * sizeTSize

/-- `chunk2mem`. -/
def chunk2mem (p : ℕ) : ℕ := p + memOffset

/-- `mem2chunk`. -/
def mem2chunk (mem : ℕ) : ℕ := mem - memOffset

@[simp] theorem mem2chunk_chunk2mem (p : ℕ) : mem2chunk (chunk2mem p) = p :=
  Nat.add_sub_cancel p memOffset

/-- The size of a chunk: aligned, and not less than the least. -/
def SizeOk (s : ℕ) : Prop := minChunkSize ≤ s ∧ 16 ∣ s

/-- **A request is padded to the next size of a chunk that it fits into.** -/
theorem request2size_spec {req : ℕ} (h : req < maxRequest) :
    SizeOk (request2size req) ∧ req + chunkOverhead ≤ request2size req
      ∧ request2size req < req + chunkOverhead + 32 := by
  unfold request2size
  split
  · next hmin =>
    unfold minRequest minChunkSize chunkOverhead sizeTSize at *
    exact ⟨⟨le_rfl, by decide⟩, by omega, by omega⟩
  · next hmin =>
    unfold maxRequest at h
    unfold minRequest minChunkSize chunkOverhead sizeTSize at *
    have hpad : padRequest req = (req + 8 + 15) / 16 * 16 := by
      unfold padRequest chunkOverhead sizeTSize chunkAlignMask
      rw [Word.add_of_lt (a := req) (by omega), Word.add_of_lt (by omega)]
    rw [hpad]
    exact ⟨⟨by unfold minChunkSize; omega, Nat.dvd_mul_left _ _⟩, by omega, by omega⟩

/-! ## The state -/

/-- **`malloc_state`**, as far as it is read here, with the memory: the heads and feet
of the chunks, and the segments. `allocatedMemory` is `s_allocated_memory`. -/
structure Mstate (β : Type*) where
  head : ℕ → Tag
  prevFoot : ℕ → ℕ
  segs : List (ℕ × ℕ)
  leastAddr : ℕ
  footprint : ℕ
  maxFootprint : ℕ
  useMmap : Bool
  allocatedMemory : ℕ
  bins : β

/-- `malloc_params`. -/
structure Mparams where
  pageSize : ℕ
  granularity : ℕ

variable {β : Type*}

/-- `chunksize`. -/
def chunksize (m : Mstate β) (p : ℕ) : ℕ := (m.head p).size

/-- `is_inuse`. -/
def isInuse (m : Mstate β) (p : ℕ) : Bool := (m.head p).inuse || !(m.head p).prevInuse

/-- `is_mmapped`. -/
def isMmapped (m : Mstate β) (p : ℕ) : Bool := !(m.head p).inuse && !(m.head p).prevInuse

/-- `overhead_for`. -/
def overheadFor (m : Mstate β) (p : ℕ) : ℕ :=
  if isMmapped m p then mmapChunkOverhead else chunkOverhead

/-- `DL_SIZE_IMPL`: the usable size of a chunk. -/
def dlSize (m : Mstate β) (mem : ℕ) : ℕ :=
  chunksize m (mem2chunk mem) - overheadFor m (mem2chunk mem)

/-- A head is written. -/
def Mstate.setHead (m : Mstate β) (p : ℕ) (t : Tag) : Mstate β :=
  { m with head := Function.update m.head p t }

/-- **`set_inuse`.** -/
def setInuse (m : Mstate β) (p s : ℕ) : Mstate β :=
  let m := m.setHead p ⟨s, true, (m.head p).prevInuse⟩
  m.setHead (p + s) { m.head (p + s) with prevInuse := true }

/-- **`set_size_and_pinuse_of_inuse_chunk`.** -/
def setSizeAndPinuseOfInuseChunk (m : Mstate β) (p s : ℕ) : Mstate β := m.setHead p ⟨s, true, true⟩

/-- `FENCEPOST_HEAD`. -/
def fencepostHead : Tag := ⟨sizeTSize, true, true⟩

/-! ## Well-formed heaps -/

/-- A chunk of a segment. -/
def Chunk (m : Mstate β) (t : Tile) : Prop :=
  ∃ g ∈ m.segs, ∃ l, Row m.head SizeOk true g.1 g.2 l ∧ t ∈ l

/-- **A chunk of a segment is in use.** -/
def InUse (m : Mstate β) (p s : ℕ) : Prop := Chunk m ⟨p, s, true⟩

/-- **A chunk that `mmap` gave**, outside of the segments. -/
structure MmappedChunk (mparams : Mparams) (m : Mstate β) (p : ℕ) : Prop where
  head : ∃ s, 0 < s ∧ m.head p = ⟨s, false, false⟩ ∧ m.head (p + s) = fencepostHead
    ∧ (s + m.prevFoot p + mmapFootPad) % mparams.pageSize = 0
  foot : m.prevFoot p < 16
  least : m.leastAddr ≤ p
  outside : ∀ g ∈ m.segs, p + chunksize m p + mmapFootPad ≤ g.1 ∨ g.2 < p

/-- **A heap is well-formed**: its segments are tiled by chunks and apart, a free chunk
has its size behind it, the bins hold the free chunks, and the chunks that `mmap`
gave are outside. -/
structure WellFormed (binsHold : β → (Tile → Prop) → Prop) (mparams : Mparams) (m : Mstate β)
    (mmaps : List ℕ) : Prop where
  rows : ∀ g ∈ m.segs, ∃ l, Row m.head SizeOk true g.1 g.2 l
  apart : m.segs.Pairwise (fun g g' => g.2 < g'.1 ∨ g'.2 < g.1)
  least : ∀ g ∈ m.segs, m.leastAddr ≤ g.1
  feet : ∀ t, Chunk m t → t.inuse = false → m.prevFoot (t.pos + t.size) = t.size
  bins : binsHold m.bins (fun t => Chunk m t ∧ t.inuse = false)
  mmapped : ∀ p ∈ mmaps, MmappedChunk mparams m p

/-- **What `mspace_free_lockless` is for**: a chunk that is in use is no longer in use,
and every other chunk that is stays. -/
def Frees (binsHold : β → (Tile → Prop) → Prop) (mparams : Mparams)
    (free : Mstate β → ℕ → Mstate β) : Prop :=
  ∀ m mmaps p s, WellFormed binsHold mparams m mmaps → InUse m p s →
    WellFormed binsHold mparams (free m (chunk2mem p)) mmaps
      ∧ (∀ q t, InUse (free m (chunk2mem p)) q t ↔ InUse m q t ∧ q ≠ p)
      ∧ (free m (chunk2mem p)).useMmap = m.useMmap

section WellFormed

variable {binsHold : β → (Tile → Prop) → Prop} {mparams : Mparams} {m m' : Mstate β}
  {mmaps : List ℕ} {p s : ℕ} {t t' : Tile}

/-- What the tags say of a chunk. -/
theorem Chunk.tag (h : Chunk m t) : SizeOk t.size ∧ 0 < t.size ∧ (m.head t.pos).size = t.size
    ∧ (m.head t.pos).inuse = t.inuse ∧ (m.head (t.pos + t.size)).prevInuse = t.inuse := by
  obtain ⟨g, -, l, hrow, ht⟩ := h
  exact hrow.tag ht

/-- A chunk is known by its address. -/
theorem Chunk.eq_of_pos (h : Chunk m t) (h' : Chunk m t') (hpos : t.pos = t'.pos) : t = t' := by
  obtain ⟨-, -, hsize, hinuse, -⟩ := h.tag
  obtain ⟨-, -, hsize', hinuse', -⟩ := h'.tag
  rw [← hpos] at hsize' hinuse'
  exact Tile.ext hpos (hsize.symm.trans hsize') (hinuse.symm.trans hinuse')

/-- Two segments are apart. -/
theorem WellFormed.apart_of_ne (hm : WellFormed binsHold mparams m mmaps) {g g' : ℕ × ℕ}
    (hg : g ∈ m.segs) (hg' : g' ∈ m.segs) (hne : g ≠ g') : g.2 < g'.1 ∨ g'.2 < g.1 := by
  have : Std.Symm (fun g g' : ℕ × ℕ => g.2 < g'.1 ∨ g'.2 < g.1) := ⟨fun _ _ h => h.symm⟩
  exact hm.apart.forall hg hg' hne

/-- **Two chunks are one, or apart.** -/
theorem WellFormed.eq_or_apart (hm : WellFormed binsHold mparams m mmaps) (ht : Chunk m t)
    (ht' : Chunk m t') : t = t' ∨ t.pos + t.size ≤ t'.pos ∨ t'.pos + t'.size ≤ t.pos := by
  obtain ⟨g, hg, l, hrow, hl⟩ := ht
  obtain ⟨g', hg', l', hrow', hl'⟩ := ht'
  by_cases heq : g = g'
  · subst heq
    exact hrow.eq_or_apart hl (hrow.unique hrow' ▸ hl')
  · have hb := hrow.bounds hl
    have hb' := hrow'.bounds hl'
    rcases hm.apart_of_ne hg hg' heq with h | h
    · exact Or.inr (Or.inl (by omega))
    · exact Or.inr (Or.inr (by omega))

/-- What a heap has besides the heads, and what is counted. -/
structure SameRest (m m' : Mstate β) : Prop where
  segs : m'.segs = m.segs
  prevFoot : m'.prevFoot = m.prevFoot
  leastAddr : m'.leastAddr = m.leastAddr
  bins : m'.bins = m.bins

/-- **One segment is tiled anew**, and the others stay. -/
theorem WellFormed.retile {g : ℕ × ℕ} {l l' : List Tile} (hm : WellFormed binsHold mparams m mmaps)
    (hg : g ∈ m.segs) (hrow : Row m.head SizeOk true g.1 g.2 l)
    (hrow' : Row m'.head SizeOk true g.1 g.2 l') (hsegs : m'.segs = m.segs)
    (hout : ∀ x, x < g.1 ∨ g.2 < x → m'.head x = m.head x) :
    (∀ g' ∈ m'.segs, ∃ k, Row m'.head SizeOk true g'.1 g'.2 k)
      ∧ ∀ t, Chunk m' t ↔ Chunk m t ∧ t ∉ l ∨ t ∈ l' := by
  have hother : ∀ g' ∈ m.segs, g' ≠ g → ∀ {k}, Row m.head SizeOk true g'.1 g'.2 k →
      Row m'.head SizeOk true g'.1 g'.2 k := by
    intro g' hg' hne k hk
    have hle := hk.le
    have hsame : ∀ x, g'.1 ≤ x → x ≤ g'.2 → m'.head x = m.head x := fun x hx hx' =>
      hout x ((hm.apart_of_ne hg' hg hne).elim (fun _ => Or.inl (by omega))
        (fun _ => Or.inr (by omega)))
    refine hk.congr (fun t ht => ?_) (hsame _ hle le_rfl)
    have hb := hk.bounds ht
    exact hsame _ hb.1 (by omega)
  -- a chunk of another segment is not of this one
  have hnot : ∀ g' ∈ m.segs, g' ≠ g → ∀ {k}, Row m.head SizeOk true g'.1 g'.2 k →
      ∀ t ∈ k, t ∉ l := by
    intro g' hg' hne k hk t ht hl
    have hb := hk.bounds ht
    have hb' := hrow.bounds hl
    rcases hm.apart_of_ne hg' hg hne with h | h <;> omega
  refine ⟨fun g' hg' => ?_, fun t => ⟨?_, ?_⟩⟩
  · rw [hsegs] at hg'
    by_cases heq : g' = g
    · exact ⟨l', heq ▸ hrow'⟩
    · obtain ⟨k, hk⟩ := hm.rows g' hg'
      exact ⟨k, hother g' hg' heq hk⟩
  · rintro ⟨g', hg', k, hk, ht⟩
    rw [hsegs] at hg'
    by_cases heq : g' = g
    · subst heq
      exact Or.inr (hk.unique hrow' ▸ ht)
    · obtain ⟨k', hk'⟩ := hm.rows g' hg'
      rw [hk.unique (hother g' hg' heq hk')] at ht
      exact Or.inl ⟨⟨g', hg', k', hk', ht⟩, hnot g' hg' heq hk' t ht⟩
  · rintro (⟨⟨g', hg', k, hk, ht⟩, hl⟩ | ht)
    · by_cases heq : g' = g
      · subst heq
        exact absurd (hk.unique hrow ▸ ht) hl
      · exact ⟨g', hsegs ▸ hg', k, hother g' hg' heq hk, ht⟩
    · exact ⟨g, hsegs ▸ hg, l', hrow', ht⟩

/-- **What `mmap` gave** is not touched by what is written in a segment. -/
theorem MmappedChunk.of_segment {g : ℕ × ℕ} {q : ℕ} (h : MmappedChunk mparams m q)
    (hg : g ∈ m.segs) (hsegs : m'.segs = m.segs) (hleast : m'.leastAddr = m.leastAddr)
    (hout : ∀ x, x < g.1 ∨ g.2 < x → m'.head x = m.head x)
    (hfoot : ∀ x, x < g.1 ∨ g.2 < x → m'.prevFoot x = m.prevFoot x) :
    MmappedChunk mparams m' q := by
  obtain ⟨⟨s, hs, hhead, hfence, hpage⟩, hprev, hle, houtside⟩ := h
  have hsep := houtside g hg
  rw [chunksize, hhead] at hsep
  simp only [mmapFootPad, sizeTSize] at hsep
  have hqout : q < g.1 ∨ g.2 < q := by omega
  have hq : m'.head q = m.head q := hout q hqout
  have hqs : m'.head (q + s) = m.head (q + s) := hout _ (by omega)
  refine ⟨⟨s, hs, hq.trans hhead, hqs.trans hfence, ?_⟩, ?_, ?_, ?_⟩
  · rw [hfoot q hqout]
    exact hpage
  · rw [hfoot q hqout]
    exact hprev
  · rw [hleast]
    exact hle
  · rw [hsegs, chunksize, hq]
    exact houtside

/-- **A chunk in use is divided into two.** -/
theorem WellFormed.split {a b : ℕ} (hm : WellFormed binsHold mparams m mmaps)
    (hp : InUse m p (a + b)) (ha : SizeOk a) (hb : SizeOk b) (hsame : SameRest m m')
    (h1 : m'.head p = ⟨a, true, (m.head p).prevInuse⟩) (h2 : m'.head (p + a) = ⟨b, true, true⟩)
    (hrest : ∀ x, x ≠ p → x ≠ p + a → m'.head x = m.head x) :
    WellFormed binsHold mparams m' mmaps
      ∧ ∀ t, Chunk m' t ↔ Chunk m t ∧ t.pos ≠ p ∨ t = ⟨p, a, true⟩ ∨ t = ⟨p + a, b, true⟩ := by
  have hpchunk := hp
  obtain ⟨g, hg, l, hrow, hl⟩ := hp
  have hapos : 0 < a := (Nat.succ_pos 31).trans_le ha.1
  have hbpos : 0 < b := (Nat.succ_pos 31).trans_le hb.1
  have hbound := hrow.bounds hl
  simp only at hbound
  obtain ⟨l', hrow', hmem⟩ := hrow.split hl ha hb hapos hbpos h1 h2 hrest
  have hout : ∀ x, x < g.1 ∨ g.2 < x → m'.head x = m.head x :=
    fun x hx => hrest x (by omega) (by omega)
  obtain ⟨hrows, hchunk'⟩ := hm.retile hg hrow hrow' hsame.segs hout
  have hchunk : ∀ t, Chunk m' t ↔
      Chunk m t ∧ t.pos ≠ p ∨ t = ⟨p, a, true⟩ ∨ t = ⟨p + a, b, true⟩ := by
    intro t
    rw [hchunk', hmem]
    constructor
    · rintro (⟨ht, hnot⟩ | ⟨ht, hne⟩ | h)
      · exact Or.inl ⟨ht, fun hpos => hnot (ht.eq_of_pos hpchunk hpos ▸ hl)⟩
      · exact Or.inl ⟨⟨g, hg, l, hrow, ht⟩, hne⟩
      · exact Or.inr h
    · rintro (⟨ht, hne⟩ | h)
      · by_cases hin : t ∈ l
        · exact Or.inr (Or.inl ⟨hin, hne⟩)
        · exact Or.inl ⟨ht, hin⟩
      · exact Or.inr (Or.inr h)
  have hfree : ∀ t, Chunk m' t ∧ t.inuse = false ↔ Chunk m t ∧ t.inuse = false := by
    intro t
    rw [hchunk]
    constructor
    · rintro ⟨⟨h, -⟩ | rfl | rfl, hf⟩
      · exact ⟨h, hf⟩
      · exact absurd hf (Bool.false_ne_true ∘ Eq.symm)
      · exact absurd hf (Bool.false_ne_true ∘ Eq.symm)
    · rintro ⟨h, hf⟩
      refine ⟨Or.inl ⟨h, fun hpos => ?_⟩, hf⟩
      rw [h.eq_of_pos hpchunk hpos] at hf
      exact absurd hf (Bool.false_ne_true ∘ Eq.symm)
  refine ⟨⟨hrows, ?_, ?_, ?_, ?_, ?_⟩, hchunk⟩
  · rw [hsame.segs]
    exact hm.apart
  · rw [hsame.segs, hsame.leastAddr]
    exact hm.least
  · intro t ht hf
    rw [hsame.prevFoot]
    exact hm.feet t ((hfree t).mp ⟨ht, hf⟩).1 hf
  · have heq : (fun t => Chunk m' t ∧ t.inuse = false) = fun t => Chunk m t ∧ t.inuse = false :=
      funext (fun t => propext (hfree t))
    rw [heq, hsame.bins]
    exact hm.bins
  · exact fun q hq => (hm.mmapped q hq).of_segment hg hsame.segs hsame.leastAddr hout
      (fun x _ => by rw [hsame.prevFoot])

end WellFormed

end Dlmalloc
