import BoostContainer.Dlmalloc.Heap

/-!
# A heap that frees

What `mspace_free_lockless` is asked for (`Frees`) can be done, and in the way it does it:
the chunk that is freed joins the free chunk before it, which its foot tells, and the one
behind it, and all that is written is one tag at the begin, one foot and one bit at the
end. The bins are a list of the free chunks here.
-/

namespace Dlmalloc

open BoundaryTags

/-- The bins hold these chunks. -/
def binsList (bins : List Tile) (P : Tile → Prop) : Prop := ∀ t, t ∈ bins ↔ P t

/-- Where the free chunk begins that a freed one joins. -/
def freeLo (m : Mstate (List Tile)) (p : ℕ) : ℕ :=
  if (m.head p).prevInuse then p else p - m.prevFoot p

/-- Where it ends: not behind the end of the segment. -/
def freeHi (m : Mstate (List Tile)) (last next : ℕ) : ℕ :=
  if next = last ∨ (m.head next).inuse then next else next + (m.head next).size

/-- The free chunk is written, between two addresses. -/
def writeFree (m : Mstate (List Tile)) (lo hi : ℕ) : Mstate (List Tile) :=
  let m := m.setHead lo ⟨hi - lo, false, true⟩
  let m := m.setHead hi { m.head hi with prevInuse := false }
  { m with
    prevFoot := Function.update m.prevFoot hi (hi - lo)
    bins := ⟨lo, hi - lo, false⟩ :: m.bins.filter (fun t => t.pos < lo || hi ≤ t.pos) }

/-- **A chunk is freed**, in the segment that it is in. -/
def freeChunk (m : Mstate (List Tile)) (mem : ℕ) : Mstate (List Tile) :=
  let p := mem2chunk mem
  match m.segs.find? (fun g => decide (g.1 ≤ p) && decide (p < g.2)) with
  | some g => writeFree m (freeLo m p) (freeHi m g.2 (p + chunksize m p))
  | none => m

section Free

variable {mparams : Mparams} {m : Mstate (List Tile)} {mmaps : List ℕ} {p s lo hi : ℕ}
  {g : ℕ × ℕ} {l : List Tile}

theorem sizeOk_add {a b : ℕ} (ha : SizeOk a) (hb : SizeOk b) : SizeOk (a + b) :=
  ⟨ha.1.trans (Nat.le_add_right a b), Nat.dvd_add ha.2 hb.2⟩

/-- The segment of a chunk is found. -/
theorem find_segment (hm : WellFormed binsList mparams m mmaps) (hg : g ∈ m.segs)
    (hrow : Row m.head SizeOk true g.1 g.2 l) (hl : ⟨p, s, true⟩ ∈ l) :
    m.segs.find? (fun g => decide (g.1 ≤ p) && decide (p < g.2)) = some g := by
  have hb := hrow.bounds hl
  have hpos := (hrow.tag hl).2.1
  simp only at hb hpos
  cases hfind : m.segs.find? (fun g => decide (g.1 ≤ p) && decide (p < g.2)) with
  | none =>
    have hnot := List.find?_eq_none.mp hfind g hg
    simp only [Bool.and_eq_true, decide_eq_true_eq, not_and] at hnot
    exact absurd (show p < g.2 by omega) (hnot hb.1)
  | some g' =>
    have hin := List.find?_some hfind
    simp only [Bool.and_eq_true, decide_eq_true_eq] at hin
    by_cases heq : g' = g
    · rw [heq]
    · rcases hm.apart_of_ne (List.mem_of_find?_eq_some hfind) hg heq with h | h <;> omega

/-- **The chunk before is found** from its foot. -/
theorem freeFrom_freeLo (hm : WellFormed binsList mparams m mmaps) (hg : g ∈ m.segs)
    (hrow : Row m.head SizeOk true g.1 g.2 l) (hl : ⟨p, s, true⟩ ∈ l) :
    Row.FreeFrom m.head l p (freeLo m p) := by
  unfold freeLo
  by_cases hprev : (m.head p).prevInuse = true
  · rw [if_pos hprev]
    exact Or.inl ⟨hprev, rfl⟩
  · obtain ⟨l₁, l₂, rfl, hfront, -, -⟩ := hrow.exists_around hl
    rcases hfront.exists_free_before (Bool.eq_false_iff.mpr hprev) with
      ⟨h, -⟩ | ⟨t, ht, hend, hfree⟩
    · exact absurd h.symm Bool.false_ne_true
    · have hmem : t ∈ l₁ ++ ⟨p, s, true⟩ :: l₂ := List.mem_append_left _ ht
      have hfoot := hm.feet t ⟨g, hg, _, hrow, hmem⟩ hfree
      obtain ⟨pos, size, inuse⟩ := t
      simp only at hend hfree hfoot
      subst hfree
      rw [hend] at hfoot
      have hlo : p - m.prevFoot p = pos := by omega
      rw [if_neg hprev, hlo]
      exact Or.inr ⟨size, hmem, hend⟩

theorem freeTo_freeHi (last next : ℕ) :
    Row.FreeTo m.head last next (freeHi m last next) := by
  unfold freeHi
  split
  · rename_i h
    exact Or.inl ⟨h, rfl⟩
  · rename_i h
    rw [not_or] at h
    exact Or.inr ⟨h.1, Bool.eq_false_iff.mpr h.2, rfl⟩

/-- What is written. -/
theorem writeFree_head (hne : lo ≠ hi) :
    (writeFree m lo hi).head lo = ⟨hi - lo, false, true⟩
      ∧ (writeFree m lo hi).head hi = { m.head hi with prevInuse := false }
      ∧ ∀ x, x ≠ lo → x ≠ hi → (writeFree m lo hi).head x = m.head x := by
  refine ⟨?_, ?_, fun x hx hx' => ?_⟩
  · show Function.update (Function.update m.head lo _) hi _ lo = _
    rw [Function.update_of_ne hne, Function.update_self]
  · show Function.update (Function.update m.head lo _) hi _ hi = _
    rw [Function.update_self]
    show ({ Function.update m.head lo _ hi with prevInuse := false } : Tag) = _
    rw [Function.update_of_ne hne.symm]
  · show Function.update (Function.update m.head lo _) hi _ x = _
    rw [Function.update_of_ne hx', Function.update_of_ne hx]

/-- **The heap is well-formed after it**, and one chunk is no longer in use. -/
theorem writeFree_spec (hm : WellFormed binsList mparams m mmaps) (hg : g ∈ m.segs)
    (hrow : Row m.head SizeOk true g.1 g.2 l) (hl : ⟨p, s, true⟩ ∈ l)
    (hlo : Row.FreeFrom m.head l p lo) (hhi : Row.FreeTo m.head g.2 (p + s) hi) :
    WellFormed binsList mparams (writeFree m lo hi) mmaps
      ∧ ∀ q t, InUse (writeFree m lo hi) q t ↔ InUse m q t ∧ q ≠ p := by
  have hchunkp : Chunk m ⟨p, s, true⟩ := ⟨g, hg, l, hrow, hl⟩
  have hspos : 0 < s := (hrow.tag hl).2.1
  have hlop : lo ≤ p := by
    rcases hlo with ⟨-, h⟩ | ⟨b, -, h⟩ <;> omega
  have hhip : p + s ≤ hi := by
    rcases hhi with ⟨-, h⟩ | ⟨-, -, h⟩ <;> omega
  obtain ⟨h1, h2, hrest⟩ := @writeFree_head m lo hi (by omega)
  obtain ⟨⟨l', hrow', hmem⟩, ⟨hlog, -, -, hhig⟩, honly⟩ :=
    hrow.free (fun _ _ => sizeOk_add) hl hlo hhi h1 h2 hrest
  have hout : ∀ x, x < g.1 ∨ g.2 < x → (writeFree m lo hi).head x = m.head x :=
    fun x hx => hrest x (by omega) (by omega)
  have hfoot : ∀ x, x ≠ hi → (writeFree m lo hi).prevFoot x = m.prevFoot x :=
    fun x hx => Function.update_of_ne hx _ _
  obtain ⟨hrows, hchunk⟩ := hm.retile hg hrow hrow' rfl hout
  have hnew : (⟨lo, hi - lo, false⟩ : Tile) ∈ l' := (hmem _).mpr (Or.inr rfl)
  -- a chunk of another segment is nowhere near
  have hother : ∀ t, Chunk m t → t ∉ l → t.pos + t.size < g.1 ∨ g.2 < t.pos := by
    rintro t ⟨g', hg', k, hk, ht⟩ hnot
    have hb := hk.bounds ht
    by_cases heq : g' = g
    · subst heq
      exact absurd (hk.unique hrow ▸ ht) hnot
    · rcases hm.apart_of_ne hg' hg heq with h | h
      · exact Or.inl (by omega)
      · exact Or.inr (by omega)
  have hin : ∀ t ∈ l, Chunk m t := fun t ht => ⟨g, hg, l, hrow, ht⟩
  refine ⟨⟨hrows, hm.apart, hm.least, fun t ht hfree => ?_, fun t => ?_, fun q hq => ?_⟩,
    fun q t => ?_⟩
  · rcases (hchunk t).mp ht with ⟨ht', hnot⟩ | ht'
    · have hfar := hother t ht' hnot
      rw [hfoot _ (by omega)]
      exact hm.feet t ht' hfree
    · have hpos := (hrow'.tag ht').2.1
      rcases (hmem t).mp ht' with ⟨hold, hside⟩ | rfl
      · have hne : t.pos + t.size ≠ hi := by
          intro hend
          rcases hrow'.eq_or_apart ht' hnew with h | h | h
          · rw [h] at hside
            simp only at hside
            omega
          · simp only at h
            omega
          · simp only at h
            omega
        rw [hfoot _ hne]
        exact hm.feet t (hin t hold) hfree
      · simp only
        rw [show lo + (hi - lo) = hi by omega]
        exact Function.update_self _ _ _
  · show t ∈ (⟨lo, hi - lo, false⟩ : Tile) :: m.bins.filter _
      ↔ Chunk (writeFree m lo hi) t ∧ t.inuse = false
    rw [List.mem_cons, List.mem_filter, hm.bins t, hchunk t]
    simp only [Bool.or_eq_true, decide_eq_true_eq]
    constructor
    · rintro (rfl | ⟨⟨ht, hfree⟩, hside⟩)
      · exact ⟨Or.inr hnew, rfl⟩
      · by_cases hold : t ∈ l
        · exact ⟨Or.inr ((hmem t).mpr (Or.inl ⟨hold, hside⟩)), hfree⟩
        · exact ⟨Or.inl ⟨ht, hold⟩, hfree⟩
    · rintro ⟨⟨ht, hnot⟩ | ht, hfree⟩
      · have hfar := hother t ht hnot
        exact Or.inr ⟨⟨ht, hfree⟩, by omega⟩
      · rcases (hmem t).mp ht with ⟨hold, hside⟩ | rfl
        · exact Or.inr ⟨⟨hin t hold, hfree⟩, hside⟩
        · exact Or.inl rfl
  · exact (hm.mmapped q hq).of_segment hg rfl rfl hout (fun x hx => hfoot x (by omega))
  · rw [InUse, hchunk]
    constructor
    · rintro (⟨hq, hnot⟩ | hq)
      · refine ⟨hq, fun heq => hnot ?_⟩
        rw [hq.eq_of_pos hchunkp heq]
        exact hl
      · rcases (hmem _).mp hq with ⟨hold, hside⟩ | h
        · refine ⟨hin _ hold, fun heq => ?_⟩
          simp only at hside
          omega
        · exact absurd (congrArg Tile.inuse h).symm Bool.false_ne_true
    · rintro ⟨hq, hne⟩
      by_cases hold : (⟨q, t, true⟩ : Tile) ∈ l
      · refine Or.inr ((hmem _).mpr (Or.inl ⟨hold, ?_⟩))
        by_contra hside
        simp only [not_or, not_lt, not_le] at hside
        exact hne (congrArg Tile.pos (honly _ hold hside.1 hside.2 rfl))
      · exact Or.inl ⟨hq, hold⟩

/-- **There is a heap that frees.** -/
theorem frees_freeChunk (mparams : Mparams) : Frees binsList mparams freeChunk := by
  intro m mmaps p s hm hp
  obtain ⟨-, -, hsize, -⟩ := Chunk.tag hp
  simp only at hsize
  obtain ⟨g, hg, l, hrow, hl⟩ := hp
  have hfree : freeChunk m (chunk2mem p)
      = writeFree m (freeLo m p) (freeHi m g.2 (p + s)) := by
    unfold freeChunk
    simp only [mem2chunk_chunk2mem, find_segment hm hg hrow hl, chunksize, hsize]
  obtain ⟨hwell, hinuse⟩ := writeFree_spec hm hg hrow hl (freeFrom_freeLo hm hg hrow hl)
    (freeTo_freeHi g.2 (p + s))
  rw [hfree]
  exact ⟨hwell, hinuse, rfl⟩

end Free

end Dlmalloc
