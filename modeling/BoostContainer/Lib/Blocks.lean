import BoostContainer.Lib.SlotViews

/-!
# Slots in blocks

An array that is too long for one piece of memory is kept in blocks of one
size. Its slots are numbered through all blocks, so a number tells the block,
and the place in it. A loop over consecutive numbers goes block by block, over
consecutive memory in each.
-/

/-- **The address of a slot** in blocks of size `bs`, given where blocks are. -/
def blockAddr (bs : ℕ) (block : ℕ → ℕ) (o : ℕ) : ℕ := block (o / bs) + o % bs

/-- The slots of a set of blocks. -/
def slotsOf (bs : ℕ) (I : Set ℕ) : Set ℕ := {o | o / bs ∈ I}

section Numbers

variable {bs i j n o a b : ℕ} {block block' : ℕ → ℕ} {I J : Set ℕ}

theorem mem_slotsOf : o ∈ slotsOf bs I ↔ o / bs ∈ I := Iff.rfl

theorem slotsOf_union : slotsOf bs (I ∪ J) = slotsOf bs I ∪ slotsOf bs J := rfl

theorem slotsOf_sdiff : slotsOf bs (I \ J) = slotsOf bs I \ slotsOf bs J := rfl

theorem slotsOf_mono (h : I ⊆ J) : slotsOf bs I ⊆ slotsOf bs J := fun _ ho => h ho

theorem slotsOf_empty : slotsOf bs ∅ = ∅ := rfl

theorem disjoint_slotsOf (h : Disjoint I J) : Disjoint (slotsOf bs I) (slotsOf bs J) :=
  Set.disjoint_left.mpr (fun _ ho ho' => Set.disjoint_left.mp h ho ho')

theorem slotsOf_Ico (hbs : 0 < bs) : slotsOf bs (Set.Ico a b) = Set.Ico (a * bs) (b * bs) := by
  ext o
  rw [mem_slotsOf, Set.mem_Ico, Set.mem_Ico, Nat.le_div_iff_mul_le hbs, Nat.div_lt_iff_lt_mul hbs]

theorem slotsOf_singleton (hbs : 0 < bs) :
    slotsOf bs {i} = Set.Ico (i * bs) (i * bs + bs) := by
  have h : ({i} : Set ℕ) = Set.Ico i (i + 1) := by
    ext j
    simp only [Set.mem_singleton_iff, Set.mem_Ico]
    omega
  rw [h, slotsOf_Ico hbs, Nat.succ_mul]

theorem slotsOf_Icc (hbs : 0 < bs) :
    slotsOf bs (Set.Icc a b) = Set.Ico (a * bs) (b * bs + bs) := by
  ext o
  rw [mem_slotsOf, Set.mem_Icc, Set.mem_Ico, Nat.le_div_iff_mul_le hbs, ← Nat.succ_mul,
    ← Nat.div_lt_iff_lt_mul hbs, Nat.lt_succ_iff]

/-- A stretch of slots lies in the blocks from that of its first slot on. -/
theorem Ico_subset_slotsOf (hI : Set.Icc (a / bs) (b / bs) ⊆ I) :
    Set.Ico a b ⊆ slotsOf bs I :=
  fun _ ho => hI ⟨Nat.div_le_div_right ho.1, Nat.div_le_div_right ho.2.le⟩

theorem blockAddr_congr (h : ∀ i ∈ I, block i = block' i) :
    ∀ o ∈ slotsOf bs I, blockAddr bs block o = blockAddr bs block' o :=
  fun _ ho => congrArg (· + _) (h _ ho)

/-- Slots of one block follow one another. -/
theorem blockAddr_add (hj : o % bs + j < bs) :
    blockAddr bs block (o + j) = blockAddr bs block o + j := by
  have hmod : (o + j) % bs = o % bs + j := by
    rw [Nat.add_mod, Nat.mod_eq_of_lt (b := bs) (a := j) (by omega), Nat.mod_eq_of_lt hj]
  have hbs : 0 < bs := by omega
  have hdiv : (o + j) / bs = o / bs := by
    have h1 := Nat.div_add_mod (o + j) bs
    have h2 := Nat.div_add_mod o bs
    have h3 : bs * ((o + j) / bs) = bs * (o / bs) := by omega
    exact Nat.eq_of_mul_eq_mul_left hbs h3
  rw [blockAddr, blockAddr, hmod, hdiv, Nat.add_assoc]

/-- The slots of a block, from its start on. -/
theorem blockAddr_mul_add (hj : j < bs) :
    blockAddr bs block (i * bs + j) = block i + j := by
  rw [blockAddr_add (by rwa [Nat.mul_mod_left, Nat.zero_add]), blockAddr,
    Nat.mul_div_cancel _ (by omega), Nat.mul_mod_left, Nat.add_zero]

/-- **The number of a slot after its block was given another one.** -/
def moveBlocks (bs : ℕ) (f : ℕ → ℕ) (x : ℕ) : ℕ := f (x / bs) * bs + x % bs

variable {f : ℕ → ℕ} {x : ℕ}

theorem moveBlocks_div (hbs : 0 < bs) : moveBlocks bs f x / bs = f (x / bs) := by
  rw [moveBlocks, Nat.mul_comm, Nat.mul_add_div hbs, Nat.div_eq_of_lt (Nat.mod_lt x hbs),
    Nat.add_zero]

theorem moveBlocks_mod (hbs : 0 < bs) : moveBlocks bs f x % bs = x % bs := by
  rw [moveBlocks, Nat.mul_comm, Nat.mul_add_mod, Nat.mod_eq_of_lt (Nat.mod_lt x hbs)]

theorem blockAddr_moveBlocks (hbs : 0 < bs) (h : block' (f (x / bs)) = block (x / bs)) :
    blockAddr bs block' (moveBlocks bs f x) = blockAddr bs block x := by
  rw [blockAddr, moveBlocks_div hbs, moveBlocks_mod hbs, h, blockAddr]

theorem image_moveBlocks (hbs : 0 < bs) :
    moveBlocks bs f '' slotsOf bs I = slotsOf bs (f '' I) := by
  ext y
  constructor
  · rintro ⟨x, hx, rfl⟩
    rw [mem_slotsOf, moveBlocks_div hbs]
    exact Set.mem_image_of_mem f hx
  · rintro ⟨i, hi, hiy⟩
    refine ⟨i * bs + y % bs, ?_, ?_⟩
    · rw [mem_slotsOf, Nat.mul_comm, Nat.mul_add_div hbs, Nat.div_eq_of_lt (Nat.mod_lt y hbs),
        Nat.add_zero]
      exact hi
    · have hdiv : (i * bs + y % bs) / bs = i := by
        rw [Nat.mul_comm, Nat.mul_add_div hbs, Nat.div_eq_of_lt (Nat.mod_lt y hbs), Nat.add_zero]
      have hmod : (i * bs + y % bs) % bs = y % bs := by
        rw [Nat.mul_comm, Nat.mul_add_mod, Nat.mod_eq_of_lt (Nat.mod_lt y hbs)]
      rw [moveBlocks, hdiv, hmod, hiy, Nat.mul_comm, Nat.div_add_mod]

/-- Blocks that stay in their order keep a stretch of slots in one piece. -/
theorem moveBlocks_add {c : ℕ} (hc : a ≤ c) (hmod : b % bs = a % bs)
    (hf : f (c / bs) = b / bs + (c / bs - a / bs)) : moveBlocks bs f c = b + (c - a) := by
  have h1 := Nat.div_add_mod a bs
  have h2 := Nat.div_add_mod b bs
  have h3 := Nat.div_add_mod c bs
  have hle : a / bs ≤ c / bs := Nat.div_le_div_right hc
  have hmul : (b / bs + (c / bs - a / bs)) * bs
      = bs * (b / bs) + (bs * (c / bs) - bs * (a / bs)) := by
    rw [Nat.mul_comm, Nat.mul_add, Nat.mul_sub]
  have hle' : bs * (a / bs) ≤ bs * (c / bs) := Nat.mul_le_mul_left _ hle
  rw [moveBlocks, hf, hmul]
  omega

end Numbers

/-! ## Loops block by block -/

section Segments

variable {σ : Type*} {β : Type*}

/-- **A loop block by block**: the part of the list that falls into the block of
`o`, and then the rest. -/
def forSegments (bs : ℕ) (hbs : 0 < bs) (body : ℕ → List β → Prog σ Unit) (o : ℕ) :
    List β → Prog σ Unit
  | [] => pure ()
  | x :: xs => do
    let cnt := min (x :: xs).length (bs - o % bs)
    body o ((x :: xs).take cnt)
    forSegments bs hbs body (o + cnt) ((x :: xs).drop cnt)
termination_by l => l.length
decreasing_by
  have := Nat.mod_lt o hbs
  simp only [List.length_drop, List.length_cons]
  omega

/-- A loop over `n` slots from `o` on, block by block. -/
def forSegmentsN (bs : ℕ) (hbs : 0 < bs) (body : ℕ → ℕ → Prog σ Unit) (o n : ℕ) :
    Prog σ Unit :=
  forSegments bs hbs (fun o l => body o l.length) o (List.replicate n ())

/-- A loop over the `n` slots before `o`, block by block, from the back. -/
def forSegmentsBackward (bs : ℕ) (hbs : 0 < bs) (body : ℕ → ℕ → Prog σ Unit) (o : ℕ) :
    ℕ → Prog σ Unit
  | 0 => pure ()
  | n + 1 => do
    let cnt := min (n + 1) (if o % bs = 0 then bs else o % bs)
    body o cnt
    forSegmentsBackward bs hbs body (o - cnt) (n + 1 - cnt)
termination_by n => n
decreasing_by
  have : 0 < min (n + 1) (if o % bs = 0 then bs else o % bs) := by
    split <;> omega
  exact Nat.sub_lt (Nat.succ_pos n) this

variable {bs : ℕ} {hbs : 0 < bs} {body : ℕ → List β → Prog σ Unit} {o : ℕ} {l : List β}

/-- One turn of the loop. -/
theorem forSegments_of_ne_nil (hl : l ≠ []) : forSegments bs hbs body o l = (do
    body o (l.take (min l.length (bs - o % bs)))
    forSegments bs hbs body (o + min l.length (bs - o % bs))
      (l.drop (min l.length (bs - o % bs)))) := by
  cases l with
  | nil => exact absurd rfl hl
  | cons x xs => rw [forSegments]

/-- Either the loop is done, or it goes on at the start of a block. -/
theorem add_min_mod (hbs : 0 < bs) (n o : ℕ) :
    min n (bs - o % bs) = n ∨ (o + min n (bs - o % bs)) % bs = 0 := by
  rcases Nat.le_total n (bs - o % bs) with h | h
  · exact Or.inl (Nat.min_eq_left h)
  · right
    have hlt := Nat.mod_lt o hbs
    have hsum : o + (bs - o % bs) = bs * (o / bs + 1) := by
      have := Nat.div_add_mod o bs
      rw [Nat.mul_succ]
      omega
    rw [Nat.min_eq_right h, hsum, Nat.mul_mod_right]

/-- **The rule of loops block by block**: `I m` holds when `m` members of the list
are done. Every turn but the first is at the start of a block. -/
theorem forSegments_meets {I : ℕ → σ → Prop} {E : σ → Prop}
    (hbody : ∀ m n, m < l.length → n = min (l.length - m) (bs - (o + m) % bs) →
      (m = 0 ∨ (o + m) % bs = 0) →
      Prog.Meets (I m) (body (o + m) ((l.drop m).take n)) (fun _ => I (m + n)) E) :
    Prog.Meets (I 0) (forSegments bs hbs body o l) (fun _ => I l.length) E := by
  have hrest : ∀ r m, l.length - m ≤ r → m ≤ l.length → (m = l.length ∨ m = 0 ∨ (o + m) % bs = 0) →
      Prog.Meets (I m) (forSegments bs hbs body (o + m) (l.drop m)) (fun _ => I l.length) E := by
    intro r
    induction r with
    | zero =>
      intro m hr hm _
      obtain rfl : m = l.length := by omega
      rw [List.drop_length, forSegments]
      exact Prog.meets_pure (fun s hs => hs)
    | succ r ih =>
      intro m hr hm hat
      rcases Nat.eq_or_lt_of_le hm with rfl | hlt
      · rw [List.drop_length, forSegments]
        exact Prog.meets_pure (fun s hs => hs)
      · have hne : l.drop m ≠ [] := by
          rw [Ne, List.drop_eq_nil_iff]
          omega
        have hpos : 0 < bs - (o + m) % bs := Nat.sub_pos_of_lt (Nat.mod_lt _ hbs)
        rw [forSegments_of_ne_nil hne, List.length_drop, List.drop_drop, Nat.add_assoc o m]
        refine Prog.Meets.bind (hbody m _ hlt rfl (by omega))
          (fun _ => ih _ (by omega) (by omega) ?_)
        rw [← Nat.add_assoc o m]
        rcases add_min_mod hbs (l.length - m) (o + m) with h | h
        · left
          rw [h]
          omega
        · exact Or.inr (Or.inr h)
  have h0 := hrest l.length 0 (by omega) (by omega) (Or.inr (Or.inl rfl))
  rwa [List.drop_zero, Nat.add_zero] at h0

theorem forSegmentsN_meets {n : ℕ} {body : ℕ → ℕ → Prog σ Unit} {I : ℕ → σ → Prop}
    {E : σ → Prop}
    (hbody : ∀ m c, m < n → c = min (n - m) (bs - (o + m) % bs) →
      (m = 0 ∨ (o + m) % bs = 0) →
      Prog.Meets (I m) (body (o + m) c) (fun _ => I (m + c)) E) :
    Prog.Meets (I 0) (forSegmentsN bs hbs body o n) (fun _ => I n) E := by
  have h := @forSegments_meets _ _ _ hbs (fun o l => body o l.length) o (List.replicate n ()) I E
    (fun m c hm hc hat => ?_)
  · rwa [List.length_replicate] at h
  · rw [List.length_replicate] at hm hc
    have hlen : (((List.replicate n ()).drop m).take c).length = c := by
      rw [List.length_take, List.length_drop, List.length_replicate]
      omega
    rw [hlen]
    exact hbody m c hm hc hat

/-- A loop keeps what its parts keep. -/
theorem keeps_forSegments {δ : Type*} {f : σ → δ}
    (hbody : ∀ m c, m + c ≤ l.length → Prog.Keeps f (body (o + m) ((l.drop m).take c))) :
    Prog.Keeps f (forSegments bs hbs body o l) := by
  have hrest : ∀ r m, l.length - m ≤ r → m ≤ l.length →
      Prog.Keeps f (forSegments bs hbs body (o + m) (l.drop m)) := by
    intro r
    induction r with
    | zero =>
      intro m hr hm
      obtain rfl : m = l.length := by omega
      rw [List.drop_length, forSegments]
      exact Prog.keeps_pure ()
    | succ r ih =>
      intro m hr hm
      rcases Nat.eq_or_lt_of_le hm with rfl | hlt
      · rw [List.drop_length, forSegments]
        exact Prog.keeps_pure ()
      · have hne : l.drop m ≠ [] := by
          rw [Ne, List.drop_eq_nil_iff]
          omega
        have hpos : 0 < bs - (o + m) % bs := Nat.sub_pos_of_lt (Nat.mod_lt _ hbs)
        rw [forSegments_of_ne_nil hne, List.length_drop, List.drop_drop, Nat.add_assoc o m]
        exact (hbody m _ (by omega)).bind (fun _ => ih _ (by omega) (by omega))
  have h0 := hrest l.length 0 (by omega) (by omega)
  rwa [List.drop_zero, Nat.add_zero] at h0

theorem keeps_forSegmentsN {δ : Type*} {f : σ → δ} {n : ℕ} {body : ℕ → ℕ → Prog σ Unit}
    (hbody : ∀ m c, m + c ≤ n → Prog.Keeps f (body (o + m) c)) :
    Prog.Keeps f (forSegmentsN bs hbs body o n) := by
  refine keeps_forSegments (fun m c hc => ?_)
  rw [List.length_replicate] at hc
  have hlen : (((List.replicate n ()).drop m).take c).length = c := by
    rw [List.length_take, List.length_drop, List.length_replicate]
    omega
  rw [hlen]
  exact hbody m c hc

theorem keeps_forSegmentsBackward {δ : Type*} {f : σ → δ} {n : ℕ} {body : ℕ → ℕ → Prog σ Unit}
    (hbody : ∀ o n, Prog.Keeps f (body o n)) :
    Prog.Keeps f (forSegmentsBackward bs hbs body o n) := by
  induction n using Nat.strong_induction_on generalizing o with
  | _ n ih =>
    cases n with
    | zero =>
      rw [forSegmentsBackward]
      exact Prog.keeps_pure ()
    | succ n =>
      have hpos : 0 < min (n + 1) (if o % bs = 0 then bs else o % bs) := by
        split <;> omega
      rw [forSegmentsBackward]
      exact (hbody _ _).bind (fun _ => ih _ (by omega))

/-- The rule of loops from the back: `I m` holds when `m` slots are done. -/
theorem forSegmentsBackward_meets {n : ℕ} {body : ℕ → ℕ → Prog σ Unit} {I : ℕ → σ → Prop}
    {E : σ → Prop} (hn : n ≤ o)
    (hbody : ∀ m c, m < n → 0 < c → m + c ≤ n → (o - m - c) % bs + c ≤ bs →
      Prog.Meets (I m) (body (o - m) c) (fun _ => I (m + c)) E) :
    Prog.Meets (I 0) (forSegmentsBackward bs hbs body o n) (fun _ => I n) E := by
  have hrest : ∀ r m, n - m ≤ r → m ≤ n →
      Prog.Meets (I m) (forSegmentsBackward bs hbs body (o - m) (n - m)) (fun _ => I n) E := by
    intro r
    induction r with
    | zero =>
      intro m hr hm
      obtain rfl : m = n := by omega
      rw [Nat.sub_self, forSegmentsBackward]
      exact Prog.meets_pure (fun s hs => hs)
    | succ r ih =>
      intro m hr hm
      rcases Nat.eq_or_lt_of_le hm with rfl | hlt
      · rw [Nat.sub_self, forSegmentsBackward]
        exact Prog.meets_pure (fun s hs => hs)
      · obtain ⟨d, hd⟩ : ∃ d, n - m = d + 1 := ⟨n - m - 1, by omega⟩
        rw [hd, forSegmentsBackward]
        have hmod := Nat.mod_lt (o - m) hbs
        have hdm := Nat.div_add_mod (o - m) bs
        obtain ⟨c, hc⟩ : ∃ c, c = min (d + 1) (if (o - m) % bs = 0 then bs else (o - m) % bs) :=
          ⟨_, rfl⟩
        rw [← hc]
        have hpos : 0 < c := by
          rw [hc]
          split <;> omega
        -- the part is inside one block: that of the slot before
        have hblock : (o - m - c) % bs + c ≤ bs := by
          split at hc
          · rename_i h0
            have hq : 0 < (o - m) / bs := by
              by_contra h
              have hz : (o - m) / bs = 0 := Nat.eq_zero_of_not_pos h
              rw [hz, Nat.mul_zero] at hdm
              omega
            have hmul : bs * ((o - m) / bs) = bs * ((o - m) / bs - 1) + bs := by
              rw [← Nat.mul_succ]
              congr 1
              omega
            have heq : o - m - c = bs * ((o - m) / bs - 1) + (bs - c) := by omega
            rw [heq, Nat.mul_add_mod]
            have := Nat.mod_le (bs - c) bs
            omega
          · have heq : o - m - c = bs * ((o - m) / bs) + ((o - m) % bs - c) := by omega
            rw [heq, Nat.mul_add_mod]
            have := Nat.mod_le ((o - m) % bs - c) bs
            omega
        refine Prog.Meets.bind (hbody m c hlt hpos (by omega) hblock) (fun _ => ?_)
        have hnext := ih (m + c) (by omega) (by omega)
        rwa [show n - (m + c) = d + 1 - c by omega, ← Nat.sub_sub] at hnext
  have h0 := hrest n 0 (by omega) (by omega)
  rwa [Nat.sub_zero, Nat.sub_zero] at h0

end Segments

section Counting

open Slots

variable {κ : Type} {α : Type*} {β : Type*} {e : Env α} {bs : ℕ} {hbs : 0 < bs} {n o : ℕ}

/-- **A loop block by block makes the operations of its parts**, when these add
up. -/
theorem takes_forSegments {w : List β → ℕ} (hnil : w [] = 0)
    (hw : ∀ l c, w (l.take c) + w (l.drop c) = w l)
    {body : ℕ → List β → Prog (State κ α) Unit} (hbody : ∀ o l, Takes e (body o l) (w l))
    (l : List β) : Takes e (forSegments bs hbs body o l) (w l) := by
  have hall : ∀ r (l : List β) (o : ℕ), l.length ≤ r → Takes e (forSegments bs hbs body o l) (w l)
    := by
    intro r
    induction r with
    | zero =>
      intro l o hl
      obtain rfl : l = [] := List.length_eq_zero_iff.mp (Nat.le_zero.mp hl)
      rw [forSegments, hnil]
      exact takes_pure ()
    | succ r ih =>
      intro l o hl
      by_cases hne : l = []
      · rw [hne, forSegments, hnil]
        exact takes_pure ()
      · have hpos : 0 < l.length := List.length_pos_iff.mpr hne
        have hmod := Nat.mod_lt o hbs
        rw [forSegments_of_ne_nil hne, ← hw l (min l.length (bs - o % bs))]
        refine (hbody _ _).bind (fun _ => ih _ _ ?_)
        rw [List.length_drop]
        omega
  exact hall l.length l o le_rfl

theorem takes_forSegmentsN {body : ℕ → ℕ → Prog (State κ α) Unit}
    (hbody : ∀ o n, Takes e (body o n) n) : Takes e (forSegmentsN bs hbs body o n) n := by
  have h := @takes_forSegments κ α Unit e bs hbs o List.length rfl
    (fun l c => by rw [← List.length_append, List.take_append_drop]) _
    (fun o l => hbody o l.length)
    (List.replicate n ())
  rwa [List.length_replicate] at h

theorem takes_forSegmentsBackward {body : ℕ → ℕ → Prog (State κ α) Unit}
    (hbody : ∀ o n, Takes e (body o n) n) : Takes e (forSegmentsBackward bs hbs body o n) n := by
  induction n using Nat.strong_induction_on generalizing o with
  | _ n ih =>
    cases n with
    | zero =>
      rw [forSegmentsBackward]
      exact takes_pure ()
    | succ n =>
      have hpos : 0 < min (n + 1) (if o % bs = 0 then bs else o % bs) := by
        split <;> omega
      have hle : min (n + 1) (if o % bs = 0 then bs else o % bs) ≤ n + 1 := Nat.min_le_left _ _
      rw [forSegmentsBackward]
      have h := (hbody o (min (n + 1) (if o % bs = 0 then bs else o % bs))).bind
        (fun _ => ih (n + 1 - min (n + 1) (if o % bs = 0 then bs else o % bs))
          (by omega) (o := o - min (n + 1) (if o % bs = 0 then bs else o % bs)))
      rwa [Nat.add_sub_cancel' hle] at h

end Counting
