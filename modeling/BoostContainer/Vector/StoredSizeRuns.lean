import BoostContainer.Lib.Run
import BoostContainer.Vector.StoredSize

/-!
# Runs over vectors with stored sizes

Any number of vectors and small vectors are made, changed, swapped and destroyed in any
order. What is stored stays the size and the capacity, and what cannot be stored is
refused, in every run in which no inline capacity is too great for the stored type. Two
more steps are left out: an insertion that has to grow from more than the allocator may
give, and an expansion at the greatest `size_type`, for both of which an unsigned
difference or sum wraps.
-/

namespace StoredSize

variable {p : Params} {h h' x : Holder} {n newCap count limit prefer cap : ℕ} {answer : Answer}
  {v2 : Bool} {inlineCapacity : Option ℕ}

/-! ## The other operations -/

theorem Sound.reserve_ends (hs : Sound p h) (hsize : h.size ≤ h.mCapacity) :
    Ends (Leaves p h h.size) (h.reserve p answer n) := by
  unfold Holder.reserve
  split
  · next hlt => exact hs.moveToNewBuffer_ends (hsize.trans hlt.le)
  · exact ⟨hs, rfl, rfl⟩

theorem Sound.resize_ends (hs : Sound p h) (hf : Fits p h.inlineCapacity)
    (hroom : h.mCapacity < n → h.mCapacity ≤ p.maxSize) :
    Ends (Leaves p h n) (h.resize p answer n) := by
  have hcapLe := hs.mCapacity_le hf
  have hsizeLe := hs.size_le
  unfold Holder.resize
  rw [hs.size_eq]
  split
  · next hlt =>
    have hdrop : h.size - (h.size - n) = n := by omega
    rw [hdrop]
    refine ⟨⟨stored_of_le (by omega), ?_, hs.storage⟩, rfl, rfl⟩
    show n ≤ h.mCapacity
    omega
  · next hle =>
    have hsum : h.size + (n - h.size) = n := by omega
    have hinsert : Ends (Leaves p h (h.size + (n - h.size))) (h.insertN p answer (n - h.size)) :=
      hs.insertN_ends hf (by rw [hsum]; exact hroom)
    rwa [hsum] at hinsert

theorem Sound.assign_ends (hs : Sound p h) (hf : Fits p h.inlineCapacity) :
    Ends (Leaves p h n) (h.assign p answer n) := by
  have hcapLe := hs.mCapacity_le hf
  unfold Holder.assign
  refine checkSize_ends.bind fun _ _ => ?_
  split
  · next hlt =>
    refine (allocationCommand_ends le_rfl).bind fun got hg => ?_
    have hleaves : Leaves p h n { h with
        start := .heap got.count, mCapacity := stored p got.cap, mSize := stored p n, size := n } :=
      ⟨sound_heap hg.limit_le hg.cap_eq hg.exact rfl, rfl, rfl⟩
    split
    · exact hs.deallocate_ends.bind fun _ _ => hleaves
    · exact hleaves
  · next hle =>
    refine ⟨⟨stored_of_le (by omega), ?_, hs.storage⟩, rfl, rfl⟩
    exact not_lt.mp hle

/-- **The buffer is expanded**, if the sum does not wrap. -/
theorem Sound.tryExpandFwd_ends (hs : Sound p h) (hf : Fits p h.inlineCapacity)
    (hv2 : h.version2 p = true) (hwrap : h.mCapacity + n < 2 ^ p.sizeBits) :
    Ends (fun h' => Leaves p h h.size h' ∧ h.mCapacity + n ≤ h'.mCapacity)
      (h.tryExpandFwd p answer n) := by
  have hcapLe := hs.mCapacity_le hf
  have hsizeLe := hs.size_le
  have hadd : Word.add p.sizeBits h.mCapacity n = h.mCapacity + n := Word.add_of_lt hwrap
  unfold Holder.tryExpandFwd
  simp only [hadd]
  refine (allocationCommand_ends le_rfl).bind fun got hg => ?_
  have hcap : stored p got.cap = got.cap :=
    stored_of_le (hg.cap_eq.trans_le (min_le_right _ _))
  have hlimit := hg.limit_le
  refine ⟨⟨⟨hs.size_eq, ?_, ?_⟩, rfl, rfl⟩, ?_⟩
  · show h.size ≤ stored p got.cap
    omega
  · refine ⟨?_, fun hv => ?_⟩
    · show stored p got.cap = _
      rw [hcap]
      exact hg.cap_eq
    · have hv' : h.version2 p = false := hv
      rw [hv2] at hv'
      cases hv'
  · show h.mCapacity + n ≤ stored p got.cap
    omega

theorem Sound.stableReserve_ends (hs : Sound p h) (hf : Fits p h.inlineCapacity)
    (hn : n < 2 ^ p.sizeBits) : Ends (Leaves p h h.size) (h.stableReserve p answer n) := by
  unfold Holder.stableReserve
  split
  · exact ⟨hs, rfl, rfl⟩
  · next hmore =>
    rw [not_or, Bool.not_eq_false] at hmore
    exact (hs.tryExpandFwd_ends hf hmore.2 (by omega)).imp fun _ he => he.1

/-- One more element is in the vector, where there is room. -/
theorem Sound.succ (hs : Sound p h) (hf : Fits p h.inlineCapacity) (hlt : h.size < h.mCapacity) :
    Leaves p h (h.size + 1) { h with mSize := stored p (h.mSize + 1), size := h.size + 1 } := by
  have hcapLe := hs.mCapacity_le hf
  refine ⟨⟨?_, hlt, hs.storage⟩, rfl, rfl⟩
  show stored p (h.mSize + 1) = h.size + 1
  rw [hs.size_eq]
  exact stored_of_le (by omega)

theorem Sound.stableEmplaceBack_ends (hs : Sound p h) (hf : Fits p h.inlineCapacity)
    (hwrap : h.size = h.mCapacity → h.version2 p = true → h.mCapacity + 1 < 2 ^ p.sizeBits) :
    Ends (fun h' => ∃ m, Leaves p h m h') (h.stableEmplaceBack p answer) := by
  have hsizeEq := hs.size_eq
  have hsizeLe := hs.size_le
  unfold Holder.stableEmplaceBack
  simp only
  split
  · exact ⟨_, hs.succ hf (by omega)⟩
  · next hfull =>
    split
    · next hv2 =>
      refine (hs.tryExpandFwd_ends hf hv2 (hwrap (by omega) hv2)).bind ?_
      rintro h' ⟨he, hcap⟩
      have hsucc := he.sound.succ (he.inline_eq ▸ hf) (by rw [he.size_eq]; omega)
      exact ⟨_, hsucc.sound, hsucc.inline_eq.trans he.inline_eq, hsucc.size_eq⟩
    · exact ⟨_, hs, rfl, rfl⟩

theorem Sound.shrinkToFit_ends (hs : Sound p h) (hf : Fits p h.inlineCapacity) :
    Ends (Leaves p h h.size) (h.shrinkToFit p answer) := by
  have hsizeEq := hs.size_eq
  have hsizeLe := hs.size_le
  have hcapLe := hs.mCapacity_le hf
  unfold Holder.shrinkToFit
  split
  · exact ⟨hs, rfl, rfl⟩
  cases hin : h.inlineCapacity with
  | some cap =>
    simp only
    have hcap : stored p cap = cap := stored_of_le (hf cap hin)
    split
    · exact ⟨hs, rfl, rfl⟩
    split
    · next hle =>
      refine hs.deallocate_ends.bind fun _ _ => ?_
      refine ⟨⟨hsizeEq, ?_, ?_⟩, hin.symm, rfl⟩
      · show h.size ≤ stored p cap
        omega
      · show some cap = some (stored p cap)
        rw [hcap]
    split
    · exact hs.moveToNewBuffer_ends hsizeEq.ge
    · exact ⟨hs, rfl, rfl⟩
  | none =>
    simp only
    split
    · next hzero =>
      refine hs.deallocate_ends.bind fun _ _ => ?_
      refine ⟨⟨hsizeEq, ?_, rfl⟩, hin.symm, rfl⟩
      show h.size ≤ 0
      omega
    split
    · next hv2 =>
      cases answer with
      | expanded extra =>
        have hle : min (h.mSize + extra) h.mCapacity ≤ storedMax p :=
          (min_le_right _ _).trans hcapLe
        refine ⟨⟨hsizeEq, ?_, ?_, fun hv => ?_⟩, hin.symm, rfl⟩
        · show h.size ≤ stored p (min (h.mSize + extra) h.mCapacity)
          rw [stored_of_le hle]
          omega
        · show stored p (min (h.mSize + extra) h.mCapacity) = _
          rw [stored_of_le hle, min_eq_left hle]
        · have hv' : (p.version2 && (none : Option ℕ).isNone) = false := hv
          rw [Holder.version2, hin, hv'] at hv2
          cases hv2
      | _ => exact ⟨hs, rfl, rfl⟩
    split
    · exact hs.moveToNewBuffer_ends hsizeEq.ge
    · exact ⟨hs, rfl, rfl⟩

/-! ## Construction -/

theorem construct_sound (hf : Fits p inlineCapacity) : Sound p (construct p inlineCapacity) := by
  cases inlineCapacity with
  | none => exact ⟨rfl, le_rfl, rfl⟩
  | some cap =>
    refine ⟨rfl, Nat.zero_le _, ?_⟩
    show some cap = some (stored p cap)
    rw [stored_of_le (hf cap rfl)]

theorem inlineCapacity_construct :
    (construct p inlineCapacity).inlineCapacity = inlineCapacity := by
  cases inlineCapacity <;> rfl

theorem constructN_ends (hf : Fits p inlineCapacity) :
    Ends (Leaves p (construct p inlineCapacity) n) (constructN p inlineCapacity answer n) := by
  cases inlineCapacity with
  | none =>
    unfold constructN
    refine checkSize_ends.bind fun _ _ => ?_
    split
    · next hzero =>
      subst hzero
      exact ⟨⟨stored_of_le (Nat.zero_le _), le_rfl, rfl⟩, rfl, rfl⟩
    · refine (allocationCommand_ends le_rfl).bind fun got hg => ?_
      exact ⟨sound_heap hg.limit_le hg.cap_eq hg.exact rfl, rfl, rfl⟩
  | some cap =>
    have hcap := hf cap rfl
    unfold constructN
    simp only
    split
    · next hle =>
      refine ⟨⟨stored_of_le (hle.trans hcap), ?_, ?_⟩, rfl, rfl⟩
      · show n ≤ stored p cap
        rwa [stored_of_le hcap]
      · show some cap = some (stored p cap)
        rw [stored_of_le hcap]
    · refine checkSize_ends.bind fun _ _ => ?_
      refine (allocationCommand_ends le_rfl).bind fun got hg => ?_
      exact ⟨sound_heap hg.limit_le hg.cap_eq hg.exact rfl, rfl, rfl⟩

/-- **Resources are in another object**, of the same kind. -/
theorem Sound.ofResources (hx : Sound p x) (hne : x.start ≠ .internal)
    (hkind : inlineCapacity.isNone = x.inlineCapacity.isNone) :
    Sound p { x with inlineCapacity := inlineCapacity } := by
  refine ⟨hx.size_eq, hx.size_le, ?_⟩
  have hstorage := hx.storage
  obtain ⟨_, start, _, _, _⟩ := x
  cases start with
  | null => exact hstorage
  | internal => exact absurd rfl hne
  | heap count =>
    simp only [Holder.version2] at hkind hstorage ⊢
    rw [hkind]
    exact hstorage

/-- A vector is in no storage of its own. -/
theorem Sound.ne_internal (hx : Sound p x) (hnone : x.inlineCapacity = none) :
    x.start ≠ .internal := by
  intro hstart
  have hstorage := hx.storage
  rw [hstart, hnone] at hstorage
  cases hstorage

/-- What has no elements any more. -/
theorem Sound.cleared (hx : Sound p x) : Sound p { x with mSize := 0, size := 0 } :=
  ⟨rfl, Nat.zero_le _, hx.storage⟩

/-- **The elements of a source in its own storage must fit.** -/
theorem Sound.moveConstruct_sound (hx : Sound p x) (hf : Fits p inlineCapacity)
    (hkind : inlineCapacity.isNone = x.inlineCapacity.isNone)
    (hfit : x.start = .internal → ∀ cap, inlineCapacity = some cap → x.size ≤ cap) :
    Sound p (moveConstruct p inlineCapacity x).1 ∧
      Sound p (moveConstruct p inlineCapacity x).2 := by
  unfold moveConstruct
  split
  · next hstart =>
    cases hin : inlineCapacity with
    | none =>
      rw [hin] at hkind
      exact absurd hstart (hx.ne_internal (Option.isNone_iff_eq_none.mp hkind.symm))
    | some cap =>
      have hcap := hf cap hin
      have hsize := hfit hstart cap hin
      refine ⟨⟨?_, ?_, ?_⟩, hx.cleared⟩
      · show stored p x.mSize = x.size
        rw [hx.size_eq]
        exact stored_of_le (hsize.trans hcap)
      · show x.size ≤ stored p cap
        rwa [stored_of_le hcap]
      · show some cap = some (stored p cap)
        rw [stored_of_le hcap]
  · next hstart =>
    refine ⟨?_, rfl, le_rfl, rfl⟩
    rw [Holder.withResources, inlineCapacity_construct]
    exact hx.ofResources hstart hkind

/-! ## Swaps -/

/-- **The pair that a swap leaves.** -/
structure Swapped (p : Params) (a b : Holder) (r : Holder × Holder) : Prop where
  left : Sound p r.1
  right : Sound p r.2
  left_eq : r.1.inlineCapacity = a.inlineCapacity
  right_eq : r.2.inlineCapacity = b.inlineCapacity

theorem Swapped.symm {a b : Holder} {r : Holder × Holder} (h : Swapped p a b r) :
    Swapped p b a (r.2, r.1) :=
  ⟨h.right, h.left, h.right_eq, h.left_eq⟩

theorem swapMixed_swapped {ext int : Holder} (he : Sound p ext) (hi : Sound p int)
    (hf : Fits p int.inlineCapacity) (hext : ext.start ≠ .internal)
    (hint : int.start = .internal) (hcap : int.inlineCapacity = some cap)
    (hsame : ext.inlineCapacity = int.inlineCapacity) :
    Swapped p ext int (swapMixed p cap ext int) := by
  have hstorage := hi.storage
  rw [hint] at hstorage
  have hmCap : int.mCapacity = cap := Option.some.inj (hstorage.symm.trans hcap)
  have hle := hf cap hcap
  have hsize := hi.size_le
  have heLe := he.mCapacity_le (hsame ▸ hf)
  refine ⟨⟨?_, ?_, ?_⟩, ?_, rfl, rfl⟩
  · show stored p int.mSize = int.size
    rw [hi.size_eq]
    exact stored_of_le (by omega)
  · show int.size ≤ stored p cap
    rw [stored_of_le hle]
    omega
  · show ext.inlineCapacity = some (stored p cap)
    rw [stored_of_le hle, hsame, hcap]
  · have hres : Sound p { ext with inlineCapacity := int.inlineCapacity } :=
      he.ofResources hext (by rw [hsame])
    show Sound p
      ⟨int.inlineCapacity, ext.start, stored p ext.mSize, stored p ext.mCapacity, ext.size⟩
    have heSize := he.size_le
    rw [stored_of_le heLe, stored_of_le (by rw [he.size_eq]; omega)]
    exact hres

theorem swapElements_ends {small big : Holder} (hs : Sound p small) (hb : Sound p big)
    (hfs : Fits p small.inlineCapacity) (hfb : Fits p big.inlineCapacity)
    (hle : small.size ≤ big.size)
    (hroom : small.mCapacity < big.size → small.mCapacity ≤ p.maxSize) :
    Ends (Swapped p small big) (swapElements p answer small big) := by
  have hbLe := hb.size_le
  have hbCap := hb.mCapacity_le hfb
  have hsum : small.size + (big.size - small.size) = big.size := by omega
  have hdrop : big.size - (big.size - small.size) = small.size := by omega
  unfold swapElements
  rw [hs.size_eq, hb.size_eq, hdrop]
  refine (hs.insertN_ends hfs (by rw [hsum]; exact hroom)).bind fun h' hl => ?_
  refine ⟨hl.sound, ⟨stored_of_le (by omega), ?_, hb.storage⟩, hl.inline_eq, rfl⟩
  show small.size ≤ big.mCapacity
  omega

/-- Whether two objects may be swapped: they are of one kind, and of one type unless they
are swapped as bases; and neither has to grow from more than the allocator may give. -/
structure Swappable (p : Params) (base : Bool) (a b : Holder) : Prop where
  kind : a.inlineCapacity.isNone = b.inlineCapacity.isNone
  same : base = false → a.inlineCapacity = b.inlineCapacity
  left : a.mCapacity < b.size → a.mCapacity ≤ p.maxSize
  right : b.mCapacity < a.size → b.mCapacity ≤ p.maxSize

theorem swap_ends {base equal : Bool} {a b : Holder} (ha : Sound p a) (hb : Sound p b)
    (hfa : Fits p a.inlineCapacity) (hfb : Fits p b.inlineCapacity)
    (h : Swappable p base a b) : Ends (Swapped p a b) (swap p base equal answer a b) := by
  unfold swap
  simp only
  split
  · next hres =>
    have hne : a.start ≠ .internal ∧ b.start ≠ .internal := by
      rw [Bool.or_eq_true] at hres
      rcases hres with hnone | hres
      · exact ⟨ha.ne_internal (Option.isNone_iff_eq_none.mp hnone),
          hb.ne_internal (Option.isNone_iff_eq_none.mp (h.kind ▸ hnone))⟩
      · simp only [Bool.and_eq_true, decide_eq_true_eq] at hres
        exact ⟨hres.1.2, hres.2.2⟩
    exact ⟨hb.ofResources hne.2 h.kind, ha.ofResources hne.1 h.kind.symm, rfl, rfl⟩
  · next hres =>
    rw [Bool.or_eq_true, not_or] at hres
    -- In a swap through the inline storage the other is in its own.
    have hmixed : ∀ c, (if base then 0 else a.inlineCapacity.getD 0) = c → c ≠ 0 →
        a.inlineCapacity = some c ∧ b.inlineCapacity = some c := by
      intro c hc hne
      cases base with
      | true => exact absurd hc.symm hne
      | false =>
        rw [← h.same rfl]
        cases hin : a.inlineCapacity with
        | none =>
          rw [hin] at hc
          exact absurd hc.symm hne
        | some cap =>
          rw [hin] at hc
          simp only [Bool.false_eq_true, if_false, Option.getD_some] at hc
          rw [hc]
          exact ⟨rfl, rfl⟩
    generalize (if base = true then 0 else a.inlineCapacity.getD 0) = c at hmixed ⊢
    split
    · next hleft =>
      simp only [Bool.and_eq_true, decide_eq_true_eq] at hleft hres
      obtain ⟨hca, hcb⟩ := hmixed c rfl hleft.1
      have hint : b.start = .internal := by
        by_contra hne
        exact hres.2 ⟨hleft.2, hleft.2.1, hne⟩
      exact swapMixed_swapped ha hb hfb hleft.2.2 hint hcb (hca.trans hcb.symm)
    · split
      · next hright =>
        simp only [Bool.and_eq_true, decide_eq_true_eq] at hright hres
        obtain ⟨hca, hcb⟩ := hmixed c rfl hright.1
        have hint : a.start = .internal := by
          by_contra hne
          exact hres.2 ⟨⟨hright.2.1, hne⟩, hright.2⟩
        exact (swapMixed_swapped hb ha hfa hright.2.2 hint hca (hcb.trans hca.symm)).symm
      · rw [ha.size_eq, hb.size_eq]
        split
        · next hlt => exact swapElements_ends ha hb hfa hfb hlt.le h.left
        · next hle =>
          exact (swapElements_ends hb ha hfb hfa (not_lt.mp hle) h.right).bind
            fun r hr => hr.symm

/-! ## What cannot be stored -/

theorem Sound.moveToNewBuffer_refused (hn : storedMax p < n) :
    h.moveToNewBuffer p answer n = .error .lengthError := by
  unfold Holder.moveToNewBuffer
  split
  · rw [allocationCommand_refused hn]
    rfl
  · rw [allocate_refused hn]
    rfl

theorem constructN_refused (hf : Fits p inlineCapacity) (hn : storedMax p < n) :
    constructN p inlineCapacity answer n = .error .lengthError := by
  cases inlineCapacity with
  | none =>
    unfold constructN
    refine checkSize_bind ?_
    rw [if_neg (by omega), allocationCommand_refused hn]
    rfl
  | some cap =>
    have hcap := hf cap rfl
    unfold constructN
    simp only
    rw [if_neg (by omega)]
    refine checkSize_bind ?_
    rw [allocationCommand_refused hn]
    rfl

/-! ## Runs -/

/-- **What is done to a vector.** -/
inductive Op where
  | reserve (newCap : ℕ)
  | insertN (n : ℕ)
  | resize (newSize : ℕ)
  | assign (n : ℕ)
  | stableReserve (newCap : ℕ)
  | stableEmplaceBack
  | shrinkToFit

/-- The operation is run. -/
def Op.run (p : Params) (answer : Answer) (h : Holder) : Op → Except Err Holder
  | reserve newCap => h.reserve p answer newCap
  | insertN n => h.insertN p answer n
  | resize newSize => h.resize p answer newSize
  | assign n => h.assign p answer n
  | stableReserve newCap => h.stableReserve p answer newCap
  | stableEmplaceBack => h.stableEmplaceBack p answer
  | shrinkToFit => h.shrinkToFit p answer

/-- **Where nothing wraps**: an insertion grows from no more than the allocator may give,
and one more than the capacity is a `size_type`. -/
def Op.Regular (p : Params) (h : Holder) : Op → Prop
  | insertN n => h.mCapacity < h.size + n → h.mCapacity ≤ p.maxSize
  | resize newSize => h.mCapacity < newSize → h.mCapacity ≤ p.maxSize
  | stableReserve newCap => newCap < 2 ^ p.sizeBits
  | stableEmplaceBack =>
    h.size = h.mCapacity → h.version2 p = true → h.mCapacity + 1 < 2 ^ p.sizeBits
  | _ => True

/-- The size or the capacity that there is to be. With an allocator of version 1 an
expansion is not tried. -/
def Op.asks (p : Params) (h : Holder) : Op → ℕ
  | reserve newCap => newCap
  | insertN n => h.size + n
  | resize newSize => newSize
  | assign n => n
  | stableReserve newCap => if h.version2 p then newCap else 0
  | stableEmplaceBack => if h.version2 p ∧ h.size = h.mCapacity then h.size + 1 else 0
  | shrinkToFit => 0

theorem Op.run_ends {op : Op} (hs : Sound p h) (hf : Fits p h.inlineCapacity)
    (hreg : op.Regular p h) : Ends (fun h' => ∃ m, Leaves p h m h') (op.run p answer h) := by
  cases op with
  | reserve newCap => exact (hs.reserve_ends hs.size_le).imp fun _ hl => ⟨_, hl⟩
  | insertN n => exact (hs.insertN_ends hf hreg).imp fun _ hl => ⟨_, hl⟩
  | resize newSize => exact (hs.resize_ends hf hreg).imp fun _ hl => ⟨_, hl⟩
  | assign n => exact (hs.assign_ends hf).imp fun _ hl => ⟨_, hl⟩
  | stableReserve newCap => exact (hs.stableReserve_ends hf hreg).imp fun _ hl => ⟨_, hl⟩
  | stableEmplaceBack => exact hs.stableEmplaceBack_ends hf hreg
  | shrinkToFit => exact (hs.shrinkToFit_ends hf).imp fun _ hl => ⟨_, hl⟩

theorem Sound.tryExpandFwd_refused (hwrap : h.mCapacity + n < 2 ^ p.sizeBits)
    (hn : storedMax p < h.mCapacity + n) :
    h.tryExpandFwd p answer n = .error .lengthError := by
  unfold Holder.tryExpandFwd
  rw [Word.add_of_lt hwrap]
  simp only [allocationCommand_refused hn]
  rfl

/-- **What cannot be stored is refused**, before anything is done. -/
theorem Op.run_refused {op : Op} (hs : Sound p h) (hf : Fits p h.inlineCapacity)
    (hreg : op.Regular p h) (hasks : storedMax p < op.asks p h) :
    op.run p answer h = .error .lengthError := by
  have hcapLe := hs.mCapacity_le hf
  have hsizeLe := hs.size_le
  have hsizeEq := hs.size_eq
  cases op with
  | reserve newCap =>
    have hlt : h.mCapacity < newCap := hcapLe.trans_lt hasks
    rw [run, Holder.reserve, if_pos hlt]
    exact Sound.moveToNewBuffer_refused hasks
  | insertN n => exact hs.insertN_refused hf hreg hasks
  | resize newSize =>
    simp only [asks] at hasks
    have hsum : h.size + (newSize - h.size) = newSize := by omega
    rw [run, Holder.resize, if_neg (by omega), hsizeEq]
    exact hs.insertN_refused hf (by rw [hsum]; exact hreg) (by rw [hsum]; exact hasks)
  | assign n =>
    simp only [asks] at hasks
    rw [run]
    unfold Holder.assign
    refine checkSize_bind ?_
    rw [if_pos (by omega), allocationCommand_refused hasks]
    rfl
  | stableReserve newCap =>
    simp only [asks] at hasks
    split at hasks
    · next hv2 =>
      have hsum : h.mCapacity + (newCap - h.mCapacity) = newCap := by omega
      rw [run, Holder.stableReserve, if_neg]
      · exact Sound.tryExpandFwd_refused (by rw [hsum]; exact hreg) (by rw [hsum]; exact hasks)
      · rw [not_or, Bool.not_eq_false]
        exact ⟨by omega, hv2⟩
    · exact absurd hasks (Nat.not_lt_zero _)
  | stableEmplaceBack =>
    simp only [asks] at hasks
    split at hasks
    · next hfull =>
      rw [run]
      unfold Holder.stableEmplaceBack
      simp only
      rw [if_neg (by rw [ne_eq, not_not]; omega), if_pos hfull.1,
        Sound.tryExpandFwd_refused (hreg hfull.2 hfull.1) (by omega)]
      rfl
    · exact absurd hasks (Nat.not_lt_zero _)
  | shrinkToFit => exact absurd hasks (Nat.not_lt_zero _)

/-- The vectors there are. -/
abbrev World := ℕ → Option Holder

/-- **What happens**: a vector is made, changed, swapped with another or destroyed. -/
inductive Event where
  | construct (i : ℕ) (inlineCapacity : Option ℕ)
  | constructN (i : ℕ) (inlineCapacity : Option ℕ) (answer : Answer) (n : ℕ)
  | moveConstruct (i j : ℕ) (inlineCapacity : Option ℕ)
  | op (i : ℕ) (what : Op) (answer : Answer)
  | swap (i j : ℕ) (base equal : Bool) (answer : Answer)
  | destroy (i : ℕ)

/-- **The event takes place**, if there are the vectors it is about. -/
def Event.run (p : Params) (w : World) : Event → Except Err World
  | construct i c =>
    match w i with
    | none => .ok (Function.update w i (some (StoredSize.construct p c)))
    | some _ => .ok w
  | constructN i c answer n =>
    match w i with
    | none => do
      let h ← StoredSize.constructN p c answer n
      return Function.update w i (some h)
    | some _ => .ok w
  | moveConstruct i j c =>
    match w i, w j with
    | none, some x =>
      let r := StoredSize.moveConstruct p c x
      .ok (Function.update (Function.update w i (some r.1)) j (some r.2))
    | _, _ => .ok w
  | op i what answer =>
    match w i with
    | some h => do
      let h ← what.run p answer h
      return Function.update w i (some h)
    | none => .ok w
  | swap i j base equal answer =>
    match w i, w j with
    | some a, some b =>
      if i = j then .ok w
      else do
        let r ← StoredSize.swap p base equal answer a b
        return Function.update (Function.update w i (some r.1)) j (some r.2)
    | _, _ => .ok w
  | destroy i =>
    match w i with
    | some h => do
      (if h.mCapacity ≠ 0 then h.deallocate p else pure ())
      return Function.update w i none
    | none => .ok w

/-- **A regular step**: an inline capacity can be stored and holds what is moved into it,
and no sum or difference wraps. -/
def Regular (p : Params) (w : World) : Event → Prop
  | .construct _ c => Fits p c
  | .constructN _ c _ _ => Fits p c
  | .moveConstruct _ j c => Fits p c ∧ ∀ x, w j = some x → c.isNone = x.inlineCapacity.isNone
    ∧ (x.start = .internal → ∀ cap, c = some cap → x.size ≤ cap)
  | .op i what _ => ∀ h, w i = some h → what.Regular p h
  | .swap i j base _ _ => ∀ a b, w i = some a → w j = some b → Swappable p base a b
  | .destroy _ => True

/-- The size or the capacity that there is to be after the event. -/
def Event.asks (p : Params) (w : World) : Event → ℕ
  | constructN i _ _ n => if w i = none then n else 0
  | op i what _ => match w i with
    | some h => what.asks p h
    | none => 0
  | _ => 0

/-- **The vectors**, from none. -/
def vectors (p : Params) : TransitionSystem World Event where
  Init w := ∀ i, w i = none
  Step w e w' := e.run p w = .ok w'

/-- What every vector is. -/
def AllSound (p : Params) (w : World) : Prop :=
  ∀ i h, w i = some h → Sound p h ∧ Fits p h.inlineCapacity

theorem AllSound.update {w : World} (hw : AllSound p w) (i : ℕ) {o : Option Holder}
    (ho : ∀ h, o = some h → Sound p h ∧ Fits p h.inlineCapacity) :
    AllSound p (Function.update w i o) := by
  intro j h hj
  by_cases hji : j = i
  · rw [hji, Function.update_self] at hj
    exact ho h hj
  · rw [Function.update_of_ne hji] at hj
    exact hw j h hj

theorem AllSound.set {w : World} (hw : AllSound p w) (i : ℕ) {h : Holder} (hs : Sound p h)
    (hf : Fits p h.inlineCapacity) : AllSound p (Function.update w i (some h)) :=
  hw.update i fun _ he => Option.some.inj he ▸ ⟨hs, hf⟩

/-- **A regular event keeps all vectors sound**, and frees no buffer with a wrong length. -/
theorem Event.run_ends {w : World} (hw : AllSound p w) (e : Event) (hreg : Regular p w e) :
    Ends (AllSound p) (e.run p w) := by
  cases e with
  | construct i c =>
    rw [run]
    split
    · refine hw.set i (construct_sound hreg) ?_
      rw [inlineCapacity_construct]
      exact hreg
    · exact hw
  | constructN i c answer n =>
    rw [run]
    split
    · refine (constructN_ends hreg).bind fun h hl => hw.set i hl.sound ?_
      rw [hl.inline_eq, inlineCapacity_construct]
      exact hreg
    · exact hw
  | moveConstruct i j c =>
    rw [run]
    split
    · next x hi hj =>
      obtain ⟨hf, hx⟩ := hreg
      obtain ⟨hkind, hfit⟩ := hx x hj
      obtain ⟨hsx, hfx⟩ := hw j x hj
      obtain ⟨hleft, hright⟩ := hsx.moveConstruct_sound hf hkind hfit
      refine (hw.set i hleft ?_).set j hright ?_
      · rw [StoredSize.moveConstruct]
        split <;> simp only [Holder.withResources, inlineCapacity_construct] <;> exact hf
      · rw [StoredSize.moveConstruct]
        split <;> exact hfx
    · exact hw
  | op i what answer =>
    rw [run]
    split
    · next h hi =>
      obtain ⟨hs, hf⟩ := hw i h hi
      refine (Op.run_ends hs hf (hreg h hi)).bind ?_
      rintro h' ⟨m, hl⟩
      exact hw.set i hl.sound (hl.inline_eq ▸ hf)
    · exact hw
  | swap i j base equal answer =>
    rw [run]
    split
    · next a b hi hj =>
      split
      · exact hw
      · obtain ⟨ha, hfa⟩ := hw i a hi
        obtain ⟨hb, hfb⟩ := hw j b hj
        refine (swap_ends ha hb hfa hfb (hreg a b hi hj)).bind fun r hr => ?_
        exact (hw.set i hr.left (hr.left_eq ▸ hfa)).set j hr.right (hr.right_eq ▸ hfb)
    · exact hw
  | destroy i =>
    rw [run]
    split
    · next h hi =>
      have hgone : AllSound p (Function.update w i none) := hw.update i fun _ he => nomatch he
      split
      · exact (hw i h hi).1.deallocate_ends.bind fun _ _ => hgone
      · exact hgone
    · exact hw

theorem Event.run_refused {w : World} (hw : AllSound p w) (e : Event) (hreg : Regular p w e)
    (hasks : storedMax p < e.asks p w) : e.run p w = .error .lengthError := by
  cases e with
  | constructN i c answer n =>
    simp only [asks] at hasks
    split at hasks
    · next hi =>
      simp only [run, hi]
      rw [StoredSize.constructN_refused hreg hasks]
      rfl
    · exact absurd hasks (Nat.not_lt_zero _)
  | op i what answer =>
    simp only [asks] at hasks
    split at hasks
    · next h hi =>
      simp only [run, hi]
      rw [Op.run_refused (hw i h hi).1 (hw i h hi).2 (hreg h hi) hasks]
      rfl
    · exact absurd hasks (Nat.not_lt_zero _)
  | construct => exact absurd hasks (Nat.not_lt_zero _)
  | moveConstruct => exact absurd hasks (Nat.not_lt_zero _)
  | swap => exact absurd hasks (Nat.not_lt_zero _)
  | destroy => exact absurd hasks (Nat.not_lt_zero _)

/-- **In every run of regular steps what is stored is the size and the capacity**, every
buffer is freed with its length, and what cannot be stored is refused. -/
theorem storedSizes_sound (p : Params) {w : World}
    (hw : ((vectors p).restrict (Regular p)).Reachable w) :
    (∀ i h, w i = some h → Sound p h)
      ∧ ∀ e, Regular p w e → e.run p w ≠ .error .undefined
        ∧ (storedMax p < e.asks p w → e.run p w = .error .lengthError) := by
  have hsound : AllSound p w := by
    refine hw.invariant (fun w hinit i h hi => ?_) fun w e w' hI hstep => ?_
    · rw [hinit i] at hi
      cases hi
    · have hends := Event.run_ends hI e hstep.2
      have hrun : e.run p w = .ok w' := hstep.1
      rw [hrun] at hends
      exact hends
  refine ⟨fun i h hi => (hsound i h hi).1, fun e hreg => ⟨fun herr => ?_, ?_⟩⟩
  · have hends := Event.run_ends hsound e hreg
    rw [herr] at hends
    exact hends rfl
  · exact Event.run_refused hsound e hreg

/-- Sizes of eight bits, and an allocator of version 1. -/
def eightBits : Params where
  sizeBits := 64
  storedBits := 8
  storedBits_le := Nat.le_of_ble_eq_true rfl
  version2 := false
  maxSize := 1000
  maxSize_lt := Nat.lt_of_sub_ne_zero nofun
  growth := NextCapacity.growthFactor60 64

theorem storedSizes_sound_three :
    (∀ i h, Function.update (fun _ => none) 0 (some (construct eightBits (some 3))) i = some h →
        Sound eightBits h)
      ∧ ∀ e, Regular eightBits
          (Function.update (fun _ => none) 0 (some (construct eightBits (some 3)))) e →
        e.run eightBits
            (Function.update (fun _ => none) 0 (some (construct eightBits (some 3))))
          ≠ .error .undefined
        ∧ (storedMax eightBits < e.asks eightBits
            (Function.update (fun _ => none) 0 (some (construct eightBits (some 3))))
          → e.run eightBits
              (Function.update (fun _ => none) 0 (some (construct eightBits (some 3))))
            = .error .lengthError) := by
  have hinit : ((vectors eightBits).restrict (Regular eightBits)).Reachable fun _ => none :=
    TransitionSystem.Reachable.of_init fun _ => rfl
  refine storedSizes_sound eightBits (hinit.step (e := .construct 0 (some 3)) ⟨rfl, ?_⟩)
  intro cap hcap
  obtain rfl := Option.some.inj hcap
  decide

/-- **An inline capacity of 300 is stored as 44.** -/
theorem not_storedSizes_sound :
    ¬ ∀ (p : Params) (w : World), (vectors p).Reachable w → ∀ i h, w i = some h → Sound p h := by
  intro hall
  have hinit : (vectors eightBits).Reachable fun _ => none :=
    TransitionSystem.Reachable.of_init fun _ => rfl
  have hsound := hall eightBits _ (hinit.step (e := .construct 0 (some 300)) rfl) 0
    (construct eightBits (some 300)) (Function.update_self _ _ _)
  exact absurd (Option.some.inj hsound.storage) (by decide)

end StoredSize
