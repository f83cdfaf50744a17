import BoostContainer.Lib.Run
import BoostContainer.Vector.StaticVector

/-!
# Runs over static vectors

Static vectors of any capacities are made, changed, assigned to one another, swapped and
destroyed in any order. All of them stay safe, and what does not fit throws, in every run
if and only if no capacity is beyond what the stored type counts: a static vector with
room for more elements than that stores a size that is not the number of its elements.
-/

namespace StaticVector

section Definitions

variable {α : Type} (bits : ℕ)

/-! ## The steps -/

/-- **What is asked of one static vector.** -/
inductive Op (α : Type) where
  | emplaceBack (v : α)
  | insertForward (pos : ℕ) (values : List α)
  | insertInput (pos : ℕ) (values : List α)
  | resize (newSize : ℕ) (v : α)
  | reserve (newCap : ℕ)
  | assign (category : Category) (values : List α)
  | merge (le : α → α → Bool) (category : Category) (values : List α)
  | erase (first last : ℕ)

/-- It is done; whether it throws, and what it leaves. -/
def Op.run : Op α → Static α → Bool × Static α
  | .emplaceBack v, s => s.emplaceBack bits v
  | .insertForward pos values, s => s.insertForward bits pos values
  | .insertInput pos values, s => s.insertInput bits pos values
  | .resize newSize v, s => s.resize bits newSize v
  | .reserve newCap, s => s.reserve newCap
  | .assign category values, s => s.assign bits category values
  | .merge le category values, s => s.merge bits le category values
  | .erase first last, s => (false, s.erase bits first last)

/-- **How many elements there have to be room for.** -/
def Op.needs : Op α → Static α → ℕ
  | .emplaceBack _, s => s.mSize + 1
  | .insertForward _ values, s => s.mSize + values.length
  | .insertInput _ values, s => s.mSize + values.length
  | .resize newSize _, _ => newSize
  | .reserve newCap, _ => newCap
  | .assign _ values, _ => values.length
  | .merge _ _ values, s => s.mSize + values.length
  | .erase _ _, _ => 0

/-- **Whether it is one that throws before anything is done.** -/
def Op.Atomic : Op α → Prop
  | .insertInput _ _ => False
  | .assign _ _ => False
  | .merge _ category _ => category = .forward
  | _ => True

/-- What is asked of two static vectors. -/
inductive PairOp where
  | copyAssign
  | moveAssign
  | swap

/-- It is done; whether it throws, and what it leaves of both. -/
def PairOp.run : PairOp → Static α → Static α → Bool × Static α × Static α
  | .copyAssign => StaticVector.copyAssign bits
  | .moveAssign => StaticVector.moveAssign bits
  | .swap => deepSwap bits

/-- Whether the elements fit where they go. -/
def PairOp.Fits : PairOp → Static α → Static α → Prop
  | .swap, s, x => x.mSize ≤ s.capacity ∧ s.mSize ≤ x.capacity
  | _, s, x => x.mSize ≤ s.capacity

/-- The static vectors that there are. -/
abbrev World (α : Type) := ℕ → Option (Static α)

/-- **What may happen.** -/
inductive Event (α : Type) where
  | construct (i : ℕ) (storage : StorageAllocator) (values : List α)
  | constructRange (i : ℕ) (storage : StorageAllocator) (category : Category) (values : List α)
  | constructCopy (i : ℕ) (storage : StorageAllocator) (j : ℕ)
  | constructMove (i : ℕ) (storage : StorageAllocator) (j : ℕ) (moved : α → α)
  | one (i : ℕ) (what : Op α)
  | pair (what : PairOp) (i j : ℕ)
  | destroy (i : ℕ)

/-- **It happens** to these static vectors: whether it throws, and what there is then. -/
inductive Happens : World α → Event α → Bool → World α → Prop
  | made {w : World α} {i : ℕ} {storage : StorageAllocator} {values : List α} {s : Static α}
      (free : w i = none) (result : constructN bits storage values = some s) :
      Happens w (.construct i storage values) false (Function.update w i (some s))
  | notMade {w : World α} {i : ℕ} {storage : StorageAllocator} {values : List α}
      (free : w i = none) (result : constructN bits storage values = none) :
      Happens w (.construct i storage values) true w
  | madeRange {w : World α} {i : ℕ} {storage : StorageAllocator} {category : Category}
      {values : List α} {s : Static α} (free : w i = none)
      (result : constructRange bits storage category values = some s) :
      Happens w (.constructRange i storage category values) false
        (Function.update w i (some s))
  | notMadeRange {w : World α} {i : ℕ} {storage : StorageAllocator} {category : Category}
      {values : List α} (free : w i = none)
      (result : constructRange bits storage category values = none) :
      Happens w (.constructRange i storage category values) true w
  | copied {w : World α} {i j : ℕ} {storage : StorageAllocator} {s x : Static α}
      (free : w i = none) (source : w j = some x)
      (result : constructN bits storage x.view = some s) :
      Happens w (.constructCopy i storage j) false (Function.update w i (some s))
  | notCopied {w : World α} {i j : ℕ} {storage : StorageAllocator} {x : Static α}
      (free : w i = none) (source : w j = some x)
      (result : constructN bits storage x.view = none) :
      Happens w (.constructCopy i storage j) true w
  | moved {w : World α} {i j : ℕ} {storage : StorageAllocator} {moved : α → α}
      {s x x' : Static α} (free : w i = none) (source : w j = some x)
      (result : constructMove bits moved storage x = some (s, x')) :
      Happens w (.constructMove i storage j moved) false
        (Function.update (Function.update w j (some x')) i (some s))
  | notMoved {w : World α} {i j : ℕ} {storage : StorageAllocator} {moved : α → α}
      {x : Static α} (free : w i = none) (source : w j = some x)
      (result : constructMove bits moved storage x = none) :
      Happens w (.constructMove i storage j moved) true w
  | one {w : World α} {i : ℕ} {what : Op α} {s : Static α} (here : w i = some s) :
      Happens w (.one i what) (what.run bits s).1 (Function.update w i (some (what.run bits s).2))
  | pair {w : World α} {i j : ℕ} {what : PairOp} {s x : Static α} (ne : i ≠ j)
      (here : w i = some s) (there : w j = some x) :
      Happens w (.pair what i j) (what.run bits s x).1
        (Function.update (Function.update w i (some (what.run bits s x).2.1)) j
          (some (what.run bits s x).2.2))
  | pairSelf {w : World α} {i : ℕ} {what : PairOp} (here : (w i).isSome) :
      Happens w (.pair what i i) false w
  | destroyed {w : World α} {i : ℕ} (here : (w i).isSome) :
      Happens w (.destroy i) false (Function.update w i none)

/-- The storage that an event makes. -/
def Event.storage : Event α → Option StorageAllocator
  | .construct _ storage _ => some storage
  | .constructRange _ storage _ _ => some storage
  | .constructCopy _ storage _ => some storage
  | .constructMove _ storage _ _ => some storage
  | _ => none

/-- **Static vectors that come and go**, of the types that there are. -/
def system (Types : StorageAllocator → Prop) : TransitionSystem (World α) (Event α) where
  Init w := ∀ i, w i = none
  Step w e w' := (∃ threw, Happens bits w e threw w') ∧ ∀ storage ∈ e.storage, Types storage

end Definitions

/-! ## What is asked of a run -/

section Asked

variable {α : Type}

/-- Every static vector is safe. -/
def AllSafe (w : World α) : Prop := ∀ i s, w i = some s → s.Safe

/-- **Whether what an event needs fits.** -/
def Fits (w : World α) : Event α → Prop
  | .construct _ storage values => values.length ≤ storage.internalCapacity
  | .constructRange _ storage _ values => values.length ≤ storage.internalCapacity
  | .constructCopy _ storage j => ∀ x ∈ w j, x.mSize ≤ storage.internalCapacity
  | .constructMove _ storage j _ => ∀ x ∈ w j, x.mSize ≤ storage.internalCapacity
  | .one i what => ∀ s ∈ w i, what.needs s ≤ s.capacity
  | .pair what i j => ∀ s ∈ w i, ∀ x ∈ w j, what.Fits s x
  | .destroy _ => True

/-- Whether an event is one that throws before anything is done. -/
def Event.Atomic : Event α → Prop
  | .one _ what => what.Atomic
  | _ => True

/-- **Capacity safety**: every static vector is safe, and what happens next throws exactly if
it does not fit; then all is as it was, or still safe. -/
def CapacitySafe (bits : ℕ) (Types : StorageAllocator → Prop) (w : World α) : Prop :=
  AllSafe w ∧ ∀ e threw w', Happens bits w e threw w' → (∀ storage ∈ e.storage, Types storage) →
    (threw = true ↔ ¬ Fits w e) ∧ (threw = true → e.Atomic → w' = w) ∧ AllSafe w'

end Asked

/-! ## One step -/

section Steps

variable {α : Type} {bits : ℕ} {s x : Static α} {w w' : World α} {e : Event α} {threw : Bool}

theorem Op.run_ends (h : s.Safe) (hbits : s.capacity < 2 ^ bits) (what : Op α) :
    EndsSafe s (what.needs s) (what.run bits s) := by
  cases what with
  | emplaceBack v => exact emplaceBack_ends h hbits v
  | insertForward pos values => exact insertForward_ends h hbits pos values
  | insertInput pos values => exact insertInput_ends h hbits pos values
  | resize newSize v => exact resize_ends h hbits newSize v
  | reserve newCap => exact ⟨h, rfl, decide_eq_true_iff⟩
  | assign category values => exact assign_ends h hbits category values
  | merge le category values => exact merge_ends h hbits le category values
  | erase first last => exact erase_makes_room h hbits first last

theorem Op.run_unchanged (h : s.Safe) (hbits : s.capacity < 2 ^ bits) (what : Op α)
    (hatomic : what.Atomic) (hthrew : (what.run bits s).1 = true) :
    (what.run bits s).2 = s := by
  cases what with
  | emplaceBack v => exact emplaceBack_unchanged v hthrew
  | insertForward pos values => exact insertForward_unchanged pos values hthrew
  | insertInput pos values => exact hatomic.elim
  | resize newSize v => exact resize_unchanged newSize v hthrew
  | reserve newCap => rfl
  | assign category values => exact hatomic.elim
  | merge le category values =>
    obtain rfl : category = .forward := hatomic
    exact merge_unchanged h hbits le values hthrew
  | erase first last => exact absurd hthrew Bool.false_ne_true

theorem PairOp.run_ends (hs : s.Safe) (hx : x.Safe) (hbits : s.capacity < 2 ^ bits)
    (hxbits : x.capacity < 2 ^ bits) (what : PairOp) :
    BothEndSafe s x (what.Fits s x) (what.run bits s x) := by
  cases what with
  | copyAssign => exact copyAssign_ends hs hx hbits
  | moveAssign => exact moveAssign_ends hs hx hbits hxbits
  | swap => exact deepSwap_ends hs hx hbits hxbits

/-- **Every static vector is safe**, and the stored type counts to its capacity. -/
def Sound (bits : ℕ) (w : World α) : Prop :=
  ∀ i s, w i = some s → s.Safe ∧ s.capacity < 2 ^ bits

/-- **One static vector is put somewhere.** -/
theorem Sound.update (h : Sound bits w) (i : ℕ) (hs : s.Safe) (hbits : s.capacity < 2 ^ bits) :
    Sound bits (Function.update w i (some s)) := by
  intro j t hj
  rw [Function.update_apply] at hj
  split at hj
  · obtain rfl := Option.some.inj hj
    exact ⟨hs, hbits⟩
  · exact h j t hj

/-- One static vector is destroyed. -/
theorem Sound.remove (h : Sound bits w) (i : ℕ) : Sound bits (Function.update w i none) := by
  intro j t hj
  rw [Function.update_apply] at hj
  split at hj
  · exact nomatch hj
  · exact h j t hj

/-- The type decides the capacity. -/
theorem capacity_lt {storage : StorageAllocator} (heq : s.storage = storage)
    (hbits : storage.internalCapacity < 2 ^ bits) : s.capacity < 2 ^ bits := by
  rw [Static.capacity, heq]
  exact hbits

/-- **How a step ends.** -/
structure StepEnds (bits : ℕ) (w : World α) (e : Event α) (threw : Bool) (w' : World α) :
    Prop where
  threw_iff : threw = true ↔ ¬ Fits w e
  unchanged : threw = true → e.Atomic → w' = w
  sound : Sound bits w'

/-- **What is made is put where nothing was.** -/
theorem stepEnds_made {storage : StorageAllocator} {needs : ℕ} {r : Option (Static α)} {i : ℕ}
    (h : Sound bits w) (hmade : MadeSafe storage needs r)
    (hbits : storage.internalCapacity < 2 ^ bits)
    (hfits : Fits w e ↔ needs ≤ storage.internalCapacity) (hr : r = some s) :
    StepEnds bits w e false (Function.update w i (some s)) := by
  obtain ⟨hsafe, hstorage⟩ := hmade.safe s hr
  refine ⟨iff_of_false Bool.false_ne_true (not_not.mpr (hfits.mpr ?_)),
    fun hthrew => absurd hthrew Bool.false_ne_true, h.update i hsafe (capacity_lt hstorage hbits)⟩
  exact not_lt.mp fun hlt => nomatch (hmade.threw_iff.mpr hlt).symm.trans hr

/-- Nothing is made. -/
theorem stepEnds_notMade {storage : StorageAllocator} {needs : ℕ} {r : Option (Static α)}
    (h : Sound bits w) (hmade : MadeSafe storage needs r)
    (hfits : Fits w e ↔ needs ≤ storage.internalCapacity) (hr : r = none) :
    StepEnds bits w e true w :=
  ⟨iff_of_true rfl fun hfit => absurd (hmade.threw_iff.mp hr) (not_lt.mpr (hfits.mp hfit)),
    fun _ _ => rfl, h⟩

/-- What a lookup finds is all there is. -/
theorem fits_source {j : ℕ} {P : Static α → Prop} (hj : w j = some x) :
    (∀ t ∈ w j, P t) ↔ P x := by
  rw [hj]
  exact ⟨fun h => h x rfl, fun h t ht => Option.some.inj ht ▸ h⟩

/-- **Every step keeps all static vectors safe, and throws exactly if something does not
fit.** -/
theorem Happens.ends (hstep : Happens bits w e threw w') (h : Sound bits w)
    (he : ∀ storage ∈ e.storage, storage.internalCapacity < 2 ^ bits) :
    StepEnds bits w e threw w' := by
  cases hstep with
  | made _ result =>
    exact stepEnds_made h (constructN_makes (he _ rfl) _) (he _ rfl) Iff.rfl result
  | notMade _ result => exact stepEnds_notMade h (constructN_makes (he _ rfl) _) Iff.rfl result
  | madeRange _ result =>
    exact stepEnds_made h (constructRange_makes (he _ rfl) _ _) (he _ rfl) Iff.rfl result
  | notMadeRange _ result =>
    exact stepEnds_notMade h (constructRange_makes (he _ rfl) _ _) Iff.rfl result
  | copied _ source result =>
    refine stepEnds_made h (constructN_makes (he _ rfl) _) (he _ rfl) ?_ result
    rw [(h _ _ source).1.length_view]
    exact fits_source source
  | notCopied _ source result =>
    refine stepEnds_notMade h (constructN_makes (he _ rfl) _) ?_ result
    rw [(h _ _ source).1.length_view]
    exact fits_source source
  | @moved i j storage moved s x x' free source result =>
    obtain ⟨hx, hxbits⟩ := h _ _ source
    obtain ⟨hmade, hleft⟩ := constructMove_makes hx (he _ rfl) hxbits moved
    obtain ⟨hx', hstorage⟩ := hleft _ result
    have hends := stepEnds_made (i := i) (e := .constructMove i storage j moved) h hmade (he _ rfl)
      (fits_source source) (congrArg (Option.map Prod.fst) result)
    refine ⟨hends.threw_iff, fun hthrew => absurd hthrew Bool.false_ne_true, ?_⟩
    obtain ⟨hs, hs'⟩ := hmade.safe s (congrArg (Option.map Prod.fst) result)
    exact (h.update j hx' (capacity_lt hstorage hxbits)).update i hs (capacity_lt hs' (he _ rfl))
  | @notMoved i j storage moved x free source result =>
    obtain ⟨hx, hxbits⟩ := h _ _ source
    exact stepEnds_notMade h (constructMove_makes hx (he _ rfl) hxbits moved).1
      (fits_source source) (congrArg (Option.map Prod.fst) result)
  | @one i what s here =>
    obtain ⟨hs, hbits⟩ := h _ _ here
    have hends := what.run_ends hs hbits
    have hfits : Fits w (.one i what) ↔ what.needs s ≤ s.capacity := fits_source here
    refine ⟨hends.threw_iff.trans ?_, fun hthrew hatomic => ?_,
      h.update i hends.safe (capacity_lt hends.storage_eq hbits)⟩
    · rw [hfits, not_le]
    · rw [what.run_unchanged hs hbits hatomic hthrew, ← here, Function.update_eq_self]
  | @pair i j what s x ne here there =>
    obtain ⟨hs, hbits⟩ := h _ _ here
    obtain ⟨hx, hxbits⟩ := h _ _ there
    have hends := what.run_ends hs hx hbits hxbits
    have hfits : Fits w (.pair what i j) ↔ ∀ x ∈ w j, what.Fits s x := fits_source here
    refine ⟨hends.threw_iff.trans ?_, fun hthrew _ => ?_,
      (h.update i hends.first (capacity_lt hends.first_storage hbits)).update j hends.second
        (capacity_lt hends.second_storage hxbits)⟩
    · rw [hfits, fits_source there]
    · rw [hends.unchanged hthrew, ← here, ← there, Function.update_eq_self,
        Function.update_eq_self]
  | @pairSelf i what here =>
    refine ⟨iff_of_false Bool.false_ne_true (not_not.mpr ?_),
      fun hthrew => absurd hthrew Bool.false_ne_true, h⟩
    intro s hs x hx
    obtain rfl := Option.some.inj (hs.symm.trans hx)
    have hle := (h _ _ hs).1.size_le
    cases what with
    | copyAssign => exact hle
    | moveAssign => exact hle
    | swap => exact ⟨hle, hle⟩
  | destroyed here =>
    exact ⟨iff_of_false Bool.false_ne_true (not_not.mpr trivial),
      fun hthrew => absurd hthrew Bool.false_ne_true, h.remove _⟩

end Steps

/-! ## Every run -/

section Runs

variable {α : Type} {bits : ℕ} {Types : StorageAllocator → Prop} {w : World α}

theorem sound_of_reachable (hTypes : ∀ storage, Types storage → storage.internalCapacity < 2 ^ bits)
    (hw : (system bits Types).Reachable w) : Sound bits w := by
  refine hw.invariant (fun w hinit i s hs => nomatch (hinit i).symm.trans hs) ?_
  rintro w e w' hsound ⟨⟨threw, hstep⟩, hmade⟩
  exact (hstep.ends hsound fun storage hs => hTypes storage (hmade storage hs)).sound

/-- **Static vectors are of a safe capacity**, in every run and for every capacity there is,
if and only if no capacity is beyond what the stored type counts. -/
theorem capacitySafe_iff [Inhabited α] (bits : ℕ) (Types : StorageAllocator → Prop) :
    (∀ w : World α, (system bits Types).Reachable w → CapacitySafe bits Types w) ↔
      ∀ storage, Types storage → storage.internalCapacity < 2 ^ bits := by
  constructor
  · intro h storage hstorage
    by_contra hge
    have hlen : (List.replicate (2 ^ bits) (default : α)).length = 2 ^ bits :=
      List.length_replicate
    have hinit : (system bits Types).Reachable (fun _ => none : World α) :=
      TransitionSystem.Reachable.of_init fun _ => rfl
    have hmade : constructN bits storage (List.replicate (2 ^ bits) (default : α)) =
        some ((empty storage).become bits (List.replicate (2 ^ bits) default)) := by
      rw [constructN, if_neg]
      rw [hlen]
      omega
    obtain ⟨-, -, hsafe⟩ := (h _ hinit).2 _ _ _
      (.made (i := 0) (show (fun _ => none : World α) 0 = none from rfl) hmade)
      fun t ht => Option.some.inj ht ▸ hstorage
    have hlive := (hsafe 0 _ (Function.update_self ..)).live 0
    have hpos : 0 < 2 ^ bits := Nat.two_pow_pos bits
    -- the stored size is none at all, and the first element is there
    simp only [Static.become, hlen, Nat.mod_self, if_pos hpos, Nat.lt_irrefl, iff_false,
      List.getElem?_replicate_of_lt hpos] at hlive
    exact hlive rfl
  · intro hTypes w hw
    have hsound := sound_of_reachable hTypes hw
    refine ⟨fun i s hs => (hsound i s hs).1, fun e threw w' hstep hmade => ?_⟩
    have hends := hstep.ends hsound fun storage hs => hTypes storage (hmade storage hs)
    exact ⟨hends.threw_iff, hends.unchanged, fun i s hs => (hends.sound i s hs).1⟩

/-- **Three hundred elements in eight bits.** A static vector with room for them is made of
as many, and the size it stores is forty-four. -/
theorem three_hundred_in_eight_bits :
    ∃ s : Static ℕ,
      (system 8 (· = ⟨300, 0⟩)).Reachable (Function.update (fun _ => none) 0 (some s)) ∧
      s.mSize = 44 ∧ (∀ i < 300, (s.cells i).isSome) ∧ ¬ s.Safe := by
  have hlen : (List.replicate 300 7).length = 300 := List.length_replicate
  have hmade : constructN 8 ⟨300, 0⟩ (List.replicate 300 7) =
      some ((empty ⟨300, 0⟩).become 8 (List.replicate 300 7)) := by
    rw [constructN, hlen, if_neg (Nat.lt_irrefl 300)]
  have hlive : ∀ i < 300, (((empty ⟨300, 0⟩).become 8 (List.replicate 300 7)).cells i).isSome := by
    intro i hi
    simp only [Static.become, hlen, if_pos hi, List.getElem?_replicate_of_lt hi, Option.isSome_some]
  have hsize : ((empty ⟨300, 0⟩).become 8 (List.replicate 300 7)).mSize = 44 := by
    show (List.replicate 300 7).length % 2 ^ 8 = 44
    rw [hlen]
    decide
  refine ⟨_, ?_, hsize, hlive, fun hsafe => ?_⟩
  · refine (TransitionSystem.Reachable.of_init fun _ => rfl).step
      ⟨⟨false, .made (i := 0) (show (fun _ => none : World ℕ) 0 = none from rfl) hmade⟩, ?_⟩
    exact fun t ht => (Option.some.inj ht).symm
  · have hlt := (hsafe.live 299).mp (hlive 299 (by decide))
    rw [hsize] at hlt
    exact absurd hlt (by decide)

end Runs

end StaticVector
