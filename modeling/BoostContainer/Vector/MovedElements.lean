import Mathlib

/-!
# Destructors that are skipped after a move

`has_trivial_destructor_after_move` is true for a vector or a list when it is for the
allocator and its pointer. A vector of such containers then moves them and does not
destroy what was moved from, so that whatever is left in them is lost: a buffer, or
nodes.

A container whose resources are taken is empty-handed. One that is moved element by
element is not: the vector is cleared, which keeps the buffer, and the list keeps its
nodes. Which of the two it is depends on the allocators. Besides, the erasure of a
range skips the destructors of elements that nothing was moved from, where fewer
elements come after the range than are in it.
-/

namespace MovedElements

/-! ## The containers -/

/-- **What the traits say of an allocator**: `propagate_on_container_move_assignment`,
`is_always_equal`, `is_partially_propagable` with `storage_is_unpropagable`, and `==`;
and what is left of an element that was moved from. -/
structure Traits (A R T : Type) where
  propagate : Bool
  alwaysEqual : Bool
  partiallyPropagable : Bool
  unpropagable : A → Option R → Bool
  equal : A → A → Bool
  equal_of_alwaysEqual : alwaysEqual = true → ∀ a b, equal a b = true
  moved : T → T

/-- A vector; no buffer is `none`. -/
structure Vec (A R T : Type) where
  alloc : A
  start : Option R
  capacity : ℕ
  elems : List T

/-- A list, with its nodes and their values. -/
structure Lst (A R T : Type) where
  alloc : A
  nodes : List (R × T)

section Containers

variable {A R T : Type}

/-- What is left of a vector whose buffer was taken. -/
def Vec.emptied (x : Vec A R T) : Vec A R T := { x with start := none, capacity := 0, elems := [] }

/-- `is_propagable_from`. -/
def isPropagableFrom (τ : Traits A R T) (propagateAllocator : Bool) (fromAlloc : A) (p : Option R)
    (toAlloc : A) : Bool :=
  (!τ.partiallyPropagable || !τ.unpropagable fromAlloc p)
    && (propagateAllocator || τ.alwaysEqual || τ.equal fromAlloc toAlloc)

/-- The move constructor. -/
def Vec.moveConstruct (x : Vec A R T) : Vec A R T × Vec A R T := (x, x.emptied)

/-- The move constructor with an allocator; `fresh` is a buffer it grants. -/
def Vec.moveConstructWith (τ : Traits A R T) (fresh : ℕ → R) (a : A) (x : Vec A R T) :
    Vec A R T × Vec A R T :=
  if isPropagableFrom τ false x.alloc x.start a then ({ x with alloc := a }, x.emptied)
  else (⟨a, if x.elems.length = 0 then none else some (fresh 0), x.elems.length, x.elems⟩,
    { x with elems := x.elems.map τ.moved })

/-- `assign` of a range that can be counted. -/
def Vec.assign (fresh : ℕ → R) (d : Vec A R T) (values : List T) : Vec A R T :=
  if d.capacity < values.length then
    { d with start := some (fresh 0), capacity := values.length, elems := values }
  else { d with elems := values }

/-- **`priv_move_assign`** of a vector. -/
def Vec.moveAssign (τ : Traits A R T) (fresh : ℕ → R) (d x : Vec A R T) :
    Vec A R T × Vec A R T :=
  let r := if (τ.alwaysEqual || (τ.propagate && !τ.partiallyPropagable))
      || isPropagableFrom τ τ.propagate x.alloc x.start d.alloc
    then ({ x with alloc := d.alloc }, x.emptied)
    -- The source is cleared, and keeps its buffer.
    else (d.assign fresh x.elems, { x with elems := [] })
  ({ r.1 with alloc := if τ.propagate then x.alloc else d.alloc }, r.2)

/-- The move constructor. -/
def Lst.moveConstruct (x : Lst A R T) : Lst A R T × Lst A R T := (x, { x with nodes := [] })

/-- The move constructor with an allocator. -/
def Lst.moveConstructWith (τ : Traits A R T) (fresh : ℕ → R) (a : A) (x : Lst A R T) :
    Lst A R T × Lst A R T :=
  if τ.equal a x.alloc then ({ x with alloc := a }, { x with nodes := [] })
  else (⟨a, x.nodes.mapIdx (fun i c => (fresh i, c.2))⟩,
    { x with nodes := x.nodes.map (fun c => (c.1, τ.moved c.2)) })

/-- `assign` of a range: the nodes that are there are reused. -/
def Lst.assign (fresh : ℕ → R) (d : Lst A R T) (values : List T) : Lst A R T :=
  { d with nodes := values.mapIdx (fun i v => (((d.nodes[i]?).map Prod.fst).getD (fresh i), v)) }

/-- **`priv_move_assign`** of a list. -/
def Lst.moveAssign (τ : Traits A R T) (fresh : ℕ → R) (d x : Lst A R T) :
    Lst A R T × Lst A R T :=
  if (τ.propagate || τ.alwaysEqual) || τ.equal d.alloc x.alloc then
    (⟨if τ.propagate then x.alloc else d.alloc, x.nodes⟩, { x with nodes := [] })
  else (d.assign fresh (x.nodes.map Prod.snd),
    { x with nodes := x.nodes.map (fun c => (c.1, τ.moved c.2)) })

end Containers

/-! ## What is asked of a container -/

/-- **A kind of container**: what it owns, how it is moved, and whether a move takes what
it owns, with the allocator of the destination. -/
structure Kind (A R C : Type) where
  owns : C → List R
  alloc : C → A
  construct : C → C × C
  constructWith : (ℕ → R) → A → C → C × C
  assign : (ℕ → R) → C → C → C × C
  takesWith : A → C → Bool
  takes : A → C → Bool

/-- **What a move does** to the source, and to the allocators. -/
structure Kind.Lawful {A R C : Type} (K : Kind A R C) : Prop where
  construct : ∀ x, K.owns (K.construct x).2 = []
  constructWith : ∀ fresh a x,
    K.owns (K.constructWith fresh a x).2 = if K.takesWith a x then [] else K.owns x
  assign : ∀ fresh d x,
    K.owns (K.assign fresh d x).2 = if K.takes (K.alloc d) x then [] else K.owns x
  takes_dest : ∀ fresh d x y,
    K.takes (K.alloc (K.assign fresh d x).1) y = K.takes (K.alloc d) y
  alloc_source : ∀ fresh d x, K.alloc (K.assign fresh d x).2 = K.alloc x

section Kinds

variable {A R T : Type} (τ : Traits A R T)

/-- Vectors. -/
def vecKind : Kind A R (Vec A R T) where
  owns x := x.start.toList
  alloc := Vec.alloc
  construct := Vec.moveConstruct
  constructWith := Vec.moveConstructWith τ
  assign := Vec.moveAssign τ
  takesWith a x := isPropagableFrom τ false x.alloc x.start a
  takes a x := (τ.alwaysEqual || (τ.propagate && !τ.partiallyPropagable))
    || isPropagableFrom τ τ.propagate x.alloc x.start a

/-- Lists. -/
def lstKind : Kind A R (Lst A R T) where
  owns x := x.nodes.map Prod.fst
  alloc := Lst.alloc
  construct := Lst.moveConstruct
  constructWith := Lst.moveConstructWith τ
  assign := Lst.moveAssign τ
  takesWith a x := τ.equal a x.alloc
  takes a x := (τ.propagate || τ.alwaysEqual) || τ.equal a x.alloc

section Laws

variable {τ} {fresh : ℕ → R} {a : A}

theorem Vec.start_moveConstructWith (x : Vec A R T) :
    (Vec.moveConstructWith τ fresh a x).2.start.toList
      = if isPropagableFrom τ false x.alloc x.start a then [] else x.start.toList := by
  rw [Vec.moveConstructWith]
  split <;> rfl

theorem Vec.start_moveAssign (d x : Vec A R T) :
    (Vec.moveAssign τ fresh d x).2.start.toList
      = if (τ.alwaysEqual || (τ.propagate && !τ.partiallyPropagable))
          || isPropagableFrom τ τ.propagate x.alloc x.start d.alloc
        then [] else x.start.toList := by
  simp only [Vec.moveAssign]
  split <;> rfl

theorem Lst.nodes_moveConstructWith (x : Lst A R T) :
    (Lst.moveConstructWith τ fresh a x).2.nodes.map Prod.fst
      = if τ.equal a x.alloc then [] else x.nodes.map Prod.fst := by
  rw [Lst.moveConstructWith]
  split
  · rfl
  · exact List.map_map

theorem Lst.nodes_moveAssign (d x : Lst A R T) :
    (Lst.moveAssign τ fresh d x).2.nodes.map Prod.fst
      = if (τ.propagate || τ.alwaysEqual) || τ.equal d.alloc x.alloc
        then [] else x.nodes.map Prod.fst := by
  rw [Lst.moveAssign]
  split
  · rfl
  · exact List.map_map

end Laws

theorem vecKind_lawful : (vecKind τ).Lawful where
  construct _ := rfl
  constructWith _ _ := Vec.start_moveConstructWith
  assign _ := Vec.start_moveAssign
  takes_dest fresh d x y := by
    simp only [vecKind, Vec.moveAssign, isPropagableFrom]
    cases τ.propagate <;> simp
  alloc_source fresh d x := by
    simp only [vecKind, Vec.moveAssign]
    split <;> rfl

theorem lstKind_lawful : (lstKind τ).Lawful where
  construct _ := rfl
  constructWith _ _ := Lst.nodes_moveConstructWith
  assign _ := Lst.nodes_moveAssign
  takes_dest fresh d x y := by
    simp only [lstKind, Lst.moveAssign, Lst.assign]
    cases hp : τ.propagate
    · split <;> rfl
    · rfl
  alloc_source fresh d x := by
    simp only [lstKind, Lst.moveAssign]
    split <;> rfl

end Kinds

/-! ## A vector of containers -/

section Vectors

variable {A R C : Type} (K : Kind A R C) (fresh : ℕ → ℕ → R)

/-- `move(last, last + n, first)`: the elements are assigned one after the other. -/
def moveRange (last first : ℕ) : ℕ → (ℕ → C) → ℕ → C
  | 0, s => s
  | n + 1, s =>
    let s := moveRange last first n s
    let r := K.assign (fresh n) (s (first + n)) (s (last + n))
    Function.update (Function.update s (first + n) r.1) (last + n) r.2

/-- **`erase(position)`** of `n` elements: what is left behind without a destructor. -/
def erase (trivialDctrAfterMove : Bool) (n position : ℕ) (s : ℕ → C) : List C :=
  let s := moveRange K fresh (position + 1) position (n - (position + 1)) s
  if !trivialDctrAfterMove || decide (position = n - 1) then [] else [s (n - 1)]

/-- **`erase(first, last)`**, likewise. -/
def eraseRange (trivialDctrAfterMove : Bool) (n first last : ℕ) (s : ℕ → C) : List C :=
  if first = last then []
  else
    let t := moveRange K fresh last first (n - last) s
    let newLast := first + (n - last)
    if !trivialDctrAfterMove || decide (n = last) then []
    else (List.range' newLast (n - newLast)).map t

/-- **`priv_insert_forward_range_new_allocation`**: the elements of the old buffer, from
which those of the new one were made. -/
def insertNewAllocation (trivialDctrAfterMove : Bool) (n : ℕ) (s : ℕ → C) : List C :=
  if !trivialDctrAfterMove then [] else (List.range n).map (fun i => (K.construct (s i)).2)

/-- **A use of a move**: of a container, or of the elements of a vector. -/
inductive Use (A C : Type) where
  | construct (x : C)
  | constructWith (a : A) (x : C)
  | assign (d x : C)
  | erase (n position : ℕ) (s : ℕ → C)
  | eraseRange (n first last : ℕ) (s : ℕ → C)
  | insertNewAllocation (n : ℕ) (s : ℕ → C)

/-- The positions are in the vector. -/
def Use.Valid : Use A C → Prop
  | erase n position _ => position < n
  | eraseRange n first last _ => first ≤ last ∧ last ≤ n
  | _ => True

/-- **What need not be destroyed** after the use. -/
def Use.leaves : Use A C → List C
  | construct x => [(K.construct x).2]
  | constructWith a x => [(K.constructWith (fresh 0) a x).2]
  | assign d x => [(K.assign (fresh 0) d x).2]
  | erase n position s => MovedElements.erase K fresh true n position s
  | eraseRange n first last s => MovedElements.eraseRange K fresh true n first last s
  | insertNewAllocation n s => MovedElements.insertNewAllocation K true n s

/-- **Nothing is lost**: what need not be destroyed owns nothing. -/
def Use.LosesNothing (u : Use A C) : Prop := ∀ c ∈ u.leaves K fresh, K.owns c = []

/-- What a container owns is not taken from it by a move assignment. -/
def Kept (a : A) (x : C) : Prop := K.takes a x = false ∧ K.owns x ≠ []

/-- **Where something is lost**: it is not taken; or it is in a range that is erased, and
nothing is moved over it or from it. -/
def Use.Slips : Use A C → Prop
  | construct _ => False
  | constructWith a x => K.takesWith a x = false ∧ K.owns x ≠ []
  | assign d x => Kept K (K.alloc d) x
  | erase n position s => position + 1 < n ∧ Kept K (K.alloc (s (n - 2))) (s (n - 1))
  | eraseRange n first last s => first < last ∧ last < n
    ∧ ∃ j, first + (n - last) ≤ j ∧ j < n
      ∧ ((j < last ∧ K.owns (s j) ≠ [])
        ∨ (last ≤ j ∧ Kept K (K.alloc (s (j - (last - first)))) (s j)))
  | insertNewAllocation _ _ => False

variable {K fresh} {s : ℕ → C} {first last n j : ℕ}

/-- **What the elements are after some have been moved.** -/
structure Moving (K : Kind A R C) (first last n : ℕ) (s t : ℕ → C) : Prop where
  /-- The allocators are the same as far as later moves can tell. -/
  takes : ∀ j y, K.takes (K.alloc (t j)) y = K.takes (K.alloc (s j)) y
  rest : ∀ j, last + n ≤ j → t j = s j
  between : ∀ j, first + n ≤ j → j < last → t j = s j
  moved : ∀ j, last ≤ j → first + n ≤ j → j < last + n →
    K.owns (t j) = if K.takes (K.alloc (s (j - (last - first)))) (s j) then [] else K.owns (s j)

theorem moving_moveRange (hK : K.Lawful) (hlt : first < last) (s : ℕ → C) (n : ℕ) :
    Moving K first last n s (moveRange K fresh last first n s) := by
  induction n with
  | zero => exact ⟨fun _ _ => rfl, fun _ _ => rfl, fun _ _ _ => rfl, fun j _ _ _ => by omega⟩
  | succ n ih =>
    have hsrc : moveRange K fresh last first n s (last + n) = s (last + n) := ih.rest _ le_rfl
    have hdest := ih.takes (first + n)
    simp only [moveRange]
    generalize moveRange K fresh last first n s = t at ih hsrc hdest ⊢
    have hne : first + n ≠ last + n := by omega
    refine ⟨fun j y => ?_, fun j hj => ?_, fun j hj hj' => ?_, fun j hj hj' hj'' => ?_⟩
    · by_cases hjl : j = last + n
      · rw [hjl, Function.update_self, hK.alloc_source, ih.takes]
      · rw [Function.update_of_ne hjl]
        by_cases hjf : j = first + n
        · rw [hjf, Function.update_self, hK.takes_dest, hdest]
        · rw [Function.update_of_ne hjf, ih.takes]
    · rw [Function.update_of_ne (by omega), Function.update_of_ne (by omega)]
      exact ih.rest j (by omega)
    · rw [Function.update_of_ne (by omega), Function.update_of_ne (by omega)]
      exact ih.between j (by omega) hj'
    · by_cases hjl : j = last + n
      · have hback : last + n - (last - first) = first + n := by omega
        rw [hjl, Function.update_self, hK.assign, hdest, hsrc, hback]
      · rw [Function.update_of_ne hjl, Function.update_of_ne (by omega)]
        exact ih.moved j hj (by omega) (by omega)

/-- Whether a moved element keeps something. -/
theorem Moving.owns_eq_nil_iff {t : ℕ → C} (h : Moving K first last n s t) (hj : last ≤ j)
    (hj' : first + n ≤ j) (hj'' : j < last + n) :
    K.owns (t j) = [] ↔ ¬ Kept K (K.alloc (s (j - (last - first)))) (s j) := by
  rw [h.moved j hj hj' hj'', Kept]
  split
  · next ht => simp [ht]
  · next ht =>
    rw [Bool.not_eq_true] at ht
    simp [ht]

theorem erase_iff (hK : K.Lawful) {position : ℕ} (hp : position < n) :
    (Use.erase n position s : Use A C).LosesNothing K fresh
      ↔ ¬ (Use.erase n position s : Use A C).Slips K := by
  simp only [Use.LosesNothing, Use.leaves, Use.Slips, MovedElements.erase, Bool.not_true,
    Bool.false_or, decide_eq_true_eq]
  split
  · next heq =>
    refine iff_of_true (fun c hc => absurd hc List.not_mem_nil) ?_
    rintro ⟨hlt, -⟩
    omega
  · next hne =>
    have hmoving : Moving K position (position + 1) (n - (position + 1)) s
        (moveRange K fresh (position + 1) position (n - (position + 1)) s) :=
      moving_moveRange hK (Nat.lt_succ_self position) s (n - (position + 1))
    have hback : n - 1 - (position + 1 - position) = n - 2 := by omega
    rw [List.forall_mem_singleton,
      hmoving.owns_eq_nil_iff (j := n - 1) (by omega) (by omega) (by omega), hback]
    exact not_congr (and_iff_right (by omega)).symm

theorem eraseRange_iff (hK : K.Lawful) (hvalid : first ≤ last ∧ last ≤ n) :
    (Use.eraseRange n first last s : Use A C).LosesNothing K fresh
      ↔ ¬ (Use.eraseRange n first last s : Use A C).Slips K := by
  obtain ⟨hle, hle'⟩ := hvalid
  simp only [Use.LosesNothing, Use.leaves, Use.Slips, MovedElements.eraseRange, Bool.not_true,
    Bool.false_or, decide_eq_true_eq]
  split
  · next heq =>
    refine iff_of_true (fun c hc => absurd hc List.not_mem_nil) ?_
    rintro ⟨hlt, -⟩
    omega
  split
  · next heq =>
    refine iff_of_true (fun c hc => absurd hc List.not_mem_nil) ?_
    rintro ⟨-, hlt, -⟩
    omega
  · next hne hne' =>
    have hlt : first < last := by omega
    have hmoving : Moving K first last (n - last) s (moveRange K fresh last first (n - last) s) :=
      moving_moveRange hK hlt s (n - last)
    have hslot : ∀ j, first + (n - last) ≤ j → j < n →
        (K.owns (moveRange K fresh last first (n - last) s j) = []
          ↔ ¬ ((j < last ∧ K.owns (s j) ≠ [])
            ∨ (last ≤ j ∧ Kept K (K.alloc (s (j - (last - first)))) (s j)))) := by
      intro j hj hj'
      by_cases hjl : j < last
      · rw [hmoving.between j hj hjl]
        simp only [hjl, true_and, not_le.mpr hjl, false_and, or_false, ne_eq, not_not]
      · rw [hmoving.owns_eq_nil_iff (by omega) hj (by omega)]
        simp only [hjl, false_and, false_or, not_lt.mp hjl, true_and]
    simp only [List.mem_map, List.mem_range'_1, forall_exists_index, and_imp,
      forall_apply_eq_imp_iff₂]
    refine ⟨?_, ?_⟩
    · rintro h ⟨-, -, j, hj, hj', hslip⟩
      exact (hslot j hj hj').mp (h _ j hj (by omega) rfl) hslip
    · rintro h c j hj hj' rfl
      exact (hslot j hj (by omega)).mpr fun hslip =>
        h ⟨hlt, by omega, j, hj, by omega, hslip⟩

/-- **Nothing is lost unless a use slips.** -/
theorem losesNothing_iff (hK : K.Lawful) (u : Use A C) (hvalid : u.Valid) :
    u.LosesNothing K fresh ↔ ¬ u.Slips K := by
  cases u with
  | construct x =>
    refine iff_of_true ?_ id
    simp only [Use.LosesNothing, Use.leaves, List.forall_mem_singleton]
    exact hK.construct x
  | constructWith a x =>
    simp only [Use.LosesNothing, Use.leaves, Use.Slips, List.forall_mem_singleton,
      hK.constructWith]
    cases K.takesWith a x <;> simp
  | assign d x =>
    simp only [Use.LosesNothing, Use.leaves, Use.Slips, List.forall_mem_singleton, hK.assign, Kept]
    cases K.takes (K.alloc d) x <;> simp
  | erase n position s => exact erase_iff hK hvalid
  | eraseRange n first last s => exact eraseRange_iff hK hvalid
  | insertNewAllocation n s =>
    refine iff_of_true ?_ id
    simp only [Use.LosesNothing, Use.leaves, insertNewAllocation, Bool.not_true, Bool.false_eq_true,
      if_false, List.mem_map]
    rintro c ⟨i, -, rfl⟩
    exact hK.construct (s i)

end Vectors

/-! ## Both kinds -/

/-- **A moved vector or list owns nothing, and nothing is lost of a vector of them, unless
a use slips.** -/
theorem skippedDestructors_iff {A R T : Type} (τ : Traits A R T) (fresh : ℕ → ℕ → R) :
    (∀ u : Use A (Vec A R T), u.Valid → (u.LosesNothing (vecKind τ) fresh ↔ ¬ u.Slips (vecKind τ)))
    ∧ ∀ u : Use A (Lst A R T), u.Valid →
        (u.LosesNothing (lstKind τ) fresh ↔ ¬ u.Slips (lstKind τ)) :=
  ⟨fun u hu => losesNothing_iff (vecKind_lawful τ) u hu,
    fun u hu => losesNothing_iff (lstKind_lawful τ) u hu⟩

/-- Allocators that do not propagate, and are equal where they are the same. -/
def sameEqual : Traits ℕ ℕ ℕ where
  propagate := false
  alwaysEqual := false
  partiallyPropagable := false
  unpropagable _ _ := false
  equal a b := a == b
  equal_of_alwaysEqual h := nomatch h
  moved := id

/-- Vectors of one element each, the last with another allocator. -/
def twoBuffers (j : ℕ) : Vec ℕ ℕ ℕ := ⟨if j = 1 then 9 else 0, some j, 1, [7]⟩

theorem losesNothing_twoBuffers :
    (Use.insertNewAllocation 2 twoBuffers : Use ℕ (Vec ℕ ℕ ℕ)).LosesNothing
      (vecKind sameEqual) (fun _ i => i + 5) :=
  ((skippedDestructors_iff sameEqual fun _ i => i + 5).1 (.insertNewAllocation 2 twoBuffers)
    trivial).mpr id

/-- **The first of two vectors is erased**, and the second is moved to its place. -/
theorem not_losesNothing_twoBuffers :
    ¬ ((∀ u : Use ℕ (Vec ℕ ℕ ℕ), u.Valid →
        u.LosesNothing (vecKind sameEqual) (fun _ i => i + 5))
      ∧ ∀ u : Use ℕ (Lst ℕ ℕ ℕ), u.Valid →
        u.LosesNothing (lstKind sameEqual) (fun _ i => i + 5)) := by
  rintro ⟨h, -⟩
  have hnil := h (.erase 2 0 twoBuffers) Nat.zero_lt_two _ List.mem_cons_self
  exact absurd hnil (by decide)

end MovedElements
