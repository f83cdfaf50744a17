import BoostContainer.Flat.FlatMove
import BoostContainer.Tree.TreeMove

/-!
# Ordered containers that were moved from

An ordered container is moved between allocators that are not equal in four
ways: a tree of nodes or a flat tree, by move assignment or by the move
constructor with an allocator. What is asked is the same of all: the sequence
arrives, and the source is an ordered container still, of whatever its elements
are now. A move may leave anything in an element. Only the assignment of a flat
tree clears the source, so the others keep the order only where what is left of
the elements happens to be in order.
-/

namespace MovedFrom

open Tree (Env State Trees)

variable {κ α : Type}

/-- How a container is moved. -/
inductive Route
  | nodeAssign
  | nodeConstruct
  | flatAssign
  | flatConstruct

/-- **What is left of a container**, and what it does. -/
structure Container (κ α : Type) where
  elements : List α
  find : κ → Option ℕ
  insert : α → List α → Prop

/-- A tree of nodes, in some state. -/
def Container.ofTree (e : Env κ α) (find : List α → κ → Option ℕ) (unique : Bool) (t : State α)
    (x : ℕ) : Container κ α where
  elements := t.values x
  find := find (t.values x)
  insert v m := ∃ u, Tree.insertValue e unique x v t = .done () u ∧ u.values x = m

/-- A flat tree with some elements. -/
def Container.ofFlat (t : FlatTree κ α) (unique : Bool) : Container κ α where
  elements := t.seq
  find := t.findAt
  insert v m := m = t.inserted unique v

/-- **The moves between allocators that are not equal**: the elements of the source, those
of the destination, and the source afterwards. -/
inductive Moves (c : Compare κ) (e : Env κ α) (find : List α → κ → Option ℕ) (unique : Bool) :
    Route → List α → List α → Container κ α → Prop
  | nodeAssign {s t : State α} {h x : ℕ} (trees : Trees s h x)
      (unequal : s.alloc h ≠ s.alloc x)
      (run : Tree.moveAssign e h false false x s = .done () t) :
      Moves c e find unique .nodeAssign (s.values x) (t.values h)
        (Container.ofTree e find unique t x)
  | nodeConstruct {s t : State α} {h a x : ℕ} (trees : Trees s h x) (other : h ≠ x)
      (new : s.icont h = []) (idle : s.otherTree = []) (unequal : a ≠ s.alloc x)
      (run : Tree.moveConstruct e h a x s = .done () t) :
      Moves c e find unique .nodeConstruct (s.values x) (t.values h)
        (Container.ofTree e find unique t x)
  | flatAssign (a : Vector.Allocation) (v x : Vector.Contents α) :
      Moves c e find unique .flatAssign x.elements
        (Vector.moveAssign a false e.moved v x).1.elements
        (Container.ofFlat ⟨c, e.keyOf, (Vector.moveAssign a false e.moved v x).2.elements⟩ unique)
  | flatConstruct (a : Vector.Allocation) (x : Vector.Contents α) :
      Moves c e find unique .flatConstruct x.elements
        (Vector.moveConstruct a false e.moved x).1.elements
        (Container.ofFlat ⟨c, e.keyOf, (Vector.moveConstruct a false e.moved x).2.elements⟩ unique)

/-- **What is asked of a move**: the sequence arrives, both containers are in order, and the
source acts as the set, or multiset, of its elements. -/
structure StaysValid (c : Compare κ) (key : α → κ) (unique : Bool) (l ys : List α)
    (x : Container κ α) : Prop where
  arrives : ys = l
  dest : (c.onKey key).InOrder unique ys
  source : (c.onKey key).InOrder unique x.elements
  acts : c.ActsAs key unique x.elements x.find x.insert

variable {c : Compare κ} {e : Env κ α} {find : List α → κ → Option ℕ} {unique : Bool}
  {l : List α} {s t : State α} {h x : ℕ}

/-- What is left in the nodes decides. -/
theorem staysValid_ofTree (hsearch : e.Searches c find)
    (hl : (c.onKey e.keyOf).InOrder unique (s.values x)) (m : Tree.MovedFrom e s h x t) :
    StaysValid c e.keyOf unique (s.values x) (t.values h) (Container.ofTree e find unique t x)
      ↔ (c.onKey e.keyOf).InOrder unique ((s.values x).map e.moved) := by
  rw [← m.source]
  refine ⟨fun v => v.source, fun hs => ⟨m.values, ?_, hs, Tree.actsAs hsearch hs m.live⟩⟩
  rw [m.values]
  exact hl

/-- What is left in the vector decides. -/
theorem staysValid_ofFlat (key : α → κ) {m : List α} (hl : (c.onKey key).InOrder unique l) :
    StaysValid c key unique l l (Container.ofFlat ⟨c, key, m⟩ unique)
      ↔ (c.onKey key).InOrder unique m :=
  ⟨fun v => v.source, fun hm => ⟨rfl, hl, hm, FlatTree.InOrder.actsAs (t := ⟨c, key, m⟩) hm⟩⟩

/-! ## Searches there are -/

/-- The first free address among some. -/
def firstFree (used : ℕ → Bool) : ℕ → Option {p : ℕ // used p = false}
  | 0 => none
  | n + 1 => if hfree : used n = false then some ⟨n, hfree⟩ else firstFree used n

/-- **Elements that are searched like those of a flat tree.** -/
def searching (c : Compare κ) (keyOf : α → κ) (moved : α → α) : Env κ α where
  throws _ := false
  node used := firstFree used 100
  visit l := ⟨l, List.Perm.refl l⟩
  moved := moved
  torn v := v
  keyOf := keyOf
  check _ l _ k :=
    let prepared := (FlatTree.mk c keyOf l).privInsertUniquePrepare k
    if prepared.2 then .absent (Fin.ofNat _ prepared.1)
    else if hlt : prepared.1 < l.length then .present ⟨prepared.1, hlt⟩
    else .threw
  insertEqual _ l _ v := some (Fin.ofNat _ ((FlatTree.mk c keyOf l).upperBound (keyOf v)))

theorem insertIdx_eq (l : List α) (v : α) {i : ℕ} (hi : i ≤ l.length) :
    l.insertIdx i v = l.take i ++ v :: l.drop i := by
  induction i generalizing l with
  | zero => rfl
  | succ i ih =>
    cases l with
    | nil => exact absurd hi (Nat.not_succ_le_zero i)
    | cons x l =>
      rw [List.insertIdx_succ_cons, ih l (Nat.le_of_succ_le_succ hi)]
      rfl

theorem searching_searches (c : Compare κ) (keyOf : α → κ) (moved : α → α) :
    (searching c keyOf moved).Searches c fun l => (FlatTree.mk c keyOf l).findAt where
  found l hl := by
    have h : (FlatTree.mk c keyOf l).InOrder false := hl
    exact h.actsAs.found
  missing l hl := by
    have h : (FlatTree.mk c keyOf l).InOrder false := hl
    exact h.actsAs.absent
  present n l hl hint k i hc := by
    have hs : (FlatTree.mk c keyOf l).SortedUnique := hl
    dsimp only [searching] at hc
    split at hc
    · cases hc
    · next hend =>
      rw [FlatTree.privInsertUniquePrepare, FlatTree.privInsertUniquePrepareIn, Bool.or_eq_true,
        beq_iff_eq, not_or, Bool.not_eq_true] at hend
      split at hc
      · cases hc
        exact (hs.sorted.equiv_lowerBound hend.1 hend.2).2
      · cases hc
  absent n l hl hint v i hc := by
    have hs : (FlatTree.mk c keyOf l).SortedUnique := hl
    have hle := (hs.sorted.isPartitionPoint_lowerBound (keyOf v)).le_last
    dsimp only [searching] at hc
    split at hc
    · next hend =>
      rw [FlatTree.privInsertUniquePrepare, FlatTree.privInsertUniquePrepareIn, Bool.or_eq_true,
        beq_iff_eq] at hend
      cases hc
      have hi : (Fin.ofNat (l.length + 1) ((FlatTree.mk c keyOf l).lowerBound (keyOf v))).1
          = (FlatTree.mk c keyOf l).lowerBound (keyOf v) :=
        Nat.mod_eq_of_lt (Nat.lt_succ_of_le hle)
      have hcommit := hs.insertCommit (v := v) hend
      show (c.onKey keyOf).StrictlySorted (l.insertIdx
        (Fin.ofNat (l.length + 1) ((FlatTree.mk c keyOf l).lowerBound (keyOf v))).1 v)
      rw [hi, insertIdx_eq l v hle]
      exact hcommit
    · split at hc <;> cases hc
  equal n l hl hint v i hc := by
    have hs : (FlatTree.mk c keyOf l).Sorted := hl
    have hle : (FlatTree.mk c keyOf l).upperBound (keyOf v) ≤ l.length :=
      (hs.isPartitionPoint_privUpperBound (keyOf v) (Nat.zero_le _) le_rfl).le_last
    cases hc
    have hi : (Fin.ofNat (l.length + 1) ((FlatTree.mk c keyOf l).upperBound (keyOf v))).1
        = (FlatTree.mk c keyOf l).upperBound (keyOf v) :=
      Nat.mod_eq_of_lt (Nat.lt_succ_of_le hle)
    show (c.onKey keyOf).Sorted (l.insertIdx
      (Fin.ofNat (l.length + 1) ((FlatTree.mk c keyOf l).upperBound (keyOf v))).1 v)
    rw [hi, insertIdx_eq l v hle]
    exact hs.inserted v

/-! ## The four moves -/

/-- **A move leaves a valid source** if it clears it, or if what it leaves of the elements is
in order. -/
theorem staysValid_iff (hsearch : e.Searches c find) {r : Route} {ys : List α}
    {left : Container κ α} (hl : (c.onKey e.keyOf).InOrder unique l)
    (hmoves : Moves c e find unique r l ys left) :
    StaysValid c e.keyOf unique l ys left
      ↔ r = .flatAssign ∨ (c.onKey e.keyOf).InOrder unique (l.map e.moved) := by
  cases hmoves with
  | nodeAssign trees unequal run =>
    have hmoved := Tree.moveAssign_movedFrom e trees unequal
    rw [run] at hmoved
    rw [staysValid_ofTree hsearch hl hmoved]
    exact (or_iff_right (fun heq => nomatch heq)).symm
  | nodeConstruct trees other new idle unequal run =>
    have hmoved := Tree.moveConstruct_movedFrom e trees other idle unequal
    rw [run] at hmoved
    rw [staysValid_ofTree hsearch hl hmoved]
    exact (or_iff_right (fun heq => nomatch heq)).symm
  | flatAssign a v x =>
    rw [Vector.moveAssign, if_neg Bool.false_ne_true]
    dsimp only
    rw [Vector.uninitializedMoveSource_eq, staysValid_ofFlat e.keyOf hl]
    exact iff_of_true (Compare.inOrder_nil _ _) (Or.inl rfl)
  | flatConstruct a x =>
    rw [Vector.moveConstruct, if_neg Bool.false_ne_true]
    dsimp only
    rw [Vector.uninitializedMoveSource_eq, staysValid_ofFlat e.keyOf hl]
    exact (or_iff_right (fun heq => nomatch heq)).symm

/-- Two keys, of elements that are zero once they were moved. -/
theorem staysValid_iff_zeros :
    let e := searching (Compare.stdLess ℕ) id fun _ => 0
    let moved := Vector.moveConstruct Vector.Allocation.exact false e.moved ⟨[1, 2], 2⟩
    StaysValid (Compare.stdLess ℕ) e.keyOf true [1, 2] moved.1.elements
        (Container.ofFlat ⟨Compare.stdLess ℕ, e.keyOf, moved.2.elements⟩ true)
      ↔ Route.flatConstruct = .flatAssign
        ∨ ((Compare.stdLess ℕ).onKey e.keyOf).InOrder true ([1, 2].map e.moved) := by
  intro e moved
  have hl : ((Compare.stdLess ℕ).onKey e.keyOf).InOrder true [1, 2] := by
    show ([1, 2] : List ℕ).Pairwise (fun a b => decide (a < b) = true)
    decide
  exact staysValid_iff (searching_searches (Compare.stdLess ℕ) id fun _ => 0) hl
    (Moves.flatConstruct Vector.Allocation.exact ⟨[1, 2], 2⟩)

/-- A flat set of two keys, moved to another allocator, holds two equal keys. -/
theorem moved_from_holds_duplicates :
    ∃ ys left, Moves (Compare.stdLess ℕ) (searching (Compare.stdLess ℕ) id fun _ => 0)
        (fun l => (FlatTree.mk (Compare.stdLess ℕ) id l).findAt) true .flatConstruct [1, 2] ys left
      ∧ ¬ StaysValid (Compare.stdLess ℕ) id true [1, 2] ys left := by
  refine ⟨_, _, Moves.flatConstruct Vector.Allocation.exact ⟨[1, 2], 2⟩, fun v => ?_⟩
  have hzeros : ([0, 0] : List ℕ).Pairwise (fun a b => decide (a < b) = true) := v.source
  revert hzeros
  decide

end MovedFrom
