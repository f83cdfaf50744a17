import BoostContainer.Lib.SlotCells

/-!
# A vector and its buffer

A vector is a buffer, the number of its elements and the capacity of the
buffer; the elements live at its start, and what follows them is raw. The
holder of the buffer is the object of the programs, and an iterator is an
address.

Erasing moves the tail to the front of what is erased and destroys what is
left at the end. Where a destructor does nothing after a move, the code means
to save the calls, and looks only at whether there was a tail at all.
-/

open Slots

namespace Vector

/-- `vector_alloc_holder`: `m_start`, `m_size` and `m_capacity`. -/
structure Holder where
  start : ℕ
  size : ℕ
  capacity : ℕ

variable {α : Type*}

/-- `priv_raw_end` -/
def Holder.rawEnd (m : Holder) : ℕ := m.start + m.size

/-- The slots of the buffer. -/
def Holder.buffer (m : Holder) : Set ℕ := Set.Ico m.start (m.start + m.capacity)

/-- The slots with elements. -/
def Holder.elements (m : Holder) : Set ℕ := Set.Ico m.start m.rawEnd

/-- **A vector with given elements.** -/
structure Valid (e : Env α) (s : State Holder α) (xs : List α) : Prop where
  size_eq : s.object.size = xs.length
  size_le : s.object.size ≤ s.object.capacity
  owns : Owns e.trivialDestructor s s.object.buffer s.object s.object.buffer s.object.elements s
  holds : ∀ j < xs.length, s.valueAt (s.object.start + j) = xs[j]?

/-- The elements a vector counts, in order. -/
def Contains (s : State Holder α) (xs : List α) : Prop :=
  s.object.size = xs.length ∧ ∀ j < xs.length, s.valueAt (s.object.start + j) = xs[j]?

/-! ## Vectors made of lists -/

/-- A vector with the elements of a list, at address 1, and some room after them. -/
def ofList (xs : List α) (room : ℕ) : State Holder α :=
  State.start
    (fun p => if 1 ≤ p ∧ p < 1 + (xs.length + room) then some ⟨0, xs[p - 1]?⟩ else none)
    ⟨1, xs.length, xs.length + room⟩

theorem valid_ofList (e : Env α) (xs : List α) (room : ℕ) : Valid e (ofList xs room) xs := by
  have hheap : ∀ p, 1 ≤ p → p < 1 + (xs.length + room) →
      (ofList xs room).heap p = some ⟨0, xs[p - 1]?⟩ := fun p hp hp' => if_pos ⟨hp, hp'⟩
  refine ⟨rfl, Nat.le_add_right _ _, ⟨rfl, Heap.Exchange.refl _ _, ?_, ?_, ?_, ?_,
    fun _ _ => rfl⟩, fun j hj => ?_⟩
  · exact Set.Ico_subset_Ico le_rfl (Nat.add_le_add_left (Nat.le_add_right _ _) _)
  · rintro p ⟨hp, hp'⟩
    rw [hheap p hp hp']
    exact Option.some_ne_none _
  · rintro p ⟨hp, hp'⟩
    have hp₂ : p < 1 + xs.length := hp'
    have hp₁ : 1 ≤ p := hp
    rw [shape, hheap p hp (by omega), Option.map_some, List.getElem?_eq_getElem (by omega)]
    rfl
  · rintro - p ⟨hp, hp'⟩ hl
    have hp₁ : 1 ≤ p := hp
    have hout : xs.length ≤ p - 1 := by
      by_contra hlt
      exact hl ⟨hp, show p < 1 + xs.length by omega⟩
    rw [shape, hheap p hp hp', Option.map_some, List.getElem?_eq_none hout]
    rfl
  · show ((ofList xs room).heap (1 + j)).bind Slot.element = _
    rw [hheap _ (by omega) (by omega), Nat.add_sub_cancel_left]
    rfl

/-! ## Erasing -/

section Erase

variable (e : Env α) (trivialDctrAfterMove : Bool)

/-- `erase(position)` -/
def eraseAt (position : ℕ) : Prog (State Holder α) ℕ := do
  let m ← object
  copy e position (slots (position + 1) (m.rawEnd - (position + 1)))
  (if !trivialDctrAfterMove || position == m.rawEnd - 1 then destroy e (m.rawEnd - 1)
    else pure ())
  setObject fun m => { m with size := m.size - 1 }
  pure position

/-- `erase(first, last)`, of a range that is not empty. -/
def eraseNonempty (first last : ℕ) : Prog (State Holder α) Unit := do
  let m ← object
  copy e first (slots last (m.rawEnd - last))
  let newLast := first + (m.rawEnd - last)
  let n := m.rawEnd - newLast
  (if !trivialDctrAfterMove || m.rawEnd == last then destroyN e newLast n else pure ())
  setObject fun m => { m with size := m.size - n }

/-- `erase(first, last)` -/
def erase (first last : ℕ) : Prog (State Holder α) ℕ := do
  (if first ≠ last then eraseNonempty e trivialDctrAfterMove first last else pure ())
  pure first

end Erase

/-! ## What erasing leaves -/

variable {e : Env α} {trivialDctrAfterMove : Bool} {s t : State Holder α} {xs : List α}
  {i j n q : ℕ}

theorem Valid.contains (h : Valid e s xs) : Contains s xs := ⟨h.size_eq, h.holds⟩

theorem Valid.rawEnd_eq (h : Valid e s xs) : s.object.rawEnd = s.object.start + xs.length := by
  rw [Holder.rawEnd, h.size_eq]

theorem Valid.elements_eq (h : Valid e s xs) :
    s.object.elements = Set.Ico s.object.start (s.object.start + xs.length) := by
  rw [Holder.elements, h.rawEnd_eq]

/-- The slots the elements of a range moved away from are left to be destroyed: all
of them, or none. -/
def leftAlive (trivialDctrAfterMove : Bool) (m : Holder) (last newLast : ℕ) : Set ℕ :=
  if !trivialDctrAfterMove || m.rawEnd == last then Set.Ico m.start newLast else m.elements

/-- **Erasing a range, and the slots.** -/
theorem eraseNonempty_meets (h : Valid e s xs) (hij : i ≤ j) (hj : j ≤ xs.length) :
    Prog.Meets
      (Owns e.trivialDestructor s s.object.buffer s.object s.object.buffer s.object.elements)
      (eraseNonempty e trivialDctrAfterMove (s.object.start + i) (s.object.start + j))
      (fun _ => Owns e.trivialDestructor s s.object.buffer
        { s.object with size := xs.length - (j - i) } s.object.buffer
        (leftAlive trivialDctrAfterMove s.object (s.object.start + j)
          (s.object.start + (xs.length - (j - i)))))
      (fun _ => True) := by
  have hn : s.object.rawEnd - (s.object.start + i + (s.object.rawEnd - (s.object.start + j)))
      = j - i := by
    rw [h.rawEnd_eq]
    omega
  have hnew : s.object.start + i + (s.object.rawEnd - (s.object.start + j))
      = s.object.start + (xs.length - (j - i)) := by
    rw [h.rawEnd_eq]
    omega
  have hrest : s.object.rawEnd - (s.object.start + j) = xs.length - j := by
    rw [h.rawEnd_eq]
    omega
  unfold eraseNonempty
  refine object_bind_meets (Prog.Meets.bind ((copy_meets ?_ (readable_slots ?_)).except
    (fun _ _ => trivial)) (fun _ => ?_))
  · rw [length_slots, hrest, h.elements_eq]
    exact Set.Ico_subset_Ico (by omega) (by omega)
  · rw [hrest, h.elements_eq]
    exact Set.Ico_subset_Ico (by omega) (by omega)
  · dsimp only
    rw [hn, hnew]
    refine Prog.Meets.bind (R := fun _ => Owns e.trivialDestructor s s.object.buffer s.object
      s.object.buffer (leftAlive trivialDctrAfterMove s.object (s.object.start + j)
        (s.object.start + (xs.length - (j - i))))) ?_ (fun _ => ?_)
    · unfold leftAlive
      split
      · refine ((destroyN_meets ?_).post (fun _ u hu => hu.congr rfl ?_)).no_throw
        · rw [h.elements_eq]
          exact Set.Ico_subset_Ico (by omega) (by omega)
        · rw [h.elements_eq]
          ext x
          simp only [Set.mem_sdiff, Set.mem_Ico]
          omega
      · exact Prog.meets_pure (fun u hu => hu)
    · refine (setObject_meets.post (fun _ u hu => ?_)).no_throw
      rw [h.size_eq] at hu
      exact hu

/-- **Erasing a range, and the values.** -/
theorem eraseNonempty_turns (h : Valid e s xs) (hij : i < j) (hj : j ≤ xs.length) :
    (eraseNonempty e trivialDctrAfterMove (s.object.start + i) (s.object.start + j) s).Permits
      (fun _ t => ∀ q < s.object.start + (xs.length - (j - i)), t.valueAt q
        = moveCells e (s.object.start + j) (s.object.start + i) (xs.length - j) s.valueAt q)
      (fun _ => True) := by
  have hrest : s.object.rawEnd - (s.object.start + j) = xs.length - j := by
    rw [h.rawEnd_eq]
    omega
  refine (Turns.object_bind ((turns_move (Or.inl (by omega))).bind (fun _ =>
    (turns_destroyN.ite (turns_pure ())).bind (fun _ => turns_setObject)))).imp
    (fun _ t ht q hq => (congrFun ht q).trans ?_) (fun _ => id)
  rw [hrest]
  show (if _ then clearCells _ _ else id) _ q = _
  split
  · exact clearCells_of_notMem (by omega)
  · rfl

/-- Elements are moved and destroyed, and none is constructed. -/
theorem keeps_constructed_eraseNonempty {first last : ℕ} :
    Prog.Keeps State.constructed
      (eraseNonempty e trivialDctrAfterMove first last : Prog (State Holder α) Unit) := by
  unfold eraseNonempty
  refine Prog.Keeps.bind (Prog.keeps_gets _) (fun m => keeps_constructed_copy.bind (fun _ => ?_))
  exact (keeps_constructed_destroyN.ite (Prog.keeps_pure ())).bind
    (fun _ => keeps_constructed_setObject)

/-- **How the life of an erased element ended**: the element `n` further on was moved
to its slot, or there is none, and it was destroyed once. Where a destructor does
nothing, nothing has to end. -/
def Ended (e : Env α) (s t : State Holder α) (n q : ℕ) : Prop :=
  e.trivialDestructor = true
    ∨ q + n < s.object.rawEnd ∧ t.valueAt q = s.valueAt (q + n) ∧ t.destroyed q = s.destroyed q
    ∨ s.object.rawEnd ≤ q + n ∧ t.destroyed q = s.destroyed q + 1

/-- The ledger tells which slots lost their element. -/
theorem destroyed_eq {k : Holder} {live : Set ℕ} (h : Valid e s xs)
    (ht : e.trivialDestructor = false)
    (ho : Owns e.trivialDestructor s s.object.buffer k s.object.buffer live t)
    (hc : t.constructed = s.constructed) (hq : q ∈ s.object.elements) :
    (q ∈ live → t.destroyed q = s.destroyed q)
      ∧ (q ∉ live → t.destroyed q = s.destroyed q + 1) := by
  have hledger := ho.ledger ht q
  have halive : alive (shape s.heap) q = 1 := if_pos (h.owns.full q hq)
  rw [hc, halive] at hledger
  refine ⟨fun hl => ?_, fun hl => ?_⟩
  · have halive' : alive (shape t.heap) q = 1 := if_pos (ho.full q hl)
    omega
  · have halive' : alive (shape t.heap) q = 0 := by
      rw [alive, ho.vacant ht q (h.owns.live_sub hq) hl]
      rfl
    omega

/-- What is left, in order, is what stood before the range and after it. -/
theorem contains_erased (h : Valid e s xs) (hij : i ≤ j) (hj : j ≤ xs.length)
    (hstart : t.object.start = s.object.start) (hsize : t.object.size = xs.length - (j - i))
    (ht : ∀ q < s.object.start + (xs.length - (j - i)), t.valueAt q
      = moveCells e (s.object.start + j) (s.object.start + i) (xs.length - j) s.valueAt q) :
    Contains t (xs.take i ++ xs.drop j) := by
  have hlen : (xs.take i ++ xs.drop j).length = xs.length - (j - i) := by
    rw [List.length_append, List.length_take, List.length_drop]
    omega
  refine ⟨by rw [hlen, hsize], fun x hx => ?_⟩
  rw [hlen] at hx
  rw [hstart, ht _ (by omega)]
  by_cases hxi : x < i
  · rw [moveCells_of_notMem (by omega) (by omega), h.holds x (by omega),
      List.getElem?_append_left (by rw [List.length_take]; omega), List.getElem?_take_of_lt hxi]
  · have hidx : s.object.start + j + (s.object.start + x - (s.object.start + i))
        = s.object.start + (j + (x - i)) := by omega
    have hpre : (xs.take i).length = i := List.length_take_of_le (by omega)
    rw [moveCells_of_mem (by omega) (by omega), hidx, h.holds _ (by omega),
      List.getElem?_append_right (by omega), hpre, List.getElem?_drop]

/-- Slots that elements are moved to stay alive. -/
theorem mem_leftAlive {last newLast : ℕ} (h : Valid e s xs) (hlast : newLast ≤ s.object.rawEnd)
    (hq : s.object.start ≤ q) (hq' : q < newLast) :
    q ∈ leftAlive trivialDctrAfterMove s.object last newLast := by
  unfold leftAlive
  split
  · exact ⟨hq, hq'⟩
  · exact ⟨hq, lt_of_lt_of_le hq' hlast⟩

/-- **An erased element ended** exactly if another was moved to its slot, or the slot
is not left alive. -/
theorem ended_iff {k : Holder} {live : Set ℕ} (h : Valid e s xs)
    (ht : e.trivialDestructor = false) (hij : i ≤ j) (hj : j ≤ xs.length)
    (ho : Owns e.trivialDestructor s s.object.buffer k s.object.buffer live t)
    (hc : t.constructed = s.constructed)
    (hv : ∀ q < s.object.start + (xs.length - (j - i)), t.valueAt q
      = moveCells e (s.object.start + j) (s.object.start + i) (xs.length - j) s.valueAt q)
    (hl : ∀ q < s.object.start + (xs.length - (j - i)), s.object.start ≤ q → q ∈ live)
    (hq : q ∈ Set.Ico (s.object.start + i) (s.object.start + j)) :
    Ended e s t (j - i) q ↔ q < s.object.start + (xs.length - (j - i)) ∨ q ∉ live := by
  have hend : s.object.rawEnd = s.object.start + xs.length := h.rawEnd_eq
  have hq₁ := hq.1
  have hq₂ := hq.2
  have hmem : q ∈ s.object.elements := by
    rw [h.elements_eq]
    exact ⟨by omega, by omega⟩
  obtain ⟨hkept, hgone⟩ := destroyed_eq h ht ho hc hmem
  constructor
  · rintro (hf | ⟨hlt, -, -⟩ | ⟨-, hd⟩)
    · exact absurd (hf.symm.trans ht) Bool.noConfusion
    · exact Or.inl (by omega)
    · refine Or.inr (fun hlive => ?_)
      rw [hkept hlive] at hd
      omega
  · intro hor
    by_cases hlt : q < s.object.start + (xs.length - (j - i))
    · refine Or.inr (Or.inl ⟨by omega, ?_, hkept (hl q hlt (by omega))⟩)
      have hidx : s.object.start + j + (q - (s.object.start + i)) = q + (j - i) := by omega
      rw [hv q hlt, moveCells_of_mem hq₁ (by omega), hidx]
    · exact Or.inr (Or.inr ⟨by omega, hgone (hor.resolve_left hlt)⟩)

/-- What erasing a range does, and when every erased element ends. -/
theorem erase_meets (h : Valid e s xs) (hij : i ≤ j) (hj : j ≤ xs.length) :
    (erase e trivialDctrAfterMove (s.object.start + i) (s.object.start + j) s).Meets
      (fun r t => r = s.object.start + i ∧ Contains t (xs.take i ++ xs.drop j)
        ∧ ((∀ q ∈ Set.Ico (s.object.start + i) (s.object.start + j), Ended e s t (j - i) q)
          ↔ i = j ∨ e.trivialDestructor = true ∨ trivialDctrAfterMove = false ∨ j = xs.length
            ∨ j - i ≤ xs.length - j))
      (fun _ => True) := by
  unfold erase
  by_cases hne : i = j
  · subst hne
    rw [if_neg (not_not_intro rfl)]
    refine ⟨rfl, ?_, fun _ => Or.inl rfl, fun _ q hq => absurd hq.1 (not_le_of_gt hq.2)⟩
    rw [List.take_append_drop]
    exact h.contains
  rw [if_pos (fun hs => hne (by omega))]
  have hlt : i < j := by omega
  have hrun : (eraseNonempty e trivialDctrAfterMove (s.object.start + i)
      (s.object.start + j) s).Meets _ _ :=
    ((eraseNonempty_meets h hij hj s h.owns).and_permits
      (eraseNonempty_turns h hlt hj)).and_permits (keeps_constructed_eraseNonempty s)
  refine Prog.bind_meets (hrun.imp (fun _ _ => id) (fun _ _ => trivial)) ?_
  rintro _ t ⟨⟨ho, hv⟩, hc⟩
  refine ⟨rfl, contains_erased h hij hj (congrArg Holder.start ho.object_eq :)
    (congrArg Holder.size ho.object_eq :) hv, ?_⟩
  have hend : s.object.rawEnd = s.object.start + xs.length := h.rawEnd_eq
  cases htriv : e.trivialDestructor with
  | true => exact ⟨fun _ => Or.inr (Or.inl rfl), fun _ q _ => Or.inl htriv⟩
  | false =>
    have hiff : ∀ q ∈ Set.Ico (s.object.start + i) (s.object.start + j),
        (Ended e s t (j - i) q ↔ q < s.object.start + (xs.length - (j - i))
          ∨ q ∉ leftAlive trivialDctrAfterMove s.object (s.object.start + j)
            (s.object.start + (xs.length - (j - i)))) :=
      fun q hq => ended_iff h htriv hij hj ho hc hv
        (fun x hx hx' => mem_leftAlive h (by omega) hx' hx) hq
    refine (forall₂_congr hiff).trans ?_
    unfold leftAlive
    rw [hend]
    split
    · rename_i hd
      have hdone : trivialDctrAfterMove = false ∨ j = xs.length := by
        rw [Bool.or_eq_true, Bool.not_eq_true', beq_iff_eq] at hd
        exact hd.imp_right (fun hlast => by omega)
      refine ⟨fun _ => Or.inr (Or.inr (hdone.imp_right Or.inl)), fun _ q _ => ?_⟩
      rw [or_iff_not_imp_left]
      exact fun hq hm => hq hm.2
    · rename_i hd
      rw [Bool.or_eq_true, Bool.not_eq_true', beq_iff_eq, not_or] at hd
      constructor
      · intro hall
        refine Or.inr (Or.inr (Or.inr (Or.inr ?_)))
        by_contra hshort
        rcases hall (s.object.start + (xs.length - (j - i))) ⟨by omega, by omega⟩ with hq | hq
        · exact lt_irrefl _ hq
        · exact hq (h.elements_eq ▸ ⟨by omega, by omega⟩)
      · rintro (hs | hs | hs | hs | hs) q ⟨hq, hq'⟩
        · exact absurd hs hne
        · cases hs
        · exact absurd hs hd.1
        · omega
        · exact Or.inl (by omega)

/-- Erasing one element is erasing a range of one. -/
theorem eraseAt_eq (h : Valid e s xs) (hi : i < xs.length) :
    eraseAt e trivialDctrAfterMove (s.object.start + i) s
      = erase e trivialDctrAfterMove (s.object.start + i) (s.object.start + (i + 1)) s := by
  have hend : s.object.rawEnd = s.object.start + xs.length := h.rawEnd_eq
  have hnew : s.object.start + i + (s.object.rawEnd - (s.object.start + (i + 1)))
      = s.object.rawEnd - 1 := by omega
  have hn : s.object.rawEnd - (s.object.rawEnd - 1) = 1 := by omega
  have hcond : (s.object.start + i == s.object.rawEnd - 1)
      = (s.object.rawEnd == s.object.start + (i + 1)) := by
    rw [Bool.eq_iff_iff, beq_iff_eq, beq_iff_eq]
    omega
  have hone : destroyN e (s.object.rawEnd - 1) 1
      = (destroy e (s.object.rawEnd - 1) : Prog (State Holder α) Unit) := by
    funext u
    show Prog.bind _ _ u = _
    unfold Prog.bind
    cases destroy e (s.object.rawEnd - 1) u <;> rfl
  unfold erase
  rw [if_pos (by omega), eraseNonempty, Prog.bind_assoc]
  show (copy e (s.object.start + i) (slots (s.object.start + i + 1)
      (s.object.rawEnd - (s.object.start + i + 1))) >>= fun _ => _) s
    = ((copy e (s.object.start + i) (slots (s.object.start + (i + 1))
      (s.object.rawEnd - (s.object.start + (i + 1)))) >>= fun _ => _) >>= fun _ => _) s
  simp only [Prog.bind_assoc, hnew, hn, hcond, hone]
  rfl

/-- Elements that a move empties, and whose destructor does nothing after that. -/
def emptied : Env ℕ where
  fuse := none
  refusal := none
  address _ _ := none
  moved _ := 0
  trivialDestructor := false

end Vector
