import BoostContainer.Hub.HubLayout

/-!
# Going round a hub

`++` and `--` mask the bits they have passed, and go to the neighbouring block when
none is left. Over the ring of the active blocks they go round the positions of all
elements, and the end, one way and the other.
-/

namespace Hub

variable {α : Type} {s : State α} {h a b c n n' : ℕ} {L : Lists} {bs : List ℕ} {n₁ n₂ : List ℕ}
  {x : Iterator}

namespace State

/-- The last element of a block. -/
def lastOf (s : State α) (b : ℕ) : Iterator := ⟨b, N - 1 - Mask.countlZero (s.mask b)⟩

/-! ## One step -/

theorem atBlock_eq (hbits : Mask.bits (s.mask b) = n :: n₂) : s.atBlock b = ⟨b, n⟩ := by
  have hne : s.mask b ≠ 0 := Mask.bits_eq_nil_iff.not.mp (hbits ▸ List.cons_ne_nil n n₂)
  rw [atBlock, Mask.countrZero_eq hne n, hbits, List.headD_cons]

theorem lastOf_eq (hbits : Mask.bits (s.mask b) = n₁ ++ [n]) : s.lastOf b = ⟨b, n⟩ := by
  have hne : s.mask b ≠ 0 :=
    Mask.bits_eq_nil_iff.not.mp (hbits ▸ List.append_ne_nil_of_right_ne_nil n₁ (by simp))
  rw [lastOf, Mask.last_eq hne n, hbits, List.getLastD_concat]

theorem increment_inside (hbits : Mask.bits (s.mask b) = n₁ ++ n :: n' :: n₂) :
    s.increment ⟨b, n⟩ = ⟨b, n'⟩ := by
  have habove : Mask.bits (s.mask b &&& (full <<< 1 <<< n)) = n' :: n₂ :=
    Mask.bits_above.trans (Mask.filter_of_split hbits).2
  have hne := Mask.bits_eq_nil_iff.not.mp (habove ▸ List.cons_ne_nil n' n₂)
  rw [increment, if_neg hne, Mask.countrZero_eq hne n', habove, List.headD_cons]

theorem increment_last (hbits : Mask.bits (s.mask b) = n₁ ++ [n]) :
    s.increment ⟨b, n⟩ = s.atBlock (s.list.next b) := by
  have habove : Mask.bits (s.mask b &&& (full <<< 1 <<< n)) = [] :=
    Mask.bits_above.trans (Mask.filter_of_split hbits).2
  rw [increment, if_pos (Mask.bits_eq_nil_iff.mp habove)]
  rfl

theorem decrement_inside (hbits : Mask.bits (s.mask b) = n₁ ++ n' :: n :: n₂) :
    s.decrement ⟨b, n⟩ = ⟨b, n'⟩ := by
  have hsplit : Mask.bits (s.mask b) = (n₁ ++ [n']) ++ n :: n₂ := by
    rw [hbits, List.append_assoc, List.singleton_append]
  have hn : n < N := Mask.lt_of_mem_bits (hsplit ▸ List.mem_append_right _ List.mem_cons_self)
  have hbelow : Mask.bits (s.mask b &&& (full >>> 1 >>> (N - 1 - n))) = n₁ ++ [n'] :=
    (Mask.bits_below hn).trans (Mask.filter_of_split hsplit).1
  have hne := Mask.bits_eq_nil_iff.not.mp
    (hbelow ▸ List.append_ne_nil_of_right_ne_nil n₁ (List.cons_ne_nil n' []))
  rw [decrement, if_neg hne]
  dsimp only
  rw [Mask.last_eq hne n', hbelow, List.getLastD_concat]

theorem decrement_first (hbits : Mask.bits (s.mask b) = n :: n₂) :
    s.decrement ⟨b, n⟩ = s.lastOf (s.list.prev b) := by
  have hn : n < N := Mask.lt_of_mem_bits (hbits ▸ List.mem_cons_self)
  have hsplit : Mask.bits (s.mask b) = [] ++ n :: n₂ := hbits
  have hbelow : Mask.bits (s.mask b &&& (full >>> 1 >>> (N - 1 - n))) = [] :=
    (Mask.bits_below hn).trans (Mask.filter_of_split hsplit).1
  rw [decrement, if_pos (Mask.bits_eq_nil_iff.mp hbelow)]
  rfl

/-! ## All the way round -/

/-- **From an element on**, `++` leads over the rest of its block and over the blocks that
follow. -/
theorem segment_increment (hseg : Segment s.list.next b bs c) (hne : ∀ b ∈ bs, s.mask b ≠ 0)
    (hbits : Mask.bits (s.mask b) = n₁ ++ n :: n₂) :
    Segment s.increment ⟨b, n⟩ (n₂.map (Iterator.mk b) ++ s.positions bs) (s.atBlock c) := by
  induction bs generalizing b n₁ n n₂ with
  | nil =>
    rw [positions_nil, List.append_nil]
    induction n₂ generalizing n₁ n with
    | nil => exact (increment_last hbits).trans (congrArg s.atBlock hseg)
    | cons n' n₂ ih =>
      have hsplit : Mask.bits (s.mask b) = (n₁ ++ [n]) ++ n' :: n₂ := by
        rw [hbits, List.append_assoc, List.singleton_append]
      exact ⟨increment_inside hbits, ih hsplit⟩
  | cons b' bs ihbs =>
    induction n₂ generalizing n₁ n with
    | nil =>
      obtain ⟨n', n₂, hbits'⟩ := List.exists_cons_of_ne_nil
        (Mask.bits_eq_nil_iff.not.mpr (hne b' List.mem_cons_self))
      have hsplit : Mask.bits (s.mask b') = [] ++ n' :: n₂ := hbits'
      rw [List.map_nil, List.nil_append, positions_cons, hbits', List.map_cons, List.cons_append]
      refine ⟨?_, ihbs hseg.2 (fun b hb => hne b (List.mem_cons_of_mem b' hb)) hsplit⟩
      rw [increment_last hbits, hseg.1, atBlock_eq hbits']
    | cons n' n₂ ih =>
      have hsplit : Mask.bits (s.mask b) = (n₁ ++ [n]) ++ n' :: n₂ := by
        rw [hbits, List.append_assoc, List.singleton_append]
      exact ⟨increment_inside hbits, ih hsplit⟩

/-- **From an element back**, `--` leads over the rest of its block and over the blocks
before it. -/
theorem segment_decrement (hseg : Segment s.list.prev b bs c) (hne : ∀ b ∈ bs, s.mask b ≠ 0)
    (hbits : (Mask.bits (s.mask b)).reverse = n₁ ++ n :: n₂) :
    Segment s.decrement ⟨b, n⟩ (n₂.map (Iterator.mk b)
      ++ bs.flatMap fun b => (Mask.bits (s.mask b)).reverse.map (Iterator.mk b)) (s.lastOf c) := by
  have hforward : ∀ {b : ℕ} {l₁ l₂ : List ℕ}, (Mask.bits (s.mask b)).reverse = l₁ ++ l₂ →
      Mask.bits (s.mask b) = l₂.reverse ++ l₁.reverse := fun heq => by
    rw [← List.reverse_append, ← heq, List.reverse_reverse]
  have hstep : ∀ {b n n' : ℕ} {n₁ n₂ : List ℕ},
      (Mask.bits (s.mask b)).reverse = n₁ ++ n :: n' :: n₂ → s.decrement ⟨b, n⟩ = ⟨b, n'⟩ := by
    intro b n n' n₁ n₂ heq
    have hback : Mask.bits (s.mask b) = n₂.reverse ++ n' :: n :: n₁.reverse := by
      rw [hforward heq, List.reverse_cons, List.reverse_cons, List.append_assoc, List.append_assoc,
        List.singleton_append, List.singleton_append]
    exact decrement_inside hback
  have hfirst : ∀ {b n : ℕ} {n₁ : List ℕ}, (Mask.bits (s.mask b)).reverse = n₁ ++ [n] →
      s.decrement ⟨b, n⟩ = s.lastOf (s.list.prev b) := fun heq =>
    decrement_first (hforward heq)
  induction bs generalizing b n₁ n n₂ with
  | nil =>
    rw [List.flatMap_nil, List.append_nil]
    induction n₂ generalizing n₁ n with
    | nil => exact (hfirst hbits).trans (congrArg s.lastOf hseg)
    | cons n' n₂ ih =>
      have hsplit : (Mask.bits (s.mask b)).reverse = (n₁ ++ [n]) ++ n' :: n₂ := by
        rw [hbits, List.append_assoc, List.singleton_append]
      exact ⟨hstep hbits, ih hsplit⟩
  | cons b' bs ihbs =>
    induction n₂ generalizing n₁ n with
    | nil =>
      obtain ⟨n', n₂, hbits'⟩ := List.exists_cons_of_ne_nil (List.reverse_ne_nil_iff.mpr
        (Mask.bits_eq_nil_iff.not.mpr (hne b' List.mem_cons_self)))
      have hsplit : (Mask.bits (s.mask b')).reverse = [] ++ n' :: n₂ := hbits'
      have hlast : Mask.bits (s.mask b') = n₂.reverse ++ [n'] := by
        rw [hforward hsplit, List.reverse_cons, List.reverse_nil, List.append_nil]
      rw [List.map_nil, List.nil_append, List.flatMap_cons, hbits', List.map_cons, List.cons_append]
      refine ⟨?_, ihbs hseg.2 (fun b hb => hne b (List.mem_cons_of_mem b' hb)) hsplit⟩
      rw [hfirst hbits, hseg.1, lastOf_eq hlast]
    | cons n' n₂ ih =>
      have hsplit : (Mask.bits (s.mask b)).reverse = (n₁ ++ [n]) ++ n' :: n₂ := by
        rw [hbits, List.append_assoc, List.singleton_append]
      exact ⟨hstep hbits, ih hsplit⟩

end State

theorem Linked.bits_header (hl : Linked s h L) : Mask.bits (s.mask h) = [0] := by
  rw [hl.mask_header]
  decide

theorem Linked.endOf_notMem (hl : Linked s h L) : endOf h ∉ s.positions L.active := fun hx =>
  hl.ring.header_notMem (State.mem_positions.mp hx).1

/-- **The iterators of a hub form a ring** over the positions of its elements: `++` goes
through them in order, `--` goes back, and the end is between the last and the first. -/
theorem Linked.iterators (hl : Linked s h L) :
    Circular ⟨s.increment, s.decrement⟩ (endOf h) (s.positions L.active) where
  nodup := List.nodup_cons.mpr ⟨hl.endOf_notMem, State.nodup_positions hl.ring.nodup_members⟩
  forward := by
    have hsplit : Mask.bits (s.mask h) = [] ++ 0 :: [] := hl.bits_header
    have hseg := State.segment_increment hl.ring.forward hl.mask_active hsplit
    rw [State.atBlock_eq hl.bits_header] at hseg
    exact hseg
  backward := by
    have hne : ∀ b ∈ L.active.reverse, s.mask b ≠ 0 := fun b hb =>
      hl.mask_active b (List.mem_reverse.mp hb)
    have hlast : Mask.bits (s.mask h) = [] ++ [0] := hl.bits_header
    have hsplit : (Mask.bits (s.mask h)).reverse = [] ++ 0 :: [] := by
      rw [hl.bits_header]
      rfl
    have hseg := State.segment_decrement hl.ring.backward hne hsplit
    rw [State.lastOf_eq hlast] at hseg
    simp only [List.map_nil, List.nil_append, List.map_reverse] at hseg
    rw [State.positions, List.reverse_flatMap]
    exact hseg

end Hub
