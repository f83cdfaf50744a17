import BoostContainer.Hub.HubIterator

/-!
# Visiting the elements

`for_each_while` calls a function on the elements of a range until it returns false. It
takes the mask of a whole block at a time, without what is before the first
element in the first block and without what is from the last position on in the last one,
and goes through the bits of the mask. What it stands for is the loop over the iterators
of the range.

The function is any program: it has a state of its own, which is returned with the
position where the visit ended, and may change elements. It leaves the blocks as they are.

A nest has the same blocks as a hub, and its elements may be stored in them; so the
loops are given where the data of a block are.
-/

namespace Hub

variable {α τ : Type}

/-- **A function to visit elements with**: it is given its state and the slot. -/
abbrev Visitor (α τ : Type) := τ → ℕ × ℕ → Prog (State α) (Bool × τ)

/-- The function of `for_each`, called by one that always returns true. -/
def returnTrue (f : τ → ℕ × ℕ → Prog (State α) τ) : Visitor α τ := fun t p => do
  let t ← f t p
  pure (true, t)

/-! ## The loops -/

section Loops

variable (data : State α → ℕ → ℕ) (f : Visitor α τ)

/-- The loop over the bits of a mask, and where it stopped if the function returned
false. -/
def visitMask (pbb pd : ℕ) : ℕ → BitVec 64 → τ → Prog (State α) (Option Iterator × τ)
  | 0, _, _ => Prog.undefined
  | rounds + 1, mask, t =>
    if mask = 0 then pure (none, t)
    else do
      let n := Mask.countrZero mask
      let (go, t) ← f t (pd, n)
      if go = true then visitMask pbb pd rounds (mask &&& (mask - 1)) t
      else pure (some ⟨pbb, n⟩, t)

/-- The loop over the blocks of a range. -/
def forEachWhileLoop (last : Iterator) : ℕ → ℕ → BitVec 64 → τ → Prog (State α) (Iterator × τ)
  | 0, _, _, _ => Prog.undefined
  | rounds + 1, pbb, mask, t => do
    let isLast : BitVec 64 := if pbb = last.pbb then 1 else 0
    let mask := mask &&& ((isLast <<< last.n) - 1)
    let pd ← Prog.gets fun s => data s pbb
    let (stopped, t) ← visitMask f pbb pd (N + 1) mask t
    match stopped with
    | some it => pure (it, t)
    | none =>
      if isLast ≠ 0 then pure (last, t)
      else do
        let pbb ← nextOf pbb
        let mask ← maskOf pbb
        forEachWhileLoop last rounds pbb mask t

/-- `for_each_while` over a range, with the data of a block wherever they are. -/
def forEachWhileWith (rounds : ℕ) (first last : Iterator) (t : τ) : Prog (State α) (Iterator × τ) :=
  if first = last then pure (last, t)
  else do
    let mask ← maskOf first.pbb
    forEachWhileLoop data f last rounds first.pbb (mask &&& (full <<< first.n)) t

/-- The loop over iterators, `while(first != last && f(*first)) ++first;` -/
def iteratorLoop (last : Iterator) : ℕ → Iterator → τ → Prog (State α) (Iterator × τ)
  | 0, _, _ => Prog.undefined
  | rounds + 1, first, t =>
    if first = last then pure (first, t)
    else do
      let p ← Prog.gets fun s => (data s first.pbb, first.n)
      let (go, t) ← f t p
      if go = true then do
        let first ← Prog.gets fun s => s.increment first
        iteratorLoop last rounds first t
      else pure (first, t)

end Loops

/-! ## Hubs -/

section Hubs

variable (f : Visitor α τ)

/-- **`for_each_while`** over a range of a hub. -/
def forEachWhile (rounds : ℕ) (first last : Iterator) (t : τ) : Prog (State α) (Iterator × τ) :=
  forEachWhileWith State.data f rounds first last t

/-- The loop over all blocks of a hub. -/
def forEachWhileAllLoop (h : ℕ) : ℕ → ℕ → τ → Prog (State α) (Iterator × τ)
  | 0, _, _ => Prog.undefined
  | rounds + 1, pbb, t =>
    if pbb = h then do
      let it ← Prog.gets fun s => s.atBlock h
      pure (it, t)
    else do
      let pd ← dataOf pbb
      let mask ← maskOf pbb
      let (stopped, t) ← visitMask f pbb pd (N + 1) mask t
      match stopped with
      | some it => pure (it, t)
      | none => do
        let pbb ← nextOf pbb
        forEachWhileAllLoop h rounds pbb t

/-- **`for_each_while`** over a hub. -/
def forEachWhileAll (rounds h : ℕ) (t : τ) : Prog (State α) (Iterator × τ) := do
  let pbb ← nextOf h
  forEachWhileAllLoop f h rounds pbb t

end Hubs

/-- `for_each` over a range. -/
def forEach (f : τ → ℕ × ℕ → Prog (State α) τ) (rounds : ℕ) (first last : Iterator) (t : τ) :
    Prog (State α) τ := do
  let r ← forEachWhile (returnTrue f) rounds first last t
  pure r.2

/-- `for_each` over a hub. -/
def forEachAll (f : τ → ℕ × ℕ → Prog (State α) τ) (rounds h : ℕ) (t : τ) :
    Prog (State α) τ := do
  let r ← forEachWhileAll (returnTrue f) rounds h t
  pure r.2

/-! ## Nests -/

namespace Nest

/-- `first_in_mask` -/
def firstInMask (m : BitVec 64) : ℕ := Mask.countrZero m

/-- `last_in_mask` -/
def lastInMask (m : BitVec 64) : ℕ := 63 - Mask.countlZero m

/-- `operator++` of an iterator of a nest. -/
def increment (s : State α) (it : Iterator) : Iterator :=
  let mask := s.mask it.pbb &&& (full <<< 1 <<< it.n)
  if mask = 0 then
    let pbb := s.list.next it.pbb
    ⟨pbb, firstInMask (s.mask pbb)⟩
  else ⟨it.pbb, firstInMask mask⟩

/-- `operator--` of an iterator of a nest. -/
def decrement (s : State α) (it : Iterator) : Iterator :=
  let mask := s.mask it.pbb &&& (full >>> 1 >>> (N - 1 - it.n))
  if mask = 0 then
    let pbb := s.list.prev it.pbb
    ⟨pbb, lastInMask (s.mask pbb)⟩
  else ⟨it.pbb, lastInMask mask⟩

theorem increment_eq (s : State α) : increment s = s.increment := rfl

theorem decrement_eq (s : State α) : decrement s = s.decrement := by
  funext it
  have hlast : ∀ m, lastInMask m = N - 1 - Mask.countlZero m := fun m => by
    show 63 - _ = 64 - 1 - _
    omega
  unfold decrement State.decrement
  simp only [hlast]

/-- `data()`: where the option says so, the elements are in the block itself. -/
def data (storeDataInBlock : Bool) (s : State α) (b : ℕ) : ℕ :=
  if storeDataInBlock = true then b else s.data b

/-- **`for_each_while`** over a range of a nest. -/
def forEachWhile (storeDataInBlock : Bool) (f : Visitor α τ) (rounds : ℕ) (first last : Iterator)
    (t : τ) : Prog (State α) (Iterator × τ) :=
  forEachWhileWith (data storeDataInBlock) f rounds first last t

/-- `for_each` over a range of a nest. -/
def forEach (storeDataInBlock : Bool) (f : τ → ℕ × ℕ → Prog (State α) τ) (rounds : ℕ)
    (first last : Iterator) (t : τ) : Prog (State α) τ := do
  let r ← forEachWhile storeDataInBlock (returnTrue f) rounds first last t
  pure r.2

/-- `for_each_while` over a nest. -/
def forEachWhileAll (storeDataInBlock : Bool) (f : Visitor α τ) (rounds h : ℕ) (t : τ) :
    Prog (State α) (Iterator × τ) := do
  let first ← Prog.gets fun s => increment s (endOf h)
  forEachWhile storeDataInBlock f rounds first (endOf h) t

/-- `for_each` over a nest. -/
def forEachAll (storeDataInBlock : Bool) (f : τ → ℕ × ℕ → Prog (State α) τ) (rounds h : ℕ)
    (t : τ) : Prog (State α) τ := do
  let r ← forEachWhileAll storeDataInBlock (returnTrue f) rounds h t
  pure r.2

end Nest

/-! ## What a visit is -/

/-- What a visit reads of the blocks. -/
def layoutWith (data : State α → ℕ → ℕ) (s : State α) :
    Links ℕ × (ℕ → BitVec 64) × (ℕ → ℕ) := (s.list, s.mask, data s)

/-- **Elements are visited**, one after the other, until the function returns false. -/
def visitThen (data : State α → ℕ → ℕ) (f : Visitor α τ) :
    List Iterator → τ → (τ → Prog (State α) (Iterator × τ)) → Prog (State α) (Iterator × τ)
  | [], t, k => k t
  | x :: xs, t, k => do
    let p ← Prog.gets fun s => (data s x.pbb, x.n)
    let (go, t) ← f t p
    if go = true then visitThen data f xs t k else pure (x, t)

section Visit

variable {data : State α → ℕ → ℕ} {f : Visitor α τ} {s s₀ : State α} {h pbb pd rounds : ℕ}
  {m : BitVec 64} {t : τ} {x : Iterator} {xs ys p₁ p₂ p₃ : List Iterator} {l : List ℕ} {L : Lists}
  {k k' : τ → Prog (State α) (Iterator × τ)}

theorem visitThen_append :
    visitThen data f (xs ++ ys) t k = visitThen data f xs t fun t => visitThen data f ys t k := by
  induction xs generalizing t with
  | nil => rfl
  | cons x xs ih =>
    rw [List.cons_append, visitThen, visitThen]
    simp only [ih]

/-- What follows a visit may be exchanged where the blocks are as before. -/
theorem visitThen_congr (hkeep : ∀ t p, Prog.Keeps (layoutWith data) (f t p))
    (hs : layoutWith data s = layoutWith data s₀)
    (hk : ∀ t s', layoutWith data s' = layoutWith data s₀ → k t s' = k' t s') :
    visitThen data f xs t k s = visitThen data f xs t k' s := by
  induction xs generalizing t s with
  | nil => exact hk t s hs
  | cons x xs ih =>
    refine Prog.bind_congr fun p s₁ hp => Prog.bind_congr fun r s₂ hr => ?_
    obtain ⟨go, t'⟩ := r
    obtain ⟨rfl, rfl⟩ : p = (data s x.pbb, x.n) ∧ s₁ = s := by
      cases hp
      exact ⟨rfl, rfl⟩
    have hs₂ := ((hkeep _ _).eq hr).trans hs
    by_cases hgo : go = true
    · dsimp only
      rw [if_pos hgo, if_pos hgo]
      exact ih hs₂
    · dsimp only
      rw [if_neg hgo, if_neg hgo]

/-- **Going through the bits of a mask** visits the positions of the block. -/
theorem visitMask_eq (hkeep : ∀ t p, Prog.Keeps (layoutWith data) (f t p))
    (hpd : data s pbb = pd) (hr : (Mask.bits m).length < rounds) :
    (visitMask f pbb pd rounds m t >>= fun r => match r with
      | (stopped, t) => match stopped with
        | some it => pure (it, t)
        | none => k t) s
      = visitThen data f ((Mask.bits m).map (Iterator.mk pbb)) t k s := by
  induction rounds generalizing m t s with
  | zero => exact absurd hr (Nat.not_lt_zero _)
  | succ rounds ih =>
    rw [visitMask]
    by_cases hm : m = 0
    · rw [if_pos hm, hm, Mask.bits_zero]
      rfl
    · rw [if_neg hm, Mask.bits_eq_cons hm, List.map_cons, visitThen, Prog.bind_assoc]
      have hlen : (Mask.bits (m &&& (m - 1))).length < rounds := by
        rw [Mask.bits_eq_cons hm, List.length_cons] at hr
        omega
      show (f t (pd, Mask.countrZero m) >>= _) s = (f t (data s pbb, Mask.countrZero m) >>= _) s
      rw [hpd]
      refine Prog.bind_congr fun r s₁ hs₁ => ?_
      obtain ⟨go, t'⟩ := r
      by_cases hgo : go = true
      · dsimp only
        rw [if_pos hgo, if_pos hgo]
        have hdata : data s₁ = data s := congrArg (fun l => l.2.2) ((hkeep _ _).eq hs₁)
        exact ih ((congrFun hdata pbb).trans hpd) hlen
      · dsimp only
        rw [if_neg hgo, if_neg hgo]
        rfl

/-- The parts of two ways to split the positions from a block on. -/
theorem visit_cases {q r : List Iterator} (h : q ++ r = p₂ ++ p₃) :
    (∃ p, p₂ = q ++ p ∧ r = p ++ p₃) ∨ ∃ x p, q = p₂ ++ x :: p ∧ p₃ = x :: p ++ r := by
  rcases List.append_eq_append_iff.mp h with ⟨p, hp₂, hr⟩ | ⟨p, hq, hp₃⟩
  · exact Or.inl ⟨p, hp₂, hr⟩
  · cases p with
    | nil =>
      rw [List.append_nil] at hq
      exact Or.inl ⟨[], by rw [hq, List.append_nil], hp₃.symm⟩
    | cons x p => exact Or.inr ⟨x, p, hq, hp₃⟩

/-- **The last round** leaves the positions from the last one on. -/
theorem forEachWhileLoop_last (hkeep : ∀ t p, Prog.Keeps (layoutWith data) (f t p))
    {last : Iterator} (hlast : pbb = last.pbb) (hn : last.n < N) :
    forEachWhileLoop data f last (rounds + 1) pbb m t s
      = visitThen data f (((Mask.bits m).filter (· < last.n)).map (Iterator.mk pbb)) t
        (fun t => pure (last, t)) s := by
  have hmask : m &&& (((if pbb = last.pbb then 1 else 0 : BitVec 64) <<< last.n) - 1)
      = m &&& (Mask.bit last.n - 1) := by
    rw [if_pos hlast]
    rfl
  rw [← Mask.bits_before hn, ← visitMask_eq hkeep rfl
    (Nat.lt_succ_of_le ((Mask.popcount_eq (m := m &&& (Mask.bit last.n - 1))) ▸ Mask.popcount_le)),
    forEachWhileLoop, hmask]
  show (visitMask f pbb (data s pbb) (N + 1) _ t >>= _) s = _
  refine Prog.bind_congr fun r s₁ _ => ?_
  obtain ⟨stopped, t'⟩ := r
  cases stopped with
  | some it => rfl
  | none =>
    dsimp only
    rw [if_pos hlast, if_pos (by decide)]

/-- **Any other round** visits what is left of the block, and goes to the next. -/
theorem forEachWhileLoop_next (hkeep : ∀ t p, Prog.Keeps (layoutWith data) (f t p))
    {last : Iterator} (hlast : pbb ≠ last.pbb) :
    forEachWhileLoop data f last (rounds + 1) pbb m t s
      = visitThen data f ((Mask.bits m).map (Iterator.mk pbb)) t (fun t => do
          let pbb ← nextOf pbb
          let mask ← maskOf pbb
          forEachWhileLoop data f last rounds pbb mask t) s := by
  have hmask : m &&& (((if pbb = last.pbb then 1 else 0 : BitVec 64) <<< last.n) - 1) = m := by
    rw [if_neg hlast, show (0 : BitVec 64) <<< last.n = 0 from BitVec.zero_shiftLeft _]
    exact Mask.and_zero_sub_one
  rw [← visitMask_eq hkeep rfl
    (Nat.lt_succ_of_le ((Mask.popcount_eq (m := m)) ▸ Mask.popcount_le)),
    forEachWhileLoop, hmask]
  show (visitMask f pbb (data s pbb) (N + 1) _ t >>= _) s = _
  refine Prog.bind_congr fun r s₁ _ => ?_
  obtain ⟨stopped, t'⟩ := r
  cases stopped with
  | some it => rfl
  | none =>
    dsimp only
    rw [if_neg hlast, if_neg (not_not_intro rfl)]

/-- A range that ends inside of a block. -/
theorem forEachWhileLoop_within (hkeep : ∀ t p, Prog.Keeps (layoutWith data) (f t p))
    (hp : (Mask.bits m).map (Iterator.mk pbb) = p₂ ++ x :: xs) :
    forEachWhileLoop data f x (rounds + 1) pbb m t s
      = visitThen data f p₂ t (fun t => pure (x, t)) s := by
  obtain ⟨n₁, n, hbits, rfl, hrest⟩ := List.map_eq_append_iff.mp hp
  obtain ⟨n, n₂, rfl, rfl, rfl⟩ := List.map_eq_cons_iff.mp hrest
  have hn : n < N := Mask.lt_of_mem_bits (hbits ▸ List.mem_append_right n₁ List.mem_cons_self)
  rw [forEachWhileLoop_last hkeep rfl hn, (Mask.filter_of_split hbits).1]

/-- **The loop over the blocks** visits what is left of the range. -/
theorem forEachWhileLoop_eq (hkeep : ∀ t p, Prog.Keeps (layoutWith data) (f t p))
    (hseg : Segment s₀.list.next pbb l h) (hnd : (pbb :: l).Nodup)
    (hh : h ∉ pbb :: l) (hr : l.length + 1 < rounds)
    (hs : layoutWith data s = layoutWith data s₀)
    (hp : (Mask.bits m).map (Iterator.mk pbb) ++ s₀.positions l = p₂ ++ p₃) :
    forEachWhileLoop data f (p₃.headD (endOf h)) rounds pbb m t s
      = visitThen data f p₂ t (fun t => pure (p₃.headD (endOf h), t)) s := by
  induction l generalizing s pbb m t p₂ rounds with
  | nil =>
    obtain ⟨rounds, rfl⟩ : ∃ r, rounds = r + 2 := ⟨rounds - 2, by simp at hr; omega⟩
    rw [State.positions_nil] at hp
    rcases visit_cases hp with ⟨p, rfl, hrest⟩ | ⟨x, p, hq, rfl⟩
    · obtain ⟨rfl, rfl⟩ := List.append_eq_nil_iff.mp hrest.symm
      rw [List.append_nil, List.headD_nil, forEachWhileLoop_next hkeep
        fun heq : pbb = h => hh (heq ▸ List.mem_cons_self)]
      refine visitThen_congr hkeep hs fun t' s' hs' => ?_
      have hnext : s'.list.next pbb = s₀.list.next pbb := congrArg (fun l => l.1.next pbb) hs'
      show forEachWhileLoop data f (endOf h) (rounds + 1) (s'.list.next pbb)
        (s'.mask (s'.list.next pbb)) t' s' = _
      have hround : forEachWhileLoop data f (endOf h) (rounds + 1) h (s'.mask h) t' s'
          = visitThen data f (((Mask.bits (s'.mask h)).filter (· < 0)).map (Iterator.mk h)) t'
            (fun t => pure (endOf h, t)) s' :=
        forEachWhileLoop_last hkeep rfl (Nat.zero_lt_succ _)
      have hnone : (Mask.bits (s'.mask h)).filter (· < 0) = [] :=
        List.filter_eq_nil_iff.mpr fun n _ => by simp
      rw [hnext, hseg.next_eq, List.headD_nil, hround, hnone]
      rfl
    · exact forEachWhileLoop_within hkeep hq
  | cons b l ih =>
    obtain ⟨rounds, rfl⟩ : ∃ r, rounds = r + 1 := ⟨rounds - 1, by omega⟩
    rcases visit_cases hp with ⟨p, rfl, hrest⟩ | ⟨x, p, hq, rfl⟩
    · have hlast : pbb ≠ (p₃.headD (endOf h)).pbb := by
        cases p₃ with
        | nil => exact fun heq => hh (heq ▸ List.mem_cons_self)
        | cons y p₃ =>
          have hy : y ∈ s₀.positions (b :: l) :=
            hrest ▸ List.mem_append_right p List.mem_cons_self
          rw [List.headD_cons]
          exact fun heq => (List.nodup_cons.mp hnd).1 (heq ▸ (State.mem_positions.mp hy).1)
      rw [forEachWhileLoop_next hkeep hlast, visitThen_append]
      refine visitThen_congr hkeep hs fun t' s' hs' => ?_
      have hnext : s'.list.next pbb = b := (congrArg (fun l => l.1.next pbb) hs').trans hseg.1
      have hmask : s'.mask b = s₀.mask b := congrArg (fun l => l.2.1 b) hs'
      show forEachWhileLoop data f _ rounds (s'.list.next pbb) (s'.mask (s'.list.next pbb)) t' s'
        = _
      rw [hnext, hmask]
      refine ih hseg.2 (List.nodup_cons.mp hnd).2 (fun hmem => hh (List.mem_cons_of_mem pbb hmem))
        ?_ hs' hrest
      rw [List.length_cons] at hr
      omega
    · exact forEachWhileLoop_within hkeep hq

/-! ## The three loops -/

/-- **A range of a hub**: the positions that `++` goes through from the first iterator on,
until it reaches the last. -/
def Range (s : State α) (h : ℕ) (L : Lists) (first last : Iterator) (xs : List Iterator) : Prop :=
  ∃ before after, s.positions L.active = before ++ (xs ++ after)
    ∧ first = (xs ++ after).headD (endOf h) ∧ last = after.headD (endOf h)

variable {first last : Iterator}

/-- The range of all elements. -/
theorem Linked.range_all (hl : Linked s h L) :
    Range s h L (s.increment (endOf h)) (endOf h) (s.positions L.active) :=
  ⟨[], [], by rw [List.nil_append, List.append_nil], by
    rw [List.append_nil]
    exact hl.iterators.next_header, rfl⟩

/-- In a range with elements the first is not the last. -/
theorem Linked.range_ne (hl : Linked s h L) (hr : Range s h L first last (x :: xs)) :
    first = x ∧ x ≠ last := by
  obtain ⟨before, after, hp, hfirst, hlast⟩ := hr
  refine ⟨hfirst, fun heq => ?_⟩
  have hmem := Circular.headD_mem (endOf h) after
  rw [← hlast, ← heq] at hmem
  rcases List.mem_cons.mp hmem with hend | hafter
  · refine hl.endOf_notMem (hend ▸ ?_)
    rw [hp]
    exact List.mem_append_right _ (List.mem_append_left _ List.mem_cons_self)
  · have hnd := State.nodup_positions (s := s) hl.ring.nodup_members
    rw [hp, List.cons_append] at hnd
    exact (List.nodup_cons.mp (List.nodup_append.mp hnd).2.1).1 (List.mem_append_right xs hafter)

/-- **`for_each_while`** visits the range. -/
theorem forEachWhileWith_eq (hl : Linked s h L)
    (hkeep : ∀ t p, Prog.Keeps (layoutWith data) (f t p)) (hr : L.active.length + 1 < rounds)
    (hrange : Range s h L first last xs) :
    forEachWhileWith data f rounds first last t s
      = visitThen data f xs t (fun t => pure (last, t)) s := by
  cases xs with
  | nil =>
    obtain ⟨before, after, -, hfirst, hlast⟩ := hrange
    rw [forEachWhileWith, if_pos (hfirst.trans hlast.symm)]
    rfl
  | cons x xs =>
    obtain ⟨rfl, hne⟩ := hl.range_ne hrange
    obtain ⟨before, after, hp, -, rfl⟩ := hrange
    rw [forEachWhileWith, if_neg hne]
    rw [List.cons_append] at hp
    obtain ⟨b₁, b₂, n₁, n₂, hactive, hbits, -, hrest⟩ :=
      State.positions_split hl.ring.nodup_members hp
    have hseg := hl.ring.forward
    have hnd := hl.ring.nodup
    rw [hactive] at hseg hnd
    have hlen : b₂.length + 1 < rounds := by
      rw [hactive, List.length_append, List.length_cons] at hr
      omega
    refine forEachWhileLoop_eq hkeep (Segment.append_iff.mp hseg).2
      (List.nodup_append.mp (List.nodup_cons.mp hnd).2).2.1
      (fun hmem => (List.nodup_cons.mp hnd).1 (List.mem_append_right b₁ hmem)) hlen rfl ?_
    rw [Mask.bits_from, Mask.filter_from_of_split hbits, List.map_cons, List.cons_append, ← hrest]
    rfl

/-- **The loop over iterators** visits the range. -/
theorem iteratorLoop_eq (hl : Linked s₀ h L) (hkeep : ∀ t p, Prog.Keeps (layoutWith data) (f t p))
    (hr : xs.length < rounds) (hs : layoutWith data s = layoutWith data s₀)
    (hrange : Range s₀ h L first last xs) :
    iteratorLoop data f last rounds first t s
      = visitThen data f xs t (fun t => pure (last, t)) s := by
  induction xs generalizing s first t rounds with
  | nil =>
    obtain ⟨rounds, rfl⟩ : ∃ r, rounds = r + 1 := ⟨rounds - 1, by simp at hr; omega⟩
    obtain ⟨before, after, -, hfirst, hlast⟩ := hrange
    rw [iteratorLoop, if_pos (hfirst.trans hlast.symm), hfirst.trans hlast.symm]
    rfl
  | cons x xs ih =>
    obtain ⟨rounds, rfl⟩ : ∃ r, rounds = r + 1 := ⟨rounds - 1, by simp at hr; omega⟩
    obtain ⟨rfl, hne⟩ := hl.range_ne hrange
    obtain ⟨before, after, hp, -, hlast⟩ := hrange
    rw [iteratorLoop, if_neg hne]
    refine Prog.bind_congr fun p s₁ hp₁ => Prog.bind_congr fun r s₂ hr₂ => ?_
    cases hp₁
    obtain ⟨go, t'⟩ := r
    dsimp only
    by_cases hgo : go = true
    · rw [if_pos hgo, if_pos hgo]
      have hs₂ := ((hkeep _ _).eq hr₂).trans hs
      have hinc : s₂.increment first = s₀.increment first := by
        have hlist : s₂.list = s₀.list := congrArg Prod.fst hs₂
        have hmask : s₂.mask = s₀.mask := congrArg (fun l => l.2.1) hs₂
        rw [State.increment, State.increment, hlist, hmask]
      have hcircle := hl.iterators
      rw [hp, List.cons_append] at hcircle
      refine ih (Nat.lt_of_succ_lt_succ hr) hs₂ ⟨before ++ [first], after, ?_, ?_, hlast⟩
      · rw [hp, List.append_assoc, List.singleton_append, List.cons_append]
      · exact hinc.trans hcircle.next_member
    · rw [if_neg hgo, if_neg hgo]

/-- **The loop over all blocks** visits the elements of the blocks that are left. -/
theorem forEachWhileAllLoop_eq {a : ℕ} (hkeep : ∀ t p, Prog.Keeps (layoutWith State.data) (f t p))
    (hheader : s₀.atBlock h = endOf h) (hseg : Segment s₀.list.next a l h) (hh : h ∉ l)
    (hr : l.length < rounds) (hs : layoutWith State.data s = layoutWith State.data s₀) :
    forEachWhileAllLoop f h rounds (l.headD h) t s
      = visitThen State.data f (s₀.positions l) t (fun t => pure (endOf h, t)) s := by
  induction l generalizing s a t rounds with
  | nil =>
    obtain ⟨rounds, rfl⟩ : ∃ r, rounds = r + 1 := ⟨rounds - 1, by simp at hr; omega⟩
    have hmask : s.mask h = s₀.mask h := congrArg (fun l => l.2.1 h) hs
    have hat : s.atBlock h = endOf h := by
      rw [State.atBlock, hmask]
      exact hheader
    rw [List.headD_nil, forEachWhileAllLoop, if_pos rfl]
    show (pure (s.atBlock h, t) : Prog (State α) (Iterator × τ)) s = _
    rw [hat]
    rfl
  | cons b l ih =>
    obtain ⟨rounds, rfl⟩ : ∃ r, rounds = r + 1 := ⟨rounds - 1, by simp at hr; omega⟩
    have hmask : s.mask b = s₀.mask b := congrArg (fun l => l.2.1 b) hs
    have hbits := Nat.lt_succ_of_le ((Mask.popcount_eq (m := s₀.mask b)) ▸ Mask.popcount_le)
    have hrest : ∀ t' s', layoutWith State.data s' = layoutWith State.data s₀ →
        (nextOf b >>= fun pbb => forEachWhileAllLoop f h rounds pbb t') s'
          = visitThen State.data f (s₀.positions l) t' (fun t => pure (endOf h, t)) s' := by
      intro t' s' hs'
      have hnext : s'.list.next b = l.headD h :=
        (congrArg (fun l => l.1.next b) hs').trans hseg.2.next_eq
      show forEachWhileAllLoop f h rounds (s'.list.next b) t' s' = _
      rw [hnext]
      exact ih hseg.2 (fun hmem => hh (List.mem_cons_of_mem b hmem)) (Nat.lt_of_succ_lt_succ hr) hs'
    rw [List.headD_cons, forEachWhileAllLoop,
      if_neg fun heq : b = h => hh (heq ▸ List.mem_cons_self),
      State.positions_cons, visitThen_append, ← visitThen_congr hkeep hs hrest,
      ← visitMask_eq hkeep rfl hbits]
    show (visitMask f b (s.data b) (N + 1) (s.mask b) t >>= _) s = _
    rw [hmask]

theorem forEachWhileAll_eq (hl : Linked s h L)
    (hkeep : ∀ t p, Prog.Keeps (layoutWith State.data) (f t p))
    (hr : L.active.length < rounds) :
    forEachWhileAll f rounds h t s
      = visitThen State.data f (s.positions L.active) t (fun t => pure (endOf h, t)) s := by
  show forEachWhileAllLoop f h rounds (s.list.next h) t s = _
  rw [hl.ring.next_header]
  exact forEachWhileAllLoop_eq hkeep (State.atBlock_eq hl.bits_header) hl.ring.forward
    hl.ring.header_notMem hr rfl

end Visit

/-! ## What is promised -/

theorem returnTrue_keeps {data : State α → ℕ → ℕ} {f : τ → ℕ × ℕ → Prog (State α) τ}
    (hkeep : ∀ t p, Prog.Keeps (layoutWith data) (f t p)) (t : τ) (p : ℕ × ℕ) :
    Prog.Keeps (layoutWith data) (returnTrue f t p) :=
  (hkeep t p).bind fun _ => Prog.keeps_pure _

section Promises

variable (data : State α → ℕ → ℕ) (s : State α) (h : ℕ) (L : Lists)

/-- **A loop over ranges is the loop over the iterators**: both visit the elements of the
range, in order, and end after them, or where the function returned false. The function
leaves the blocks as they are. -/
def LoopsOver (loop : ∀ τ : Type, Visitor α τ → ℕ → Iterator → Iterator → τ →
    Prog (State α) (Iterator × τ)) : Prop :=
  ∀ (τ : Type) (f : Visitor α τ) (t : τ) (first last : Iterator) (xs : List Iterator) (rounds : ℕ),
    (∀ t p, Prog.Keeps (layoutWith data) (f t p)) → Range s h L first last xs →
    L.active.length + 1 < rounds → xs.length < rounds →
      loop τ f rounds first last t s = iteratorLoop data f last rounds first t s
      ∧ iteratorLoop data f last rounds first t s
        = visitThen data f xs t (fun t => pure (last, t)) s

/-- The same of a loop that does not stop. -/
def EachLoopsOver (loop : ∀ τ : Type, (τ → ℕ × ℕ → Prog (State α) τ) → ℕ → Iterator → Iterator →
    τ → Prog (State α) τ) : Prop :=
  ∀ (τ : Type) (f : τ → ℕ × ℕ → Prog (State α) τ) (t : τ) (first last : Iterator)
    (xs : List Iterator) (rounds : ℕ),
    (∀ t p, Prog.Keeps (layoutWith data) (f t p)) → Range s h L first last xs →
    L.active.length + 1 < rounds → xs.length < rounds →
      loop τ f rounds first last t s
        = (iteratorLoop data (returnTrue f) last rounds first t >>= fun r => pure r.2) s

/-- **A loop over all elements is the loop from `begin()` to `end()`.** -/
def LoopsOverAll (loop : ∀ τ : Type, Visitor α τ → ℕ → τ → Prog (State α) (Iterator × τ))
    (each : ∀ τ : Type, (τ → ℕ × ℕ → Prog (State α) τ) → ℕ → τ → Prog (State α) τ) : Prop :=
  ∀ (τ : Type) (t : τ) (rounds : ℕ),
    L.active.length + 1 < rounds → (s.positions L.active).length < rounds →
    (∀ f : Visitor α τ, (∀ t p, Prog.Keeps (layoutWith data) (f t p)) →
      loop τ f rounds t s
        = iteratorLoop data f (endOf h) rounds (s.increment (endOf h)) t s)
    ∧ ∀ f : τ → ℕ × ℕ → Prog (State α) τ, (∀ t p, Prog.Keeps (layoutWith data) (f t p)) →
      each τ f rounds t s = (iteratorLoop data (returnTrue f) (endOf h) rounds
        (s.increment (endOf h)) t >>= fun r => pure r.2) s

/-- **What traversals promise**, of a hub and of a nest with the same blocks. -/
structure Traversed : Prop where
  /-- `++` goes through the set bits of the active blocks, in the order of the list, and
  the end; `--` goes back. -/
  hub_ring : Circular ⟨s.increment, s.decrement⟩ (endOf h) (s.positions L.active)
  hub_inverse : ∀ x ∈ endOf h :: s.positions L.active,
    s.decrement (s.increment x) = x ∧ s.increment (s.decrement x) = x
  nest_ring : Circular ⟨Nest.increment s, Nest.decrement s⟩ (endOf h) (s.positions L.active)
  nest_inverse : ∀ x ∈ endOf h :: s.positions L.active,
    Nest.decrement s (Nest.increment s x) = x ∧ Nest.increment s (Nest.decrement s x) = x
  hub_while : LoopsOver State.data s h L fun _ => forEachWhile
  hub_each : EachLoopsOver State.data s h L fun _ => forEach
  hub_all : LoopsOverAll State.data s h L (fun _ f rounds => forEachWhileAll f rounds h)
    fun _ f rounds => forEachAll f rounds h
  nest_while : ∀ b, LoopsOver (Nest.data b) s h L fun _ => Nest.forEachWhile b
  nest_each : ∀ b, EachLoopsOver (Nest.data b) s h L fun _ => Nest.forEach b
  nest_all : ∀ b, LoopsOverAll (Nest.data b) s h L
    (fun _ f rounds => Nest.forEachWhileAll b f rounds h)
    fun _ f rounds => Nest.forEachAll b f rounds h

end Promises

section

variable {data : State α → ℕ → ℕ} {s : State α} {h : ℕ} {L : Lists}

theorem Linked.loopsOver (hl : Linked s h L) :
    LoopsOver data s h L fun _ => forEachWhileWith data := by
  intro τ f t first last xs rounds hkeep hrange hactive hlen
  have hloop := iteratorLoop_eq (s := s) (t := t) hl hkeep hlen rfl hrange
  exact ⟨(forEachWhileWith_eq hl hkeep hactive hrange).trans hloop.symm, hloop⟩

theorem Linked.eachLoopsOver (hl : Linked s h L) :
    EachLoopsOver data s h L fun _ f rounds first last t =>
      forEachWhileWith data (returnTrue f) rounds first last t >>= fun r => pure r.2 := by
  intro τ f t first last xs rounds hkeep hrange hactive hlen
  have heq := (hl.loopsOver τ (returnTrue f) t first last xs rounds (returnTrue_keeps hkeep) hrange
    hactive hlen).1
  exact Prog.bind_congr_left heq

end

/-- **Every traversal is the plain one**: the iterators of hubs and nests go round the set
bits of the active blocks and the end, and the loops that take whole masks visit what the
loops over iterators visit. -/
theorem Linked.traversed {s : State α} {h : ℕ} {L : Lists} (hl : Linked s h L) :
    Traversed s h L where
  hub_ring := hl.iterators
  hub_inverse x hx := ⟨hl.iterators.prev_next hx, hl.iterators.next_prev hx⟩
  nest_ring := by
    rw [Nest.increment_eq, Nest.decrement_eq]
    exact hl.iterators
  nest_inverse x hx := by
    rw [Nest.increment_eq, Nest.decrement_eq]
    exact ⟨hl.iterators.prev_next hx, hl.iterators.next_prev hx⟩
  hub_while := hl.loopsOver
  hub_each := hl.eachLoopsOver
  hub_all := by
    intro τ t rounds hactive hlen
    have hall : ∀ f : Visitor α τ, (∀ t p, Prog.Keeps (layoutWith State.data) (f t p)) →
        forEachWhileAll f rounds h t s
          = iteratorLoop State.data f (endOf h) rounds (s.increment (endOf h)) t s :=
      fun f hkeep => (forEachWhileAll_eq hl hkeep (Nat.lt_of_succ_lt hactive)).trans
        (iteratorLoop_eq hl hkeep hlen rfl hl.range_all).symm
    refine ⟨hall, fun f hkeep => ?_⟩
    exact Prog.bind_congr_left (hall (returnTrue f) (returnTrue_keeps hkeep))
  nest_while _ := hl.loopsOver
  nest_each _ := hl.eachLoopsOver
  nest_all b := by
    intro τ t rounds hactive hlen
    have hall : ∀ f : Visitor α τ, (∀ t p, Prog.Keeps (layoutWith (Nest.data b)) (f t p)) →
        Nest.forEachWhileAll b f rounds h t s
          = iteratorLoop (Nest.data b) f (endOf h) rounds (s.increment (endOf h)) t s := by
      intro f hkeep
      rw [Nest.forEachWhileAll, Prog.gets_bind, Nest.increment_eq]
      exact (hl.loopsOver τ f t _ _ _ rounds hkeep hl.range_all hactive hlen).1
    exact ⟨hall, fun f hkeep => Prog.bind_congr_left (hall (returnTrue f) (returnTrue_keeps hkeep))⟩

theorem sample_traversed : Traversed sample 1 sampleLists := shape_sample.toLinked.traversed

end Hub
