import BoostContainer.Hub.HubSplice

/-!
# Pruning hubs

`unique` erases what follows an element and is equal to it, one range after the other;
`erase_if` goes through the masks of the blocks as they were when it came to each, and
erases single elements. Blocks become empty under both of them, and are taken out of the
active blocks. What is left is what a list keeps: all elements without those that the
predicate wants, and without those that are equal to the last that was kept.
-/

open Function

namespace Hub

variable {α : Type}

section Prune

variable (e : Env α) (h : ℕ)

/-- `std::find_if_not`, for the first element that is not equal to `*first`. -/
def findIfNot (pred : α → α → Bool) (first last : Iterator) : ℕ → Iterator →
    Prog (State α) Iterator
  | 0, _ => Prog.undefined
  | rounds + 1, it =>
    if it = last then pure it
    else do
      let x ← read (← Prog.gets fun s => s.slotAt it)
      let y ← read (← Prog.gets fun s => s.slotAt first)
      if pred x y = true then do
        let it ← Prog.gets fun s => s.increment it
        findIfNot pred first last rounds it
      else pure it

/-- The loop over the elements that are kept. -/
def uniqueLoop (pred : α → α → Bool) : ℕ → Iterator → Prog (State α) Unit
  | 0, _ => Prog.undefined
  | rounds + 1, first =>
    if first = endOf h then pure ()
    else do
      let next ← Prog.gets fun s => s.increment first
      let found ← Prog.gets fun s => s.rounds h
      let stop ← findIfNot pred first (endOf h) found next
      let first ← eraseRange e h next stop
      uniqueLoop pred rounds first

/-- **`unique`** -/
def unique (pred : α → α → Bool) : Prog (State α) ℕ := do
  let s ← Prog.gets fun s => s.size h
  let rounds ← Prog.gets fun s => s.rounds h
  let first ← begin h
  uniqueLoop e h pred rounds first
  let size ← Prog.gets fun s => s.size h
  pure (s - size)

/-- The loop over the elements of a block, as its mask was. -/
def eraseIfBits (pred : α → Bool) (pb : ℕ) : ℕ → BitVec 64 → Prog (State α) Unit
  | 0, _ => Prog.undefined
  | rounds + 1, mask => do
    let n := Mask.countrZero mask
    let pd ← dataOf pb
    let x ← read (pd, n)
    if pred x = true then eraseImpl h pb n
    let mask := mask &&& (mask - 1)
    if mask = 0 then pure () else eraseIfBits pred pb rounds mask

/-- The loop over the blocks. -/
def eraseIfLoop (pred : α → Bool) : ℕ → ℕ → Prog (State α) Unit
  | 0, _ => Prog.undefined
  | rounds + 1, pb =>
    if pb = h then pure ()
    else do
      let pbb ← nextOf pb
      let mask ← maskOf pb
      eraseIfBits h pred pb N mask
      eraseIfLoop pred rounds pbb

/-- **`erase_if`** -/
def eraseIf (pred : α → Bool) : Prog (State α) ℕ := do
  let s ← Prog.gets fun s => s.size h
  let rounds ← Prog.gets fun s => s.rounds h
  let pbb ← nextOf h
  eraseIfLoop h pred rounds pbb
  let size ← Prog.gets fun s => s.size h
  pure (s - size)

end Prune

variable {e : Env α} {s t : State α} {h b : ℕ} {L L' : Lists} {a₁ bs ns : List ℕ}
  {m : BitVec 64} {xs kept gone : List Iterator} {vs : List α} {v : α} {x first : Iterator}
  {rounds : ℕ}

/-! ## Values -/

/-- **The values at some positions.** -/
def State.Values (s : State α) (xs : List Iterator) (vs : List α) : Prop :=
  xs.map (fun x => s.slot (s.slotAt x)) = vs.map some

theorem State.Values.contents (hv : s.Values (s.positions bs) vs) : s.contents bs = vs := by
  have hid := congrArg (List.filterMap id) hv
  rw [List.filterMap_map, List.filterMap_map] at hid
  exact hid.trans (List.filterMap_some)

theorem Shape.exists_values (hs : Shape s h L) (hsub : ∀ x ∈ xs, x ∈ s.positions L.active) :
    ∃ vs, s.Values xs vs := by
  induction xs with
  | nil => exact ⟨[], rfl⟩
  | cons x xs ih =>
    obtain ⟨vs, hvs⟩ := ih fun y hy => hsub y (List.mem_cons_of_mem x hy)
    obtain ⟨v, hv⟩ := Option.isSome_iff_exists.mp (hs.isSome_slotAt (hsub x List.mem_cons_self))
    exact ⟨v :: vs, congrArg₂ List.cons hv hvs⟩

theorem State.Values.length (hv : s.Values xs vs) : xs.length = vs.length := by
  have hlen := congrArg List.length hv
  rwa [List.length_map, List.length_map] at hlen

/-- What is left keeps its values. -/
theorem Removed.values (r : Removed s h L gone t L') (hs : Shape s h L)
    (hsub : ∀ x ∈ gone, x ∈ s.positions L.active) (hxs : ∀ x ∈ xs, x ∈ t.positions L'.active)
    (hv : s.Values xs vs) : t.Values xs vs :=
  (List.map_congr_left fun x hx => r.slot_kept hs hsub (hxs x hx)).trans hv

/-! ## Equal elements -/

theorem read_run {p : ℕ × ℕ} (hv : s.slot p = some v) : read p s = .done v s := by
  unfold read
  rw [hv]

/-- **The search ends** where the elements that are equal to the first one end. -/
theorem findIfNot_run {pred : α → α → Bool} (hs : Shape s h L)
    (hp : s.positions L.active = kept ++ xs) (hv : s.Values xs vs)
    (hfirst : s.slot (s.slotAt first) = some v) (hlen : xs.length < rounds) :
    ∃ dup rest, xs = dup ++ rest ∧ s.Values rest (vs.dropWhile (pred · v))
      ∧ findIfNot pred first (endOf h) rounds (xs.headD (endOf h)) s
        = .done (rest.headD (endOf h)) s := by
  induction xs generalizing kept vs rounds with
  | nil =>
    obtain ⟨rounds, rfl⟩ : ∃ r, rounds = r + 1 := ⟨rounds - 1, by simp at hlen; omega⟩
    obtain rfl : vs = [] := List.eq_nil_of_length_eq_zero hv.length.symm
    refine ⟨[], [], rfl, rfl, ?_⟩
    rw [List.headD_nil, findIfNot, if_pos rfl]
    rfl
  | cons x xs ih =>
    obtain ⟨rounds, rfl⟩ : ∃ r, rounds = r + 1 := ⟨rounds - 1, by simp at hlen; omega⟩
    obtain ⟨w, vs, rfl⟩ : ∃ w ws, vs = w :: ws := List.exists_cons_of_ne_nil fun heq => by
      rw [heq] at hv
      exact List.cons_ne_nil _ _ hv
    obtain ⟨hw, hvs⟩ := List.cons.inj hv
    have hne : x ≠ endOf h := fun heq => hs.endOf_notMem (by
      rw [hp, ← heq]
      exact List.mem_append_right _ List.mem_cons_self)
    have hround : findIfNot pred first (endOf h) (rounds + 1) x s
        = (if pred w v = true then findIfNot pred first (endOf h) rounds (s.increment x)
          else pure x) s := by
      rw [findIfNot, if_neg hne, Prog.gets_bind, Prog.bind_of_done (read_run hw), Prog.gets_bind,
        Prog.bind_of_done (read_run hfirst)]
      split <;> rfl
    rw [List.headD_cons, hround]
    by_cases hpred : pred w v = true
    · have hnext : s.increment x = xs.headD (endOf h) := by
        have hring := hs.iterators
        rw [hp] at hring
        exact hring.next_member
      have hp' : s.positions L.active = (kept ++ [x]) ++ xs := by
        rw [hp, List.append_assoc, List.singleton_append]
      obtain ⟨dup, rest, rfl, hrest, hrun⟩ := ih hp' hvs (Nat.lt_of_succ_lt_succ hlen)
      refine ⟨x :: dup, rest, rfl, ?_, ?_⟩
      · rwa [List.dropWhile_cons_of_pos (p := (pred · v)) hpred]
      · rw [if_pos hpred, hnext, hrun]
    · refine ⟨[], x :: xs, rfl, ?_, ?_⟩
      · rwa [List.dropWhile_cons_of_neg (p := (pred · v)) hpred]
      · rw [if_neg hpred]
        rfl

/-- What a list keeps after an element that was kept. -/
theorem destutter_cons_dropWhile (pred : α → α → Bool) (v : α) (vs : List α) :
    (v :: vs).destutter (fun a b => ¬ pred b a = true)
      = v :: (vs.dropWhile (pred · v)).destutter fun a b => ¬ pred b a = true := by
  induction vs with
  | nil => rfl
  | cons w vs ih =>
    by_cases hw : pred w v = true
    · rw [List.dropWhile_cons_of_pos (p := (pred · v)) hw, ← ih, List.destutter_cons', List.destutter_cons',
        List.destutter'_cons_neg _ (not_not_intro hw)]
    · rw [List.dropWhile_cons_of_neg (p := (pred · v)) hw, List.destutter_cons', List.destutter_cons',
        List.destutter'_cons_pos _ hw]

/-- **The loop of `unique`**, from the next element that is kept on. -/
theorem uniqueLoop_run {pred : α → α → Bool} (hs : Shape s h L)
    (hp : s.positions L.active = kept ++ xs) (hv : s.Values xs vs) (hlen : xs.length < rounds) :
    ∃ t L' gone ys, uniqueLoop e h pred rounds (xs.headD (endOf h)) s = .done () t
      ∧ Removed s h L gone t L' ∧ (∀ x ∈ gone, x ∈ s.positions L.active) ∧ gone.Nodup
      ∧ t.positions L'.active = kept ++ ys
      ∧ t.Values ys (vs.destutter fun a b => ¬ pred b a = true) := by
  induction rounds generalizing s L kept xs vs with
  | zero => exact absurd hlen (Nat.not_lt_zero _)
  | succ rounds ih =>
    cases xs with
    | nil =>
      obtain rfl : vs = [] := List.eq_nil_of_length_eq_zero hv.length.symm
      refine ⟨s, L, [], [], ?_, Removed.refl hs, fun x hx => absurd hx List.not_mem_nil,
        List.nodup_nil, hp, rfl⟩
      rw [List.headD_nil, uniqueLoop, if_pos rfl]
      rfl
    | cons x xs =>
      obtain ⟨v, vs, rfl⟩ : ∃ w ws, vs = w :: ws := List.exists_cons_of_ne_nil fun heq => by
        rw [heq] at hv
        exact List.cons_ne_nil _ _ hv
      obtain ⟨hw, hvs⟩ := List.cons.inj hv
      have hne : x ≠ endOf h := fun heq => hs.endOf_notMem (by
        rw [hp, ← heq]
        exact List.mem_append_right _ List.mem_cons_self)
      have hnext : s.increment x = xs.headD (endOf h) := by
        have hring := hs.iterators
        rw [hp] at hring
        exact hring.next_member
      have hp' : s.positions L.active = (kept ++ [x]) ++ xs := by
        rw [hp, List.append_assoc, List.singleton_append]
      have hall : Range s h L (xs.headD (endOf h)) (endOf h) xs :=
        ⟨kept ++ [x], [], by rw [List.append_nil]; exact hp', by rw [List.append_nil], rfl⟩
      have hfound : xs.length < s.rounds h := (hs.rounds_enough hall).1
      obtain ⟨dup, rest, rfl, hrest, hfind⟩ := findIfNot_run hs hp' hvs hw hfound
      have hrange : Range s h L ((dup ++ rest).headD (endOf h)) (rest.headD (endOf h)) dup :=
        ⟨kept ++ [x], rest, hp', rfl, rfl⟩
      obtain ⟨t, L', herase, hremoved⟩ := eraseRange_run e hs hrange
      have hleft := hremoved.positions_middle hs hp'
      have hgone : ∀ y ∈ dup, y ∈ s.positions L.active := fun y hy => by
        rw [hp']
        exact List.mem_append_right _ (List.mem_append_left _ hy)
      have hrest' : t.Values rest (vs.dropWhile (pred · v)) :=
        hremoved.values hs hgone (fun y hy => by
          rw [hleft]
          exact List.mem_append_right _ hy) hrest
      have hshort : rest.length < rounds := by
        rw [List.length_cons, List.length_append] at hlen
        omega
      obtain ⟨u, L'', gone, ys, hrun, hremoved', hgone', hnd', hys, hvalues⟩ :=
        ih hremoved.shape hleft hrest' hshort
      have hkept : ∀ y ∈ t.positions L'.active, y ∈ s.positions L.active ∧ y ∉ dup :=
        fun y hy => by
          rw [hremoved.positions] at hy
          exact ⟨(List.mem_filter.mp hy).1, of_decide_eq_true (List.mem_filter.mp hy).2⟩
      have hnd : dup.Nodup := by
        have hall := State.nodup_positions (s := s) hs.ring.nodup_members
        rw [hp'] at hall
        exact (List.nodup_append.mp (List.nodup_append.mp hall).2.1).1
      refine ⟨u, L'', dup ++ gone, x :: ys, ?_, hremoved.trans hremoved', fun y hy => ?_, ?_, ?_, ?_⟩
      · rw [List.headD_cons, uniqueLoop, if_neg hne, Prog.gets_bind, Prog.gets_bind, hnext,
          Prog.bind_of_done hfind, Prog.bind_of_done herase]
        exact hrun
      · exact (List.mem_append.mp hy).elim (hgone y) fun hy => (hkept y (hgone' y hy)).1
      · refine List.nodup_append.mpr ⟨hnd, hnd', ?_⟩
        rintro y hy y' hy' rfl
        exact (hkept y (hgone' y hy')).2 hy
      · rw [hys, List.append_assoc, List.singleton_append]
      · rw [destutter_cons_dropWhile]
        refine congrArg₂ List.cons ?_ hvalues
        have hx : x ∈ u.positions L''.active := by
          rw [hys]
          exact List.mem_append_left _ (List.mem_append_right _ List.mem_cons_self)
        exact ((hremoved.trans hremoved').slot_kept hs (fun y hy =>
          (List.mem_append.mp hy).elim (hgone y) fun hy => (hkept y (hgone' y hy)).1) hx).trans hw

/-! ## Unwanted elements -/

/-- Whether the predicate wants the element at a position. -/
def State.wanted (s : State α) (pred : α → Bool) (x : Iterator) : Bool :=
  (s.slot (s.slotAt x)).any pred

theorem State.Values.unwanted {pred : α → Bool} (hv : s.Values xs vs) :
    s.Values (xs.filter fun x => ¬ s.wanted pred x = true)
      (vs.filter fun v => ¬ pred v = true) := by
  induction xs generalizing vs with
  | nil =>
    obtain rfl : vs = [] := List.eq_nil_of_length_eq_zero hv.length.symm
    rfl
  | cons x xs ih =>
    obtain ⟨v, vs, rfl⟩ : ∃ w ws, vs = w :: ws := List.exists_cons_of_ne_nil fun heq => by
      rw [heq] at hv
      exact List.cons_ne_nil _ _ hv
    obtain ⟨hw, hvs⟩ := List.cons.inj hv
    have hsame : s.wanted pred x = pred v := congrArg (Option.any pred) hw
    by_cases hpred : pred v = true
    · rw [List.filter_cons_of_neg (by simpa [hsame] using hpred),
        List.filter_cons_of_neg (by simpa using hpred)]
      exact ih hvs
    · rw [List.filter_cons_of_pos (by simpa [hsame] using hpred),
        List.filter_cons_of_pos (by simpa using hpred)]
      exact congrArg₂ List.cons hw (ih hvs)

/-- **The loop over a block** erases what the predicate wants of it. -/
theorem eraseIfBits_run {pred : α → Bool} (hs : Shape s h L) (hm : m ≠ 0)
    (hlen : (Mask.bits m).length ≤ rounds)
    (hsub : ∀ n ∈ Mask.bits m, ⟨b, n⟩ ∈ s.positions L.active) :
    ∃ t L', eraseIfBits h pred b rounds m s = .done () t
      ∧ Removed s h L (((Mask.bits m).map (Iterator.mk b)).filter (s.wanted pred)) t L' := by
  induction rounds generalizing s L m with
  | zero =>
    rw [Mask.bits_eq_cons hm] at hlen
    exact absurd hlen (Nat.not_succ_le_zero _)
  | succ rounds ih =>
    have hbits := Mask.bits_eq_cons hm
    have hnd := Mask.nodup_bits m
    rw [hbits] at hlen hsub hnd
    obtain ⟨n, hn⟩ : ∃ n, Mask.countrZero m = n := ⟨_, rfl⟩
    rw [hn] at hbits hsub hnd
    have hx : ⟨b, n⟩ ∈ s.positions L.active := hsub n List.mem_cons_self
    obtain ⟨v, hv⟩ := Option.isSome_iff_exists.mp (hs.isSome_slotAt hx)
    have hv' : s.slot (s.data b, n) = some v := hv
    -- What the rest of the block is, whether this element is erased or not.
    have hrest : ∀ {t : State α} {M : Lists} {gone : List Iterator}, Removed s h L gone t M →
        (∀ y ∈ gone, y = ⟨b, n⟩) → ∃ u L', (if m &&& (m - 1) = 0 then pure ()
            else eraseIfBits h pred b rounds (m &&& (m - 1)) : Prog (State α) Unit) t = .done () u
          ∧ Removed s h L (gone ++ ((Mask.bits (m &&& (m - 1))).map (Iterator.mk b)).filter
            (s.wanted pred)) u L' := by
      intro t M gone hr hgone
      have hin : ∀ y ∈ gone, y ∈ s.positions L.active := fun y hy => hgone y hy ▸ hx
      have hleft : ∀ i ∈ Mask.bits (m &&& (m - 1)), (⟨b, i⟩ : Iterator) ∈ t.positions M.active := by
        intro i hi
        rw [hr.positions]
        refine List.mem_filter.mpr ⟨hsub i (List.mem_cons_of_mem n hi), decide_eq_true fun hmem => ?_⟩
        have heq : i = n := congrArg Iterator.n (hgone _ hmem)
        exact (List.nodup_cons.mp hnd).1 (heq ▸ hi)
      have hsame : ((Mask.bits (m &&& (m - 1))).map (Iterator.mk b)).filter (t.wanted pred)
          = ((Mask.bits (m &&& (m - 1))).map (Iterator.mk b)).filter (s.wanted pred) :=
        List.filter_congr fun y hy => by
          obtain ⟨i, hi, rfl⟩ := List.mem_map.mp hy
          exact congrArg (Option.any pred) (hr.slot_kept hs hin (hleft i hi))
      by_cases hzero : m &&& (m - 1) = 0
      · refine ⟨t, M, by rw [if_pos hzero]; rfl, ?_⟩
        rw [hzero, Mask.bits_zero, List.map_nil, List.filter_nil, List.append_nil]
        exact hr
      · obtain ⟨u, L', hrun, hr'⟩ := ih hr.shape hzero (Nat.le_of_succ_le_succ hlen) hleft
        refine ⟨u, L', by rw [if_neg hzero, hrun], ?_⟩
        rw [hsame] at hr'
        exact hr.trans hr'
    rw [eraseIfBits]
    unfold dataOf
    dsimp only
    rw [Prog.gets_bind, hn, Prog.bind_of_done (read_run hv'), hbits, List.map_cons]
    by_cases hpred : pred v = true
    · have hwanted : s.wanted pred ⟨b, n⟩ = true := (congrArg (Option.any pred) hv).trans hpred
      obtain ⟨M, hr⟩ := hs.eraseImpl_removed hx
      obtain ⟨u, L', hrun, hr'⟩ := hrest hr fun y hy => List.mem_singleton.mp hy
      refine ⟨u, L', ?_, ?_⟩
      · rw [if_pos hpred, Prog.bind_of_done (eraseImpl_run (hs.isSome_slotAt hx))]
        exact hrun
      · rwa [List.filter_cons_of_pos hwanted]
    · have hwanted : ¬ s.wanted pred ⟨b, n⟩ = true := fun heq =>
        hpred ((congrArg (Option.any pred) hv).symm.trans heq)
      obtain ⟨u, L', hrun, hr'⟩ := hrest (Removed.refl hs) fun y hy => absurd hy List.not_mem_nil
      refine ⟨u, L', ?_, ?_⟩
      · rw [if_neg hpred]
        exact hrun
      · rwa [List.filter_cons_of_neg hwanted]

/-- **The loop over the blocks** erases what the predicate wants of all that are left. -/
theorem eraseIfLoop_run {pred : α → Bool} (hs : Shape s h L) (hactive : L.active = a₁ ++ bs)
    (hlen : bs.length < rounds) :
    ∃ t L', eraseIfLoop h pred rounds (bs.headD h) s = .done () t
      ∧ Removed s h L ((s.positions bs).filter (s.wanted pred)) t L' := by
  induction bs generalizing s L a₁ rounds with
  | nil =>
    obtain ⟨rounds, rfl⟩ : ∃ r, rounds = r + 1 := ⟨rounds - 1, by simp at hlen; omega⟩
    refine ⟨s, L, ?_, Removed.refl hs⟩
    rw [List.headD_nil, eraseIfLoop, if_pos rfl]
    rfl
  | cons b bs ih =>
    obtain ⟨rounds, rfl⟩ : ∃ r, rounds = r + 1 := ⟨rounds - 1, by simp at hlen; omega⟩
    have hb : b ∈ L.active := hactive ▸ List.mem_append_right a₁ List.mem_cons_self
    have hring := hs.ring
    have hnd := hs.ring.nodup_members
    rw [hactive] at hring hnd
    have hbits : ∀ n ∈ Mask.bits (s.mask b), (⟨b, n⟩ : Iterator) ∈ s.positions L.active :=
      fun n hn => State.mem_positions.mpr ⟨hb, Mask.mem_bits.mp hn⟩
    obtain ⟨t, M, hrun, hr⟩ := eraseIfBits_run hs (hs.mask_active b hb)
      (Mask.popcount_eq (m := s.mask b) ▸ Mask.popcount_le) hbits
    have hgone : ∀ y ∈ ((Mask.bits (s.mask b)).map (Iterator.mk b)).filter (s.wanted pred),
        y.pbb = b ∧ y ∈ s.positions L.active := fun y hy => by
      obtain ⟨n, hn, rfl⟩ := List.mem_map.mp (List.mem_filter.mp hy).1
      exact ⟨rfl, hbits n hn⟩
    have hne : ∀ c ∈ bs, c ≠ b := fun c hc heq =>
      (List.nodup_middle.mp hnd).notMem (heq ▸ List.mem_append_right a₁ hc)
    have hmask : ∀ c ∈ bs, t.mask c = s.mask c := fun c hc =>
      hr.mask_eq fun y hy heq => hne c hc (heq.symm.trans (hgone y hy).1)
    have hbs : ∀ c ∈ bs, c ∈ L.active := fun c hc => by
      rw [hactive]
      exact List.mem_append_right a₁ (List.mem_cons_of_mem b hc)
    have hactive' : M.active = ((a₁ ++ [b]).filter fun c => t.mask c ≠ 0) ++ bs := by
      have hkeep : bs.filter (fun c => t.mask c ≠ 0) = bs := List.filter_eq_self.mpr fun c hc => by
        rw [hmask c hc]
        exact decide_eq_true (hs.mask_active c (hbs c hc))
      rw [hr.active, hactive, ← List.singleton_append, ← List.append_assoc, List.filter_append,
        hkeep]
    obtain ⟨u, L', hrun', hr'⟩ := ih hr.shape hactive' (Nat.lt_of_succ_lt_succ hlen)
    have hsame : (t.positions bs).filter (t.wanted pred)
        = (s.positions bs).filter (s.wanted pred) := by
      rw [State.positions_congr hmask]
      refine List.filter_congr fun y hy => congrArg (Option.any pred)
        (hr.slot_kept hs (fun z hz => (hgone z hz).2) ?_)
      rw [hactive', State.positions_append, State.positions_congr hmask]
      exact List.mem_append_right _ hy
    rw [hsame] at hr'
    refine ⟨u, L', ?_, ?_⟩
    · rw [List.headD_cons, eraseIfLoop, if_neg fun heq => hs.ne_header hb heq.symm]
      unfold nextOf maskOf
      rw [Prog.gets_bind, Prog.gets_bind, hring.next_member, Prog.bind_of_done hrun]
      exact hrun'
    · have hall := hr.trans hr'
      rwa [← List.filter_append] at hall

/-! ## What is promised -/

/-- **A hub is pruned**: some elements are destroyed, and a list is left of the others, each
in its slot and in the order they had. -/
structure Pruned (s : State α) (h : ℕ) (L : Lists) (vs : List α) (n : ℕ) (t : State α)
    (L' : Lists) : Prop where
  shape : Shape t h L'
  contents : t.contents L'.active = vs
  count : n + vs.length = (s.contents L.active).length
  removed : ∃ gone, gone.length = n ∧ Removed s h L gone t L'
    ∧ t.positions L'.active = (s.positions L.active).filter (· ∉ gone)
  kept : ∀ x ∈ t.positions L'.active, t.slot (t.slotAt x) = s.slot (s.slotAt x)

theorem Removed.pruned (r : Removed s h L gone t L') (hs : Shape s h L)
    (hgone : ∀ x ∈ gone, x ∈ s.positions L.active) (hnd : gone.Nodup)
    (hvs : t.contents L'.active = vs) : Pruned s h L vs (s.size h - t.size h) t L' := by
  have hleft := length_filter_notMem (State.nodup_positions (s := s) hs.ring.nodup_members) hnd hgone
  have hle : gone.length ≤ (s.positions L.active).length :=
    (hnd.subperm fun x hx => hgone x hx).length_le
  obtain ⟨ws, hws⟩ := hs.exists_values fun x hx => hx
  obtain ⟨us, hus⟩ := r.shape.exists_values fun x hx => hx
  have hlen : vs.length = (t.positions L'.active).length := by
    rw [← hvs, hus.contents, hus.length]
  have hlen' : (s.contents L.active).length = (s.positions L.active).length := by
    rw [hws.contents, hws.length]
  have hpos := r.positions
  rw [← hpos] at hleft
  have hcount : s.size h - t.size h = gone.length := by
    rw [hs.size, r.shape.size]
    omega
  refine ⟨r.shape, hvs, ?_, ⟨gone, hcount.symm, r, hpos⟩, fun x hx => r.slot_kept hs hgone hx⟩
  rw [hcount]
  omega

/-- **`unique`** leaves what a list keeps that compares each element with the last one it
kept. -/
theorem unique_run (e : Env α) (pred : α → α → Bool) (hs : Shape s h L) :
    ∃ n t L', unique e h pred s = .done n t
      ∧ Pruned s h L ((s.contents L.active).destutter fun a b => ¬ pred b a = true) n t L' := by
  obtain ⟨vs, hvs⟩ := hs.exists_values fun x hx => hx
  have hlen := (hs.rounds_enough hs.range_all).1
  obtain ⟨t, L', gone, ys, hrun, hr, hgone, hnd, hys, hvalues⟩ :=
    uniqueLoop_run hs (List.nil_append (s.positions L.active)).symm hvs hlen
  have hcontents : t.contents L'.active = (s.contents L.active).destutter
      fun a b => ¬ pred b a = true := by
    rw [hvs.contents]
    refine State.Values.contents ?_
    rw [hys]
    exact hvalues
  refine ⟨_, t, L', ?_, hr.pruned hs hgone hnd hcontents⟩
  have hfirst : s.increment (endOf h) = (s.positions L.active).headD (endOf h) :=
    hs.iterators.next_header
  unfold unique begin
  rw [Prog.gets_bind, Prog.gets_bind, Prog.gets_bind, hfirst, Prog.bind_of_done hrun]
  rfl

/-- **`erase_if`** leaves what the predicate does not want. -/
theorem eraseIf_run (pred : α → Bool) (hs : Shape s h L) :
    ∃ n t L', eraseIf h pred s = .done n t
      ∧ Pruned s h L ((s.contents L.active).filter fun v => ¬ pred v = true) n t L' := by
  obtain ⟨vs, hvs⟩ := hs.exists_values fun x hx => hx
  have hlen := (hs.rounds_enough hs.range_all).2
  obtain ⟨t, L', hrun, hr⟩ : ∃ t L', eraseIfLoop h pred (s.rounds h) (L.active.headD h) s
      = .done () t ∧ Removed s h L ((s.positions L.active).filter (s.wanted pred)) t L' :=
    eraseIfLoop_run hs (List.nil_append L.active).symm hlen
  have hgone : ∀ x ∈ (s.positions L.active).filter (s.wanted pred), x ∈ s.positions L.active :=
    fun x hx => (List.mem_filter.mp hx).1
  have hnd := (State.nodup_positions (s := s) hs.ring.nodup_members).filter (s.wanted pred)
  have hcontents : t.contents L'.active
      = (s.contents L.active).filter fun v => ¬ pred v = true := by
    have hleft : t.positions L'.active
        = (s.positions L.active).filter fun x => ¬ s.wanted pred x = true := by
      rw [hr.positions]
      refine List.filter_congr fun x hx => decide_eq_decide.mpr (not_congr ?_)
      exact List.mem_filter.trans (and_iff_right hx)
    have hkept : t.Values (t.positions L'.active) (vs.filter fun v => ¬ pred v = true) :=
      hr.values hs hgone (fun x hx => hx) (hleft.symm ▸ hvs.unwanted)
    rw [hvs.contents, hkept.contents]
  refine ⟨_, t, L', ?_, hr.pruned hs hgone hnd hcontents⟩
  unfold eraseIf nextOf
  rw [Prog.gets_bind, Prog.gets_bind, Prog.gets_bind, hs.ring.next_header, Prog.bind_of_done hrun]
  rfl

/-- **A hub is pruned as a list is.** -/
theorem prunes_like_lists (e : Env α) (hs : Shape s h L) :
    (∀ pred : α → α → Bool, ∃ n t L', unique e h pred s = .done n t
      ∧ Pruned s h L ((s.contents L.active).destutter fun a b => ¬ pred b a = true) n t L')
    ∧ ∀ pred : α → Bool, ∃ n t L', eraseIf h pred s = .done n t
      ∧ Pruned s h L ((s.contents L.active).filter fun v => ¬ pred v = true) n t L' :=
  ⟨fun pred => unique_run e pred hs, fun pred => eraseIf_run pred hs⟩

theorem prunes_like_lists_sample :
    (∀ pred : ℕ → ℕ → Bool, ∃ n t L', unique throwing 1 pred sample = .done n t
      ∧ Pruned sample 1 sampleLists
        ((sample.contents sampleLists.active).destutter fun a b => ¬ pred b a = true) n t L')
    ∧ ∀ pred : ℕ → Bool, ∃ n t L', eraseIf 1 pred sample = .done n t
      ∧ Pruned sample 1 sampleLists
        ((sample.contents sampleLists.active).filter fun v => ¬ pred v = true) n t L' :=
  prunes_like_lists throwing shape_sample

end Hub
