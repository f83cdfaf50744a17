import BoostContainer.Slist.Slist

/-!
# What an edit of a singly linked list brings about

Each edit should be one of the list of the elements: the others stay, in their nodes
and in their order, and a range insertion returns the last new element. Two slips are
found. `resize` with a value inserts as many elements as the list should have in all,
and the functor of a burst, whose first position is never null, gives the element after
the position, where the last new one was asked for.
-/

namespace Slist

variable {N α : Type} {s t : State N α} {us vs news cells : List (N × α)}
  {p prev root r : N} {x : α} {values : List α} {n : ℕ} {version : AllocVersion}
  {category : Category}

section Assignment

variable [DecidableEq N]

/-! ## Assignment -/

/-- **What the loop of `assign` leaves**: values that were written over, in nodes that
stay. -/
theorem State.Shows.assignLoop (h : s.Shows (us ++ vs)) (values : List α) :
    ∃ t, Slist.assignLoop s.root values (lastOf s.root us) ((vs.map Prod.fst).headD s.root) s
        = some (values.drop vs.length,
            lastOf s.root (us ++ (vs.map Prod.fst).zip values), t)
      ∧ t.Shows (us ++ (vs.map Prod.fst).zip values ++ vs.drop values.length)
      ∧ t.root = s.root ∧ t.supply = s.supply := by
  induction values generalizing us vs s with
  | nil => exact ⟨s, by simp [Slist.assignLoop], by simpa using h, rfl, rfl⟩
  | cons x xs ih =>
    cases vs with
    | nil => exact ⟨s, by simp [Slist.assignLoop], by simpa using h, rfl, rfl⟩
    | cons c vs =>
      have hne : c.1 ≠ s.root := by
        intro he
        have hnodup := h.nodup_cells
        rw [List.nodup_cons] at hnodup
        exact hnodup.1 (he ▸ List.mem_map_of_mem (List.mem_append_right us List.mem_cons_self))
      have hnext : s.next c.1 = some ((vs.map Prod.fst).headD s.root) := by
        have h' : s.Shows ((us ++ [c]) ++ vs) := by simpa using h
        simpa using h'.next_eq
      have hw : State.Shows { s with value := Function.update s.value c.1 (some x) }
          ((us ++ [(c.1, x)]) ++ vs) := by simpa using h.write x
      obtain ⟨t, ht, hshows, hroot, hsupply⟩ := ih hw
      rw [lastOf_concat] at ht
      refine ⟨t, ?_, by simpa using hshows, hroot, hsupply⟩
      simp only [Slist.assignLoop, List.map_cons, List.headD_cons, if_neg hne, hnext,
        Option.bind_some, ht, List.length_cons, List.drop_succ_cons, List.zip_cons_cons,
        List.append_assoc, List.singleton_append]

/-- **`assign` leaves exactly the range**, whatever the old elements were. -/
theorem State.Shows.assign (h : s.Shows cells)
    (hn : values.length - cells.length ≤ s.supply.length) (version : AllocVersion)
    (category : Category) :
    ∃ t cells', Slist.assign version category values s = some t
      ∧ Slist.assign .version1 category values s = some t
      ∧ t.Shows cells' ∧ cells'.map Prod.snd = values ∧ t.root = s.root := by
  have hcells : s.Shows ([] ++ cells) := h
  have hfirst := hcells.next_eq
  rw [lastOf_nil] at hfirst
  obtain ⟨t, hloop, ht, hroot, hsupply⟩ := hcells.assignLoop values
  rw [lastOf_nil, List.nil_append] at hloop
  rw [List.nil_append] at ht
  by_cases hlong : cells.length < values.length
  · have hrest : values.drop cells.length ≠ [] := by simpa using hlong
    rw [List.drop_eq_nil_of_le (by omega)] at ht
    obtain ⟨u, hone, hany, hu, huroot⟩ := ht.insertAfter
      (show (values.drop cells.length).length ≤ t.supply.length by
        rw [List.length_drop, hsupply]; exact hn) version category
    rw [hroot] at hone hany
    refine ⟨u, _, ?_, ?_, hu, ?_, huroot.trans hroot⟩
    · simp only [Slist.assign, hfirst, Option.bind_some, hloop, if_pos hrest, hany,
        Option.map_some]
    · simp only [Slist.assign, hfirst, Option.bind_some, hloop, if_pos hrest, hone,
        Option.map_some]
    · have hzip : ((t.supply.take (values.drop cells.length).length).zip
          (values.drop cells.length)).map Prod.snd = values.drop cells.length :=
        List.map_snd_zip (by rw [List.length_take, hsupply, List.length_drop]; omega)
      have htake : ((cells.map Prod.fst).zip values).map Prod.snd = values.take cells.length := by
        rw [List.zip_eq_zip_take_min, List.length_map, min_eq_left hlong.le,
          List.take_of_length_le (by rw [List.length_map])]
        exact List.map_snd_zip (by rw [List.length_take, List.length_map]; omega)
      rw [List.append_nil, List.map_append, hzip, htake, List.take_append_drop]
  · have hrest : values.drop cells.length = [] := List.drop_eq_nil_of_le (by omega)
    obtain ⟨u, hu, hshows, huroot⟩ := ht.eraseAfter
    rw [hroot] at hu
    have hrun : ∀ v, Slist.assign v category values s = some u := by
      intro v
      simp only [Slist.assign, hfirst, Option.bind_some, hloop, hrest, ne_eq, not_true_eq_false,
        if_false, hu]
    refine ⟨u, _, hrun version, hrun .version1, hshows, ?_, huroot.trans hroot⟩
    exact List.map_snd_zip (by rw [List.length_map]; omega)

end Assignment

/-! ## The edits -/

/-- **An edit**, and what it is given. -/
inductive Edit (N α : Type) where
  | resize (newSize : ℕ)
  | resizeWith (newSize : ℕ) (x : α)
  | insertN (prev : N) (n : ℕ) (x : α)
  | insertRange (category : Category) (prev : N) (values : List α)
  | assign (category : Category) (values : List α)

/-- **An edit is run**: the iterator it returns, if it returns one, and what it leaves. -/
def Edit.run [DecidableEq N] [Inhabited α] (version : AllocVersion) (s : State N α) :
    Edit N α → Option (Option N × State N α)
  | resize n => (Slist.resize version n s).map (fun t => (none, t))
  | resizeWith n x => (Slist.resizeWith version n x s).map (fun t => (none, t))
  | insertN prev n x => (insertAfterN version prev n x s).map (fun r => (some r.1, r.2))
  | insertRange category prev values =>
    (insertAfter version category prev values s).map (fun r => (some r.1, r.2))
  | assign category values => (Slist.assign version category values s).map (fun t => (none, t))

/-- The position of an insertion is one of the list. -/
def Edit.Valid (s : State N α) (cells : List (N × α)) : Edit N α → Prop
  | insertN prev _ _ => prev ∈ s.root :: cells.map Prod.fst
  | insertRange _ prev _ => prev ∈ s.root :: cells.map Prod.fst
  | _ => True

/-- How many new elements there should be. -/
def Edit.grows (cells : List (N × α)) : Edit N α → ℕ
  | resize n => n - cells.length
  | resizeWith n _ => n - cells.length
  | insertN _ n _ => n
  | insertRange _ _ values => values.length
  | assign _ values => values.length - cells.length

/-- **The list is cut, or goes on** with copies of a value. -/
def Resized (cells : List (N × α)) (n : ℕ) (x : α) (t : State N α) : Prop :=
  ∃ ns : List N, ns.length = n - cells.length
    ∧ t.Shows (cells.take n ++ ns.zip (List.replicate (n - cells.length) x))

/-- **The new elements come after the position**, in order, and the iterator is that of
the last of them, or the position. -/
def Inserted (cells : List (N × α)) (prev : N) (values : List α) (t : State N α) (r : N) : Prop :=
  ∃ us vs, ∃ ns : List N, cells = us ++ vs ∧ prev = lastOf t.root us
    ∧ ns.length = values.length ∧ t.Shows (us ++ ns.zip values ++ vs)
    ∧ r = lastOf t.root (us ++ ns.zip values)

/-- **What an edit should bring about.** -/
def Edit.Brings [Inhabited α] (cells : List (N × α)) (r : Option N) (t : State N α) :
    Edit N α → Prop
  | resize n => Resized cells n default t
  | resizeWith n x => Resized cells n x t
  | insertN prev n x => ∃ i, r = some i ∧ Inserted cells prev (List.replicate n x) t i
  | insertRange _ prev values => ∃ i, r = some i ∧ Inserted cells prev values t i
  | assign _ values => ∃ cells', t.Shows cells' ∧ cells'.map Prod.snd = values

/-- **The edit does what it should**, and what it does with the other allocators. -/
def Edit.DoesWell [DecidableEq N] [Inhabited α] (version : AllocVersion) (s : State N α)
    (cells : List (N × α)) (e : Edit N α) : Prop :=
  ∃ r t, e.run version s = some (r, t) ∧ e.run .version1 s = some (r, t) ∧ t.root = s.root
    ∧ e.Brings cells r t

/-- A burst whose iterator is not that of the last new element. -/
def Misplaces (version : AllocVersion) (category : Category) (cells : List (N × α)) (n : ℕ) :
    Prop :=
  version = .version2 ∧ category = .forward ∧ n ≠ 1 ∧ (n = 0 → cells ≠ [])

/-- **Where an edit slips.** -/
def Edit.Slips (version : AllocVersion) (cells : List (N × α)) : Edit N α → Prop
  | resizeWith n _ => cells ≠ [] ∧ cells.length ≤ n
  | insertN _ n _ => Misplaces version .forward cells n
  | insertRange category _ values => Misplaces version category cells values.length
  | _ => False

/-! ## The returned iterator -/

theorem lastOf_mem : lastOf root us ∈ root :: us.map Prod.fst := by
  obtain ⟨ws, hws⟩ := exists_lastOf root us
  rw [hws]
  exact List.mem_append_right ws List.mem_cons_self

/-- **When what comes after the position is the last new element.** -/
theorem returned_eq_iff (hnodup : (root :: (us ++ news ++ vs).map Prod.fst).Nodup) :
    returned version category root us news vs = lastOf root (us ++ news)
      ↔ ¬ Misplaces version category (us ++ vs) news.length := by
  rw [returned, Misplaces]
  split
  · next h =>
    refine iff_of_true rfl ?_
    rintro ⟨rfl, rfl, -⟩
    rcases h with h | h <;> cases h
  · next h =>
    rw [not_or] at h
    have hversion : version = .version2 := by
      cases version
      · exact absurd rfl h.2
      · rfl
    have hcategory : category = .forward := by
      cases category
      · exact absurd rfl h.1
      · rfl
    simp only [hversion, hcategory, true_and]
    rcases news with _ | ⟨c, _ | ⟨d, rest⟩⟩
    · simp only [List.nil_append, List.append_nil, List.length_nil, ne_eq, zero_ne_one,
        not_false_eq_true, true_and, forall_const, not_not, List.append_eq_nil_iff] at hnodup ⊢
      refine ⟨fun he => ?_, ?_⟩
      · rw [List.map_append, ← List.cons_append, List.nodup_append] at hnodup
        cases vs with
        | nil =>
          refine ⟨?_, rfl⟩
          rcases List.eq_nil_or_concat us with rfl | ⟨us, c, rfl⟩
          · rfl
          · rw [List.concat_eq_append] at he hnodup
            rw [lastOf_concat] at he
            have hroot : root = c.1 := he
            refine absurd ?_ (List.nodup_cons.mp hnodup.1).1
            simp [hroot]
        | cons c vs =>
          exact absurd he.symm (hnodup.2.2 _ lastOf_mem _ List.mem_cons_self)
      · rintro ⟨rfl, rfl⟩
        rfl
    · simp [lastOf_concat]
    · refine iff_of_false ?_ (by simp)
      intro he
      rw [lastOf_append, lastOf_cons, lastOf_cons] at he
      have hmem : c.1 ∈ d.1 :: rest.map Prod.fst := by
        rw [show c.1 = lastOf d.1 rest from he]
        exact lastOf_mem
      have hsub : (c.1 :: d.1 :: rest.map Prod.fst).Sublist
          (root :: (us ++ c :: d :: rest ++ vs).map Prod.fst) := by
        simp only [List.map_append, List.map_cons]
        exact (List.sublist_append_of_sublist_left (List.sublist_append_right _ _)).cons _
      exact (List.nodup_cons.mp (hnodup.sublist hsub)).1 hmem

variable [DecidableEq N]

/-- **A range insertion** is right unless a burst misplaces its iterator. -/
theorem insertAfter_iff (h : s.Shows cells) (hprev : prev ∈ s.root :: cells.map Prod.fst)
    (hn : values.length ≤ s.supply.length) :
    (∃ i t, (insertAfter version category prev values s).map (fun r => (some r.1, r.2))
          = some (i, t)
        ∧ (insertAfter .version1 category prev values s).map (fun r => (some r.1, r.2))
          = some (i, t)
        ∧ t.root = s.root ∧ ∃ r, i = some r ∧ Inserted cells prev values t r)
      ↔ ¬ Misplaces version category cells values.length := by
  obtain ⟨us, vs, rfl, rfl⟩ := exists_split hprev
  obtain ⟨t, hone, hany, ht, hroot⟩ := h.insertAfter hn version category
  have hlen : (s.supply.take values.length).length = values.length := by
    rw [List.length_take]
    omega
  have hzip : ((s.supply.take values.length).zip values).length = values.length := by
    rw [List.length_zip, hlen, min_self]
  have hiff : returned version category t.root us _ vs = _ ↔ _ := returned_eq_iff ht.nodup_cells
  rw [hroot, hzip] at hiff
  rw [← hiff]
  rw [hany, hone, Option.map_some, Option.map_some]
  refine ⟨?_, fun he => ?_⟩
  · rintro ⟨i, u, hi, hi', -⟩
    rw [← hi'] at hi
    exact Option.some.inj (Prod.mk.inj (Option.some.inj hi)).1
  · rw [he]
    exact ⟨_, t, rfl, rfl, hroot, _, rfl, us, vs, _, rfl, by rw [hroot], hlen, ht, by rw [hroot]⟩

/-! ## The sizes -/

/-- How many nodes the loop has linked. -/
theorem size_insertAfterLoop {r : N × State N α} (h : insertAfterLoop values prev s = some r) :
    r.2.size = s.size + values.length := by
  induction values generalizing prev s with
  | nil =>
    obtain rfl := Option.some.inj h
    rfl
  | cons x xs ih =>
    rw [insertAfterLoop, Option.bind_eq_some_iff] at h
    obtain ⟨c, hc, h⟩ := h
    obtain ⟨d, hd, h⟩ := Option.bind_eq_some_iff.mp h
    have hcsize : c.2.size = s.size := by
      rw [createNode] at hc
      split at hc
      · cases hc
      · rw [← Option.some.inj hc]
    obtain ⟨y, -, rfl⟩ := Option.map_eq_some_iff.mp hd
    rw [ih h, List.length_cons]
    simp only [hcsize]
    omega

/-- **A list is resized**, where the number that is inserted is the difference. -/
theorem resized_of_privTryShrink [Inhabited α] (h : s.Shows cells)
    (hn : n - cells.length ≤ s.supply.length) (version : AllocVersion) (x : α)
    {k : State N α → ℕ} (hk : cells.length ≤ n → k s = n - cells.length) :
    ∃ t, ((privTryShrink n s).bind (fun r => if r.1 then some r.2.2
        else (insertAfterN version r.2.1 (k r.2.2) x r.2.2).map Prod.snd)) = some t
      ∧ ((privTryShrink n s).bind (fun r => if r.1 then some r.2.2
        else (insertAfterN .version1 r.2.1 (k r.2.2) x r.2.2).map Prod.snd)) = some t
      ∧ t.root = s.root ∧ Resized cells n x t := by
  have hshrink := h.privTryShrink n
  split at hshrink
  · next hlt =>
    obtain ⟨t, ht, hshows, hroot⟩ := hshrink
    refine ⟨t, ?_, ?_, hroot, [], by simp; omega, by simpa using hshows⟩ <;>
      simp only [ht, Option.bind_some, if_true]
  · next hle =>
    have hk := hk (by omega)
    have h' : s.Shows (cells ++ []) := by rwa [List.append_nil]
    obtain ⟨t, hone, hany, ht, hroot⟩ := h'.insertAfter
      (show (List.replicate (k s) x).length ≤ s.supply.length by
        rw [List.length_replicate, hk]; exact hn) version .forward
    refine ⟨t, ?_, ?_, hroot, s.supply.take (k s), ?_, ?_⟩
    · simp only [hshrink, Option.bind_some, Bool.false_eq_true, if_false, insertAfterN, hany,
        Option.map_some]
    · simp only [hshrink, Option.bind_some, Bool.false_eq_true, if_false, insertAfterN, hone,
        Option.map_some]
    · rw [List.length_take, hk]
      omega
    · rw [List.length_replicate, List.append_nil] at ht
      rw [List.take_of_length_le (by omega), ← hk]
      exact ht

/-- **A list that is not cut** has as many elements more as are inserted. -/
theorem size_resizeWith (h : s.Shows cells) (hn : cells.length ≤ n)
    (ht : resizeWith .version1 n x s = some t) : t.size = cells.length + n := by
  have hshrink := h.privTryShrink n
  rw [if_neg (by omega)] at hshrink
  simp only [resizeWith, hshrink, Option.bind_some, Bool.false_eq_true, if_false, insertAfterN,
    insertAfter, or_true, if_true] at ht
  obtain ⟨r, hr, rfl⟩ := Option.map_eq_some_iff.mp ht
  rw [size_insertAfterLoop hr, h.size_eq, List.length_replicate]

/-! ## When an edit does well -/

variable [Inhabited α]

theorem not_doesWell_resizeWith (h : s.Shows cells) (hne : cells ≠ []) (hn : cells.length ≤ n) :
    ¬ (Edit.resizeWith n x).DoesWell version s cells := by
  rintro ⟨r, t, -, hone, -, ns, hns, hshows⟩
  obtain ⟨u, hu, hut⟩ := Option.map_eq_some_iff.mp hone
  obtain rfl := (Prod.mk.inj hut).2
  have hsize := hshows.size_eq
  have hpos := List.length_pos_iff.mpr hne
  rw [size_resizeWith h hn hu, List.length_append, List.length_zip, hns, List.length_take,
    List.length_replicate] at hsize
  omega

/-- **An edit does what it should, and the same with every allocator, unless it
slips**: `resize` with a value slips where nothing is cut from a list that is not empty,
and an insertion where a burst links several nodes, or none into a list that is not
empty. -/
theorem doesWell_iff (version : AllocVersion) (e : Edit N α) (h : s.Shows cells)
    (hvalid : e.Valid s cells) (hsupply : e.grows cells ≤ s.supply.length) :
    e.DoesWell version s cells ↔ ¬ e.Slips version cells := by
  cases e with
  | resize n =>
    obtain ⟨t, hrun, hone, hroot, hresized⟩ := resized_of_privTryShrink h hsupply version default
      (k := fun s => n - s.size) fun _ => by rw [h.size_eq]
    refine iff_of_true ⟨none, t, ?_, ?_, hroot, hresized⟩ id
    · exact congrArg (Option.map (fun t => (none, t))) hrun
    · exact congrArg (Option.map (fun t => (none, t))) hone
  | resizeWith n x =>
    by_cases hslips : cells ≠ [] ∧ cells.length ≤ n
    · exact iff_of_false (not_doesWell_resizeWith h hslips.1 hslips.2) (not_not_intro hslips)
    · have hk : cells.length ≤ n → n = n - cells.length := by
        intro hle
        have hnil : cells = [] := by
          by_contra hne
          exact hslips ⟨hne, hle⟩
        rw [hnil, List.length_nil, Nat.sub_zero]
      obtain ⟨t, hrun, hone, hroot, hresized⟩ :=
        resized_of_privTryShrink h hsupply version x (k := fun _ => n) hk
      refine iff_of_true ⟨none, t, ?_, ?_, hroot, hresized⟩ hslips
      · exact congrArg (Option.map (fun t => (none, t))) hrun
      · exact congrArg (Option.map (fun t => (none, t))) hone
  | insertN prev n x =>
    have hiff : _ ↔ ¬ Misplaces version .forward cells (List.replicate n x).length :=
      insertAfter_iff h hvalid (by rw [List.length_replicate]; exact hsupply)
    rw [List.length_replicate] at hiff
    exact hiff
  | insertRange category prev values => exact insertAfter_iff h hvalid hsupply
  | assign category values =>
    obtain ⟨t, cells', hrun, hone, hshows, hvalues, hroot⟩ := h.assign hsupply version category
    refine iff_of_true ⟨none, t, ?_, ?_, hroot, cells', hshows, hvalues⟩ id
    · rw [Edit.run, hrun, Option.map_some]
    · rw [Edit.run, hone, Option.map_some]

/-- A list of one element, 7, and a supply of nodes. -/
def oneSeven : State ℕ ℕ where
  root := 0
  next p := if p = 0 then some 1 else if p = 1 then some 0 else none
  value p := if p = 1 then some 7 else none
  size := 1
  supply := [2, 3]

theorem shows_oneSeven : oneSeven.Shows [(1, 7)] :=
  ⟨⟨rfl, 1, rfl, rfl, 0, rfl, rfl⟩, by decide, rfl, by decide⟩

theorem doesWell_oneSeven :
    (Edit.insertRange .input 1 [8, 9] : Edit ℕ ℕ).DoesWell .version2 oneSeven [(1, 7)] :=
  (doesWell_iff .version2 (.insertRange .input 1 [8, 9]) shows_oneSeven
    (show 1 ∈ [0, 1] by decide) (by decide)).mpr (fun h => by cases h.2.1)

/-- **`resize(2, 9)` of one element leaves three.** -/
theorem not_doesWell_oneSeven :
    ¬ ∀ (version : AllocVersion) (e : Edit ℕ ℕ) (s : State ℕ ℕ) (cells : List (ℕ × ℕ)),
      s.Shows cells → e.Valid s cells → e.grows cells ≤ s.supply.length →
        e.DoesWell version s cells :=
  fun h => not_doesWell_resizeWith shows_oneSeven (by decide) (by decide)
    (h .version1 (.resizeWith 2 9) oneSeven [(1, 7)] shows_oneSeven trivial (by decide))

end Slist
