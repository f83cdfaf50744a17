import BoostContainer.Segmented.SegmentedMerge

/-!
# Merges and set operations, whatever the segments are

The walks over the segments hand on where the operation is in the two ranges and
in the destination. As long as they do, the turns put together are those of the
operation on ranges that are not cut (`segmentedSetOperation_eq`).

There are two places where they do not. Inside a segment of the destination that
is itself cut, the helper of the merge gives its last call the positions with
which it was itself called. And where the destination is full, the walk over its
segments goes to the next before it sees that there is nothing more to do; the
merge then has something left to write, but a set operation need not.
-/

namespace Segmented

open Segments Segmentation

variable {α : Type*}

/-! ## Walks -/

/-- The output is put somewhere else. -/
def Trio.put (a : ℕ) (s : Trio α) : Trio α := ⟨s.first, s.second, (s.third.1, a)⟩

/-- A helper at the bottom: two ends, and one of the destination. -/
abbrev TrioLeaf (α : Type*) := ℕ → ℕ → Option ℕ → Trio α → Option (Trio α)

/-- **`merge_dst_bounded`** for a part of the destination that is cut. The last segment
is merged from where the first was. -/
def segDstBounded (leaf : TrioLeaf α) (last1 last2 : ℕ) :
    (d : ℕ) → ℕ → Segmentation d → ℕ → Trio α → Option (Trio α)
  | 0, _, _, dstLast, s => leaf last1 last2 (some dstLast) s
  | d + 1, o, c, dstLast, s =>
    let sfirst := segmentAt o c s.third.2
    let slast := segmentAt o c dstLast
    (walkAt o c s.third.2 dstLast (fun k a b r =>
      (segDstBounded leaf last1 last2 d (beginAt o c k) (c.child k) b
        (if sfirst ≠ slast ∧ k = slast then ⟨s.first, s.second, (r.third.1, a)⟩
          else r.put a)).map (fun r =>
        if r.first = last1 ∨ r.second = last2 then Scan.done r else Scan.more r)) s).map Scan.result

/-- **`merge_until_exhausts`** and its like: the segments of the destination are
filled, until one is not full. -/
def untilExhausts (leaf : TrioLeaf α) (last1 last2 : ℕ) :
    (d : ℕ) → ℕ → Segmentation d → Trio α → Option (Trio α)
  | 0, _, _, s => leaf last1 last2 none s
  | d + 1, o, c, s =>
    if s.first = last1 ∨ s.second = last2 then some s
    else walkOnAt o c s.third.2 (fun k a b s =>
      (segDstBounded leaf last1 last2 d (beginAt o c k) (c.child k) b (s.put a)).map (fun r =>
        if r.third.2 ≠ b then Scan.done r else Scan.more r)) s

/-- **`merge_seg2_dispatch`** and its like: the segments of the second range. -/
def seg2Dispatch (leaf : TrioLeaf α) {dD : ℕ} (oD : ℕ) (cD : Segmentation dD) (last1 : ℕ) :
    (d : ℕ) → ℕ → Segmentation d → ℕ → Trio α → Option (Trio α)
  | 0, _, _, last2, s => untilExhausts leaf last1 last2 dD oD cD s
  | d + 1, o, c, last2, s =>
    if s.first = last1 ∨ s.second = last2 then some s
    else (walkAt o c s.second last2 (fun k a b r =>
      (seg2Dispatch leaf oD cD last1 d (beginAt o c k) (c.child k) b ⟨r.first, a, r.third⟩).map
        (fun r => if r.first = last1 then Scan.done r else Scan.more r)) s).map Scan.result

/-- **`merge_scan`** and its like: the segments of the first range. -/
def mergeScan (leaf : TrioLeaf α) {d2 dD : ℕ} (o2 : ℕ) (c2 : Segmentation d2) (oD : ℕ)
    (cD : Segmentation dD) (last2 : ℕ) :
    (d : ℕ) → ℕ → Segmentation d → ℕ → Trio α → Option (Trio α)
  | 0, _, _, last1, s => seg2Dispatch leaf oD cD last1 d2 o2 c2 last2 s
  | d + 1, o, c, last1, s =>
    if s.first = last1 ∨ s.second = last2 then some s
    else (walkAt o c s.first last1 (fun k a b r =>
      (mergeScan leaf o2 c2 oD cD last2 d (beginAt o c k) (c.child k) b ⟨a, r.second, r.third⟩).map
        (fun r => if r.second = last2 then Scan.done r else Scan.more r)) s).map Scan.result

/-- **`segmented_merge`, `segmented_set_union`, `segmented_set_intersection`,
`segmented_set_difference`** and **`segmented_set_symmetric_difference`**. A range
that ends with a sentinel is walked as one that is not cut. -/
def segmentedSetOperation (op : SetOperation) (comp : α → α → Bool) (dualRA1 dualRA2 : Bool)
    {d1 d2 dD : ℕ} (o1 : ℕ) (c1 : Segmentation d1) (o2 : ℕ) (c2 : Segmentation d2) (oD : ℕ)
    (cD : Segmentation dD) (mem : Memory α) (first1 last1 first2 last2 result : ℕ) :
    Option (Output α) :=
  (mergeScan (op.dstBounded comp) o2 c2 oD cD last2 d1 o1 c1 last1
    ⟨first1, first2, (mem, result)⟩).bind (fun r =>
    (if op.drainsFirst ∧ r.first ≠ last1 then
      segmentedCopy dualRA1 false o1 c1 oD cD r.third.1 r.first last1 r.third.2
    else some r.third).bind (fun out =>
      if op.drainsSecond ∧ r.second ≠ last2 then
        segmentedCopy dualRA2 false o2 c2 oD cD out.1 r.second last2 out.2
      else some out))

/-- The algorithms on ranges that are not cut. -/
def setOperation (op : SetOperation) (comp : α → α → Bool) (mem : Memory α)
    (first1 last1 first2 last2 result : ℕ) : Option (Output α) :=
  (setDstBounded (op.turn comp) last1 last2 none ⟨first1, first2, (mem, result)⟩).bind (fun r =>
    (if op.drainsFirst then runRange copyStep r.first last1 r.third else some r.third).bind
      (fun out => if op.drainsSecond then runRange copyStep r.second last2 out else some out))

/-! ## Where a merge starts again -/

/-- A position at which the merge into a part of the destination that is cut starts
again: the begin of the last segment of the part, or of a part of the part. -/
def RestartAt : (d : ℕ) → ℕ → Segmentation d → ℕ → Prop
  | 0, _, _, _ => False
  | d + 1, o, c, p =>
    o < p ∧ p = beginAt o c (segmentAt o c (o + size (d + 1) c))
      ∨ ∃ k, RestartAt d (beginAt o c k) (c.child k) p

/-- A position of a destination at which a merge starts again. -/
def Restarts : (d : ℕ) → ℕ → Segmentation d → ℕ → Prop
  | 0, _, _, _ => False
  | d + 1, o, c, p => ∃ k, RestartAt d (beginAt o c k) (c.child k) p

/-- A destination whose segments are not cut has none. -/
theorem not_restarts {d o : ℕ} {c : Segmentation d} (h : d ≤ 1) (p : ℕ) : ¬ Restarts d o c p := by
  cases d with
  | zero => exact id
  | succ d =>
    obtain rfl : d = 0 := by omega
    rintro ⟨k, hk⟩
    exact hk

/-- **A run is clear**: a turn that writes up to a position at which the merge starts
again uses up a part of one of its ranges. -/
def Clear (step : Trio α → Option (Trio α)) (last1 last2 : ℕ) (E1 E2 R : ℕ → Prop)
    (s : Trio α) : Prop :=
  ∀ t u, Runs step last1 last2 s t → Turned step last1 last2 t u → R u.third.2 →
    t.first < u.first ∧ E1 u.first ∨ t.second < u.second ∧ E2 u.second

/-- A part of a range from `x` to `l` has no end of a part inside. -/
def Whole (E : ℕ → Prop) (x l : ℕ) : Prop := ∀ p, x < p → p ≤ l → E p → p = l

/-- The end of a part of a range: of a segment at the bottom, or of the range. -/
def EndOf {d : ℕ} (o : ℕ) (c : Segmentation d) (last p : ℕ) : Prop := p = last ∨ ∃ a, Leaf d o c a p

section Walks

variable {step : Trio α → Option (Trio α)} {leaf : TrioLeaf α} {last1 last2 l1 l2 d o : ℕ}
  {c : Segmentation d} {m s t : Trio α} {E1 E2 R : ℕ → Prop}

theorem Clear.of_runs (h : Clear step last1 last2 E1 E2 R s) (hruns : Runs step last1 last2 s t) :
    Clear step last1 last2 E1 E2 R t := fun t' u' hruns' => h t' u' (hruns.trans hruns')

/-- In parts without ends inside, a turn up to such a position uses up a part. -/
theorem Clear.ended (hstep : GetsOn step) (h : Clear step last1 last2 E1 E2 R s)
    (hl1 : l1 ≤ last1) (hl2 : l2 ≤ last2) (hw1 : Whole E1 s.first l1) (hw2 : Whole E2 s.second l2)
    {u : Trio α} (hruns : Runs step l1 l2 s t) (hturn : Turned step l1 l2 t u)
    (hu : R u.third.2) : Ended l1 l2 u := by
  have hle := hruns.le hstep
  have hreads := hstep.reads hturn.2.2
  have h1 := hturn.1
  have h2 := hturn.2.1
  rcases h t u (hruns.mono hl1 hl2) (hturn.mono hl1 hl2) hu with ⟨hlt, hE⟩ | ⟨hlt, hE⟩
  · exact Or.inl (hw1 _ (hle.1.trans_lt hlt) (by omega) hE)
  · exact Or.inr (hw2 _ (hle.2.1.trans_lt hlt) (by omega) hE)

/-- **A part of the destination that is cut is filled as one that is not**, where each
turn up to a position at which the merge starts again uses up a part of a
range. -/
theorem segDstBounded_yields (hstep : GetsOn step) (hleaf : MakesTurns step leaf)
    (hm : Ended last1 last2 m) (hs : LeadsTo step last1 last2 m s) (hl1 : l1 ≤ last1)
    (hl2 : l2 ≤ last2) (h1 : s.first ≤ l1) (h2 : s.second ≤ l2) (ho : o ≤ s.third.2)
    (hle : s.third.2 ≤ o + size d c)
    (hwrites : 0 < d → ∀ {t u}, step t = some u → t.third.2 < u.third.2)
    (hfree : ∀ t u, Runs step l1 l2 s t → Turned step l1 l2 t u → RestartAt d o c u.third.2 →
      Ended l1 l2 u) :
    (segDstBounded leaf l1 l2 d o c (o + size d c) s).Yields
      (MadeTurns step l1 l2 (some (o + size d c)) s) := by
  induction d generalizing o s with
  | zero => exact hleaf hm hs hl1 hl2 h1 h2 (fun e he => (Option.some.inj he) ▸ hle)
  | succ d ih =>
    refine (walkAt_yields_rest (P := fun q t => Runs step l1 l2 s t ∧ t.first ≤ l1
        ∧ t.second ≤ l2 ∧ t.third.2 = q ∧ (Ended l1 l2 t → t = s))
      (R := fun q t => Runs step l1 l2 s t ∧ t.first ≤ l1
        ∧ t.second ≤ l2 ∧ t.third.2 = q ∧ (Ended l1 l2 t → t = s))
      (Q := MadeTurns step l1 l2 (some (o + size (d + 1) c)) s) (fun _ _ h => h) ho hle ?_
      ⟨Relation.ReflTransGen.refl, h1, h2, rfl, fun _ => rfl⟩).map ?_
    · rintro k a t hka hak hpart hsa ⟨hruns, ht1, ht2, rfl, hend⟩
      -- starting again changes nothing: no turn was made, or a part was used up
      have hstart : (if segmentAt o c s.third.2 ≠ segmentAt o c (o + size (d + 1) c)
            ∧ k = segmentAt o c (o + size (d + 1) c)
          then (⟨s.first, s.second, (t.third.1, t.third.2)⟩ : Trio α)
          else t.put t.third.2) = t := by
        split
        · next hk =>
          rcases Relation.ReflTransGen.cases_tail hruns with rfl | ⟨t', hruns', hturn⟩
          · rfl
          · have hlt := (Runs.le hstep hruns').2.2.trans_lt (hwrites (Nat.succ_pos d) hturn.2.2)
            have hbegin : t.third.2 = beginAt o c k := hpart.resolve_right hlt.ne'
            have hended := hfree t' t hruns' hturn
              (Or.inl ⟨ho.trans_lt hlt, hk.2 ▸ hbegin⟩)
            rw [hend hended]
        · rfl
      rw [hstart, ← beginAt_add_size]
      refine (ih (hs.of_runs hstep hm hl1 hl2 hruns) ht1 ht2 hka (by rwa [beginAt_add_size])
        (fun _ => hwrites (Nat.succ_pos d))
        (fun t' u' hruns' hturn' hu' => hfree t' u' (hruns.trans hruns') hturn'
          (Or.inr ⟨k, hu'⟩))).map (fun r hr => ?_)
      rw [beginAt_add_size] at hr ⊢
      have hpos := hr.le_dst _ rfl
      split
      · next hended =>
        exact ⟨hruns.trans hr.runs, hr.le1, hr.le2,
          fun e he => (Option.some.inj he) ▸ hpos.trans (endAt_le o c k), Or.inl hended⟩
      · next hended =>
        have hfull := hr.stop.resolve_left hended
        exact ⟨hruns.trans hr.runs, hr.le1, hr.le2, (Option.some.inj hfull).symm,
          fun h => absurd h hended⟩
    · intro e he
      cases e with
      | more t =>
        exact ⟨he.1, he.2.1, he.2.2.1, fun e h => (Option.some.inj h) ▸ he.2.2.2.1.le,
          Or.inr (congrArg some he.2.2.2.1.symm)⟩
      | done t => exact he

/-- **Turns were made until a part was used up.** -/
structure Exhausts (step : Trio α → Option (Trio α)) (l1 l2 : ℕ) (s t : Trio α) : Prop where
  runs : Runs step l1 l2 s t
  le1 : t.first ≤ l1
  le2 : t.second ≤ l2
  ended : Ended l1 l2 t

/-- A part that is used up stays as it is. -/
theorem Exhausts.refl (h1 : s.first ≤ l1) (h2 : s.second ≤ l2) (h : Ended l1 l2 s) :
    Exhausts step l1 l2 s s := ⟨Relation.ReflTransGen.refl, h1, h2, h⟩

/-- **The segments of the destination are filled until a part is used up.** -/
theorem untilExhausts_yields (hstep : GetsOn step) (hleaf : MakesTurns step leaf)
    (hm : Ended last1 last2 m) (hs : LeadsTo step last1 last2 m s) (hl1 : l1 ≤ last1)
    (hl2 : l2 ≤ last2) (h1 : s.first ≤ l1) (h2 : s.second ≤ l2) (ho : o ≤ s.third.2)
    (hroom : 0 < d → m.third.2 < o + size d c) (hseg : HasSegment d c)
    (hwrites : 1 < d → ∀ {t u}, step t = some u → t.third.2 < u.third.2)
    (hfree : ∀ t u, Runs step l1 l2 s t → Turned step l1 l2 t u → Restarts d o c u.third.2 →
      Ended l1 l2 u) :
    (untilExhausts leaf l1 l2 d o c s).Yields (Exhausts step l1 l2 s) := by
  cases d with
  | zero =>
    have hnone : ∀ e, (none : Option ℕ) = some e → s.third.2 ≤ e := fun e he => nomatch he
    exact (hleaf hm hs hl1 hl2 h1 h2 hnone).imp (fun r hr =>
      ⟨hr.runs, hr.le1, hr.le2, hr.stop.resolve_right (fun h => nomatch h)⟩)
  | succ d =>
    rw [untilExhausts]
    split
    · next hend => exact Option.yields_some (Exhausts.refl h1 h2 hend)
    · next hgo =>
      have hlim := hroom (Nat.succ_pos d)
      have hsm := hs.third_le hstep
      refine walkOnAt_yields (P := fun q t => Runs step l1 l2 s t ∧ t.first ≤ l1 ∧ t.second ≤ l2
        ∧ t.third.2 = q) ho (hsm.trans hlim.le) hseg ?_
        ⟨Relation.ReflTransGen.refl, h1, h2, rfl⟩
      rintro k a t hka hak - ⟨hruns, ht1, ht2, rfl⟩
      have hput : t.put t.third.2 = t := rfl
      rw [hput, ← beginAt_add_size]
      refine (segDstBounded_yields hstep hleaf hm (hs.of_runs hstep hm hl1 hl2 hruns) hl1 hl2 ht1
        ht2 hka (by rwa [beginAt_add_size]) (fun hd => hwrites (Nat.succ_lt_succ hd))
        (fun t' u' hruns' hturn' hu' => hfree t' u' (hruns.trans hruns') hturn' ⟨k, hu'⟩)).map
        (fun r hr => ?_)
      rw [beginAt_add_size] at hr ⊢
      have hrm := (hs.of_runs hstep hm hl1 hl2 (hruns.trans hr.runs)).third_le hstep
      split
      · next hne =>
        exact ⟨hruns.trans hr.runs, hr.le1, hr.le2,
          hr.stop.resolve_right (fun h => hne (Option.some.inj h).symm)⟩
      · next heq =>
        have hfull := not_not.mp heq
        exact ⟨by omega, hruns.trans hr.runs, hr.le1, hr.le2, hfull⟩

/-- What an operation needs of its destination. -/
structure Room (step : Trio α → Option (Trio α)) {dD : ℕ} (oD : ℕ) (cD : Segmentation dD)
    (m : Trio α) (result : ℕ) : Prop where
  le : oD ≤ result
  room : 0 < dD → m.third.2 < oD + size dD cD
  seg : HasSegment dD cD
  writes : 1 < dD → ∀ {t u}, step t = some u → t.third.2 < u.third.2

/-- A part of a range is in one segment at the bottom of it. -/
def InLeaves (E : ℕ → Prop) (last : ℕ) {d : ℕ} (o : ℕ) (c : Segmentation d) : Prop :=
  ∀ a b x l, Leaf d o c a b → a ≤ x → l ≤ b → l = b ∨ l = last → l ≤ last → Whole E x l

theorem InLeaves.child {c : Segmentation (d + 1)} {E : ℕ → Prop} {last : ℕ}
    (h : InLeaves E last o c) (k : ℕ) : InLeaves E last (beginAt o c k) (c.child k) :=
  fun a b x l hab => h a b x l ⟨k, hab⟩

theorem Whole.mono {E : ℕ → Prop} {x y l : ℕ} (h : Whole E x l) (hxy : x ≤ y) : Whole E y l :=
  fun p hp => h p (hxy.trans_lt hp)

/-- The part of a walk over a range ends with its segment, or with the range. -/
theorem endAt_or_last {c : Segmentation (d + 1)} {k b l last : ℕ} (hbk : b ≤ endAt o c k)
    (hb : b = endAt o c k ∨ b = l) (hl : l = o + size (d + 1) c ∨ l = last) :
    b = beginAt o c k + size d (c.child k) ∨ b = last := by
  have hend := endAt_le o c k
  rw [beginAt_add_size]
  omega

/-- **The second range is walked until a part is used up.** -/
theorem seg2Dispatch_yields {dD oD : ℕ} {cD : Segmentation dD} (hstep : GetsOn step)
    (hleaf : MakesTurns step leaf) (hm : Ended last1 last2 m)
    (hs : LeadsTo step last1 last2 m s) (hout : Room step oD cD m s.third.2)
    (hclear : Clear step last1 last2 E1 E2 (Restarts dD oD cD) s)
    (hl1 : l1 ≤ last1) (hl2 : l2 ≤ last2) (h1 : s.first ≤ l1) (h2 : s.second ≤ l2)
    (hw1 : Whole E1 s.first l1) (hin2 : InLeaves E2 last2 o c) (ho : o ≤ s.second)
    (hsize : l2 ≤ o + size d c) (hend : l2 = o + size d c ∨ l2 = last2) :
    (seg2Dispatch leaf oD cD l1 d o c l2 s).Yields (Exhausts step l1 l2 s) := by
  induction d generalizing o l2 s with
  | zero =>
    have hw2 : Whole E2 s.second l2 := hin2 _ _ _ _ ⟨rfl, rfl⟩ ho hsize hend hl2
    exact untilExhausts_yields hstep hleaf hm hs hl1 hl2 h1 h2 hout.le hout.room hout.seg
      hout.writes (fun t u hruns hturn hu => hclear.ended hstep hl1 hl2 hw1 hw2 hruns hturn hu)
  | succ d ih =>
    rw [seg2Dispatch]
    split
    · next hended => exact Option.yields_some (Exhausts.refl h1 h2 hended)
    · next hgo =>
      refine (walkAt_yields_parts
        (P := fun q t => Runs step l1 l2 s t ∧ t.first ≤ l1 ∧ t.second = q)
        (R := fun q t => Runs step l1 l2 s t ∧ t.first ≤ l1 ∧ t.second = q)
        (Q := Exhausts step l1 l2 s) (fun _ _ h => h) ho h2 hsize ?_
        ⟨Relation.ReflTransGen.refl, h1, rfl⟩).map ?_
      · rintro k a b t hab hka hbk - hb hfa hbl ⟨hruns, ht1, rfl⟩
        have hlead := hs.of_runs hstep hm hl1 hl2 hruns
        have hle := Runs.le hstep hruns
        refine (ih hlead ⟨hout.le.trans hle.2.2, hout.room, hout.seg, hout.writes⟩
          (hclear.of_runs (Runs.mono hl1 hl2 hruns)) (hbl.trans hl2) ht1 hab (hw1.mono hle.1)
          (hin2.child k) hka (by rwa [beginAt_add_size]) (endAt_or_last hbk hb hend)).map
          (fun r hr => ?_)
        have hruns' := hruns.trans (Runs.mono le_rfl hbl hr.runs)
        split
        · next hfirst => exact ⟨hruns', hr.le1, hr.le2.trans hbl, Or.inl hfirst⟩
        · next hfirst => exact ⟨hruns', hr.le1, hr.ended.resolve_left hfirst⟩
      · intro e he
        cases e with
        | more t => exact ⟨he.1, he.2.1, he.2.2.le, Or.inr he.2.2⟩
        | done t => exact he

/-- **The first range is walked until a range is used up.** -/
theorem mergeScan_yields {d2 dD o2 oD : ℕ} {c2 : Segmentation d2} {cD : Segmentation dD}
    (hstep : GetsOn step) (hleaf : MakesTurns step leaf) (hm : Ended last1 last2 m)
    (hs : LeadsTo step last1 last2 m s) (hout : Room step oD cD m s.third.2)
    (hclear : Clear step last1 last2 E1 E2 (Restarts dD oD cD) s)
    (hl1 : l1 ≤ last1) (h1 : s.first ≤ l1) (hin1 : InLeaves E1 last1 o c) (ho : o ≤ s.first)
    (hsize : l1 ≤ o + size d c) (hend : l1 = o + size d c ∨ l1 = last1)
    (hin2 : InLeaves E2 last2 o2 c2) (ho2 : o2 ≤ s.second) (hsize2 : last2 ≤ o2 + size d2 c2) :
    (mergeScan leaf o2 c2 oD cD last2 d o c l1 s).Yields (Exhausts step l1 last2 s) := by
  induction d generalizing o l1 s with
  | zero =>
    have hw1 : Whole E1 s.first l1 := hin1 _ _ _ _ ⟨rfl, rfl⟩ ho hsize hend hl1
    exact seg2Dispatch_yields hstep hleaf hm hs hout hclear hl1 le_rfl h1 hs.le2 hw1 hin2 ho2
      hsize2 (Or.inr rfl)
  | succ d ih =>
    rw [mergeScan]
    split
    · next hended => exact Option.yields_some (Exhausts.refl h1 hs.le2 hended)
    · next hgo =>
      refine (walkAt_yields_parts
        (P := fun q t => Runs step l1 last2 s t ∧ t.second ≤ last2 ∧ t.first = q)
        (R := fun q t => Runs step l1 last2 s t ∧ t.second ≤ last2 ∧ t.first = q)
        (Q := Exhausts step l1 last2 s) (fun _ _ h => h) ho h1 hsize ?_
        ⟨Relation.ReflTransGen.refl, hs.le2, rfl⟩).map ?_
      · rintro k a b t hab hka hbk - hb hfa hbl ⟨hruns, ht2, rfl⟩
        have hlead := hs.of_runs hstep hm hl1 le_rfl hruns
        have hle := Runs.le hstep hruns
        refine (ih hlead ⟨hout.le.trans hle.2.2, hout.room, hout.seg, hout.writes⟩
          (hclear.of_runs (Runs.mono hl1 le_rfl hruns)) (hbl.trans hl1) hab (hin1.child k) hka
          (by rwa [beginAt_add_size]) (endAt_or_last hbk hb hend) (ho2.trans hle.2.1)).map
          (fun r hr => ?_)
        have hruns' := hruns.trans (Runs.mono hbl le_rfl hr.runs)
        split
        · next hsecond => exact ⟨hruns', hr.le1.trans hbl, hr.le2, Or.inr hsecond⟩
        · next hsecond => exact ⟨hruns', hr.le2, hr.ended.resolve_right hsecond⟩
      · intro e he
        cases e with
        | more t => exact ⟨he.1, he.2.2.le, he.2.1, Or.inl he.2.2⟩
        | done t => exact he

/-- Where a range is used up before, nothing is done. -/
theorem mergeScan_of_ended {d2 dD o2 oD : ℕ} {c2 : Segmentation d2} {cD : Segmentation dD}
    (hleaf : MakesTurns step leaf) (h1 : s.first ≤ last1) (h2 : s.second ≤ last2)
    (h : Ended last1 last2 s) :
    mergeScan leaf o2 c2 oD cD last2 d o c last1 s = some s := by
  have hended : s.first = last1 ∨ s.second = last2 := h
  cases d with
  | succ d => rw [mergeScan, if_pos hended]
  | zero =>
    rw [mergeScan]
    cases d2 with
    | succ d2 => rw [seg2Dispatch, if_pos hended]
    | zero =>
      rw [seg2Dispatch]
      cases dD with
      | succ dD => rw [untilExhausts, if_pos hended]
      | zero =>
        have hnone : ∀ e, (none : Option ℕ) = some e → s.third.2 ≤ e := fun e he => nomatch he
        have hlead : LeadsTo step last1 last2 s s := ⟨h1, h2, Relation.ReflTransGen.refl⟩
        refine Option.yields_iff_of_unique (Q := (· = s)) (fun _ h => h)
          ((hleaf h hlead le_rfl le_rfl h1 h2 hnone).imp (fun r hr => ?_))
        rcases Relation.ReflTransGen.cases_head hr.runs with rfl | ⟨t, hturn, -⟩
        · rfl
        · rcases h with h | h
          · exact absurd h hturn.1.ne
          · exact absurd h hturn.2.1.ne

/-- A part of a range is in one segment at its bottom. -/
theorem inLeaves_endOf (o : ℕ) (c : Segmentation d) (last : ℕ) :
    InLeaves (EndOf o c last) last o c := by
  intro a b x l hab hax hlb _ hll p hxp hpl hp
  rcases hp with rfl | ⟨a', hp⟩
  · exact le_antisymm hpl hll
  · have hle := hp.le
    rcases hab.eq_or_le hp with ⟨-, rfl⟩ | h | h
    · exact le_antisymm hpl hlb
    · omega
    · omega

end Walks

/-! ## The operations -/

section Operations

variable {op : SetOperation} {comp : α → α → Bool} {dualRA1 dualRA2 : Bool} {d1 d2 dD o1 o2 oD : ℕ}
  {c1 : Segmentation d1} {c2 : Segmentation d2} {cD : Segmentation dD} {mem : Memory α}
  {first1 last1 first2 last2 result : ℕ} {s t m : Trio α}

/-- **What is left of a range is copied.** -/
theorem drain_eq {drains dualRA : Bool} {dS oS first last : ℕ} {cS : Segmentation dS}
    {u v : Output α} (hsrc : Positions oS cS first last)
    (hrun : (if drains then runRange copyStep first last u else some u) = some v)
    (hout : OutRange oD cD u.2 v.2) :
    (if drains ∧ first ≠ last then segmentedCopy dualRA false oS cS oD cD u.1 first last u.2
      else some u) = some v := by
  cases drains with
  | false => exact hrun
  | true =>
    rw [if_pos rfl] at hrun
    split
    · exact segmentedCopy_eq dualRA hsrc hrun hout
    · next h =>
      obtain rfl : first = last := not_not.mp (fun hne => h ⟨rfl, hne⟩)
      rw [runRange_self] at hrun
      exact hrun

/-- What is copied, or not, is written behind the rest. -/
theorem le_of_drain {drains : Bool} {first last : ℕ} {u v : Output α} (hle : first ≤ last)
    (hrun : (if drains then runRange copyStep first last u else some u) = some v) : u.2 ≤ v.2 := by
  split at hrun
  · exact advancing_copyStep.le_of_runRange hle hrun
  · exact (congrArg Prod.snd (Option.some.inj hrun)).le

/-- A merge reads one element in a turn, and writes it. -/
theorem mergeStep_merge (h : mergeStep (SetOperation.merge.turn comp) s = some t) :
    t.first + t.second = s.first + s.second + 1 ∧ t.third.2 = s.third.2 + 1 := by
  obtain ⟨x1, -, h⟩ := Option.bind_eq_some_iff.mp h
  obtain ⟨x2, -, rfl⟩ := Option.map_eq_some_iff.mp h
  rw [SetOperation.turn]
  split
  · exact ⟨rfl, rfl⟩
  · exact ⟨Nat.add_right_comm _ _ _, rfl⟩

/-- **A merge never uses up both ranges.** -/
theorem merge_rest (h1 : s.first < last1) (h2 : s.second < last2)
    (hruns : Runs (mergeStep (SetOperation.merge.turn comp)) last1 last2 s m) :
    m.first < last1 ∨ m.second < last2 := by
  rcases Relation.ReflTransGen.cases_tail hruns with rfl | ⟨t, -, hturn⟩
  · exact Or.inl h1
  · have hread := (mergeStep_merge hturn.2.2).1
    have := hturn.1
    have := hturn.2.1
    omega

/-- **After the turns of a merge there is something left to write.** -/
theorem lt_of_drains {out t : Output α} (h1 : s.first < last1) (h2 : s.second < last2)
    (h : MadeTurns (mergeStep (SetOperation.merge.turn comp)) last1 last2 none s m)
    (hdrain1 : runRange copyStep m.first last1 m.third = some out)
    (hdrain2 : runRange copyStep m.second last2 out = some t) : m.third.2 < t.2 := by
  have hout := snd_of_runRange_copyStep h.le1 hdrain1
  have ht := snd_of_runRange_copyStep h.le2 hdrain2
  rcases merge_rest h1 h2 h.runs with hlt | hlt
  · omega
  · omega

/-- The helper of each operation makes turns as far as there is room for. -/
theorem makesTurns_dstBounded (op : SetOperation) (comp : α → α → Bool) :
    MakesTurns (mergeStep (op.turn comp)) (op.dstBounded comp) := by
  cases op with
  | merge => exact makesTurns_mergeDstBounded
  | setUnion => exact makesTurns_setDstBounded (SetOperation.getsOn _ comp)
  | setIntersection => exact makesTurns_setDstBounded (SetOperation.getsOn _ comp)
  | setDifference => exact makesTurns_setDstBounded (SetOperation.getsOn _ comp)
  | setSymmetricDifference => exact makesTurns_setDstBounded (SetOperation.getsOn _ comp)

/-- **A merge or a set operation on segmented ranges is the one on ranges that are not
cut.** -/
theorem segmentedSetOperation_eq {t : Output α} (hsrc1 : Positions o1 c1 first1 last1)
    (hsrc2 : Positions o2 c2 first2 last2)
    (hrun : setOperation op comp mem first1 last1 first2 last2 result = some t)
    (hout : OutRange oD cD result t.2) (hdepth : op = SetOperation.merge ∨ dD ≤ 1)
    (hroom : op ≠ SetOperation.merge → 0 < dD → first1 = last1 ∨ first2 = last2
      ∨ ∀ m,
        setDstBounded (op.turn comp) last1 last2 none ⟨first1, first2, (mem, result)⟩ = some m →
        m.third.2 < oD + size dD cD)
    (hclear : 1 < dD → Clear (mergeStep (op.turn comp)) last1 last2 (EndOf o1 c1 last1)
      (EndOf o2 c2 last2) (Restarts dD oD cD) ⟨first1, first2, (mem, result)⟩) :
    segmentedSetOperation op comp dualRA1 dualRA2 o1 c1 o2 c2 oD cD mem first1 last1 first2 last2
      result = some t := by
  have hstep := op.getsOn comp
  have hleaf : MakesTurns (mergeStep (op.turn comp)) (op.dstBounded comp) :=
    makesTurns_dstBounded op comp
  obtain ⟨m, hm, hrun⟩ := Option.bind_eq_some_iff.mp hrun
  obtain ⟨out, hdrain1, hdrain2⟩ := Option.bind_eq_some_iff.mp hrun
  have hmade := madeTurns_of_setDstBounded hstep hsrc1.le hsrc2.le hm
  have hended : Ended last1 last2 m := hmade.stop.resolve_right (fun h => nomatch h)
  have hlead : LeadsTo (mergeStep (op.turn comp)) last1 last2 m ⟨first1, first2, (mem, result)⟩ :=
    ⟨hsrc1.le, hsrc2.le, hmade.runs⟩
  have hle := Runs.le hstep hmade.runs
  simp only at hle
  have hclear' : Clear (mergeStep (op.turn comp)) last1 last2 (EndOf o1 c1 last1)
      (EndOf o2 c2 last2) (Restarts dD oD cD) ⟨first1, first2, (mem, result)⟩ := by
    by_cases hd : 1 < dD
    · exact hclear hd
    · intro t u _ _ hu
      exact absurd hu (not_restarts (Nat.le_of_not_lt hd) _)
  have hmo := le_of_drain hmade.le1 hdrain1
  have hot := le_of_drain hmade.le2 hdrain2
  have hscan : mergeScan (op.dstBounded comp) o2 c2 oD cD last2 d1 o1 c1 last1
      ⟨first1, first2, (mem, result)⟩ = some m := by
    by_cases hstart : Ended last1 last2 (⟨first1, first2, (mem, result)⟩ : Trio α)
    · rw [← hlead.eq_of_ended hstart]
      exact mergeScan_of_ended hleaf hsrc1.le hsrc2.le hstart
    · have hroom' : 0 < dD → m.third.2 < oD + size dD cD := by
        intro hd
        by_cases hop : op = SetOperation.merge
        · subst hop
          exact (lt_of_drains (lt_of_le_of_ne hsrc1.le (fun h => hstart (Or.inl h)))
            (lt_of_le_of_ne hsrc2.le (fun h => hstart (Or.inr h))) hmade hdrain1
            hdrain2).trans_le (hout.room hd)
        · rcases hroom hop hd with h | h | h
          · exact absurd (Or.inl h) hstart
          · exact absurd (Or.inr h) hstart
          · exact h m hm
      refine Option.yields_iff_of_unique (Q := (· = m)) (fun _ h => h)
        ((mergeScan_yields hstep hleaf hended hlead ⟨hout.le, hroom', hout.seg, ?_⟩ hclear' le_rfl
        hsrc1.le (inLeaves_endOf o1 c1 last1) hsrc1.ge hsrc1.le_size (Or.inr rfl)
        (inLeaves_endOf o2 c2 last2) hsrc2.ge hsrc2.le_size).imp (fun r hr => ?_))
      · intro hd t u hturn
        obtain rfl := hdepth.resolve_right (by omega)
        rw [(mergeStep_merge hturn).2]
        exact Nat.lt_succ_self _
      · exact (hlead.of_runs hstep hended le_rfl le_rfl hr.runs).eq_of_ended hr.ended
  rw [segmentedSetOperation, hscan, Option.bind_some,
    drain_eq ⟨hsrc1.ge.trans hle.1, hmade.le1, hsrc1.le_size⟩ hdrain1
      ⟨hout.le.trans hle.2.2, fun hd => hot.trans (hout.room hd), hout.seg⟩, Option.bind_some]
  exact drain_eq ⟨hsrc2.ge.trans hle.2.1, hmade.le2, hsrc2.le_size⟩ hdrain2
    ⟨hout.le.trans (hle.2.2.trans hmo), hout.room, hout.seg⟩

end Operations

/-- Two segments of two elements. -/
def twoAndTwo : Segmentation 1 := ([2, 2] : List ℕ)

/-- A segment of one element. -/
def oneOnly : Segmentation 1 := ([1] : List ℕ)

/-- A segment that is cut into two of one element, and one of three. -/
def oneOneThree : Segmentation 2 := ([([1, 1] : List ℕ), ([3] : List ℕ)] : List (List ℕ))

/-- A segmentation that is none. -/
def uncut (n : ℕ) : Segmentation 0 := n

/-- The numbers 0, 2 and 1, 3, and room behind them. -/
def evenOdd (p : ℕ) : Option ℕ :=
  if p < 2 then some (2 * p) else if p < 4 then some (2 * p - 3) else none

/-- Two sequences are merged into two segments. -/
theorem segmentedSetOperation_eq_four :
    segmentedSetOperation SetOperation.merge (fun x y => x < y) true true 0 (uncut 2) 2 (uncut 2) 4
        twoAndTwo evenOdd 0 2 2 4 4
      = some (Function.update (Function.update (Function.update (Function.update evenOdd 4 (some 0))
        5 (some 1)) 6 (some 2)) 7 (some 3), 8) :=
  segmentedSetOperation_eq ⟨by decide, by decide, by decide⟩ ⟨by decide, by decide, by decide⟩ rfl
    ⟨by decide, fun _ => by decide, List.cons_ne_nil _ _⟩ (Or.inl rfl) (fun h => absurd rfl h)
    (fun h => absurd h (by decide))

/-- The merge of two sequences into a segment that is itself cut writes elements
twice, and a union into a destination that it fills does not end in it. -/
theorem segmentedSetOperation_restart_full :
    (segmentedSetOperation SetOperation.merge (fun x y => x < y) true true 0 (uncut 2) 2 (uncut 2) 4
        oneOneThree evenOdd 0 2 2 4 4).map (fun t => (t.1 5, t.2)) = some (some 0, 9)
    ∧ (setOperation SetOperation.merge (fun x y => x < y) evenOdd 0 2 2 4 4).map
        (fun t => (t.1 5, t.2)) = some (some 1, 8)
    ∧ (segmentedSetOperation SetOperation.setUnion (fun x y => x < y) true true 0 (uncut 1) 0
        (uncut 1) 4 oneOnly evenOdd 0 1 0 1 4).isNone
    ∧ (setOperation SetOperation.setUnion (fun x y => x < y) evenOdd 0 1 0 1 4).map Prod.snd
        = some 5 := by
  decide

end Segmented
