import Mathlib

/-!
# Memory tiled by tagged chunks

A piece of memory is divided into chunks, one behind the other. The tag at the
begin of a chunk has its size, whether it is in use, and whether the chunk
before it is; no two chunks that are not in use touch. Nothing else says where
the chunks are: they are found by walking from tag to tag (`Row`).

What an allocator does to a chunk in use is to divide it (`Row.split`), or to free
it, when it joins the free chunks around it (`Row.free`). That the rest of the memory
stays as it is then needs no argument of its own: the tags of the other chunks have
not been written, but for what the one behind tells of the chunk before it.
-/

namespace BoundaryTags

/-- **The tag of a chunk.** -/
structure Tag where
  size : ℕ
  inuse : Bool
  prevInuse : Bool
  deriving DecidableEq

/-- A chunk, by its place. -/
@[ext]
structure Tile where
  pos : ℕ
  size : ℕ
  inuse : Bool
  deriving DecidableEq

/-- **A row of chunks** from one address to another, of sizes that are `ok`, behind a
chunk that is in use or not. -/
inductive Row (h : ℕ → Tag) (ok : ℕ → Prop) : Bool → ℕ → ℕ → List Tile → Prop
  | nil {u : Bool} {e : ℕ} (he : (h e).prevInuse = u) : Row h ok u e e []
  | cons {u : Bool} {p e : ℕ} {l : List Tile} (hok : ok (h p).size) (hpos : 0 < (h p).size)
      (hu : (h p).prevInuse = u) (hfree : u = true ∨ (h p).inuse = true)
      (hrow : Row h ok (h p).inuse (p + (h p).size) e l) :
      Row h ok u p e (⟨p, (h p).size, (h p).inuse⟩ :: l)

variable {h h' : ℕ → Tag} {ok : ℕ → Prop} {u : Bool} {p e : ℕ} {l l' : List Tile} {t t' : Tile}

namespace Row

theorem le (hr : Row h ok u p e l) : p ≤ e := by
  induction hr with
  | nil => exact le_rfl
  | cons _ _ _ _ _ ih => exact (Nat.le_add_right _ _).trans ih

/-- The tag at the begin of a row tells of the chunk before it. -/
theorem prevInuse_eq (hr : Row h ok u p e l) : (h p).prevInuse = u := by
  cases hr with
  | nil he => exact he
  | cons _ _ hu _ _ => exact hu

/-- Where a chunk of a row is. -/
theorem bounds (hr : Row h ok u p e l) (ht : t ∈ l) : p ≤ t.pos ∧ t.pos + t.size ≤ e := by
  induction hr with
  | nil => exact absurd ht List.not_mem_nil
  | cons _ _ _ _ hrow ih =>
    rcases List.mem_cons.mp ht with rfl | ht
    · exact ⟨le_rfl, hrow.le⟩
    · exact ⟨(Nat.le_add_right _ _).trans (ih ht).1, (ih ht).2⟩

/-- **What the tags say of a chunk of a row.** -/
theorem tag (hr : Row h ok u p e l) (ht : t ∈ l) : ok t.size ∧ 0 < t.size
    ∧ (h t.pos).size = t.size ∧ (h t.pos).inuse = t.inuse
    ∧ (h (t.pos + t.size)).prevInuse = t.inuse := by
  induction hr with
  | nil => exact absurd ht List.not_mem_nil
  | cons hok hpos _ _ hrow ih =>
    rcases List.mem_cons.mp ht with rfl | ht
    · exact ⟨hok, hpos, rfl, rfl, hrow.prevInuse_eq⟩
    · exact ih ht

/-- **Two chunks of a row are one, or apart.** -/
theorem eq_or_apart (hr : Row h ok u p e l) (ht : t ∈ l) (ht' : t' ∈ l) :
    t = t' ∨ t.pos + t.size ≤ t'.pos ∨ t'.pos + t'.size ≤ t.pos := by
  induction hr with
  | nil => exact absurd ht List.not_mem_nil
  | cons _ _ _ _ hrow ih =>
    rcases List.mem_cons.mp ht with rfl | ht
    · rcases List.mem_cons.mp ht' with rfl | ht'
      · exact Or.inl rfl
      · exact Or.inr (Or.inl (hrow.bounds ht').1)
    · rcases List.mem_cons.mp ht' with rfl | ht'
      · exact Or.inr (Or.inr (hrow.bounds ht).1)
      · exact ih ht ht'

/-- A row is found from its tags in one way only. -/
theorem unique (hr : Row h ok u p e l) (hr' : Row h ok u p e l') : l = l' := by
  induction hr generalizing l' with
  | nil =>
    cases hr' with
    | nil => rfl
    | cons _ hpos _ _ hrow => exact absurd hrow.le (by omega)
  | cons _ hpos _ _ hrow ih =>
    cases hr' with
    | nil => exact absurd hrow.le (by omega)
    | cons _ _ _ _ hrow' => rw [ih hrow']

/-- A row that begins with a tag. -/
theorem cons_of_tag {s : ℕ} {i : Bool} (ht : h p = ⟨s, i, u⟩) (hok : ok s) (hpos : 0 < s)
    (hfree : u = true ∨ i = true) (hrow : Row h ok i (p + s) e l) :
    Row h ok u p e (⟨p, s, i⟩ :: l) := by
  have hcons := @cons h ok u p e l
  rw [ht] at hcons
  exact hcons hok hpos rfl hfree hrow

/-- **Tags that are written elsewhere** do not change a row, whose end is only told of the
last chunk. -/
theorem congr_end (hr : Row h ok u p e l) (htag : ∀ t ∈ l, h' t.pos = h t.pos)
    (he : (h' e).prevInuse = (h e).prevInuse) : Row h' ok u p e l := by
  induction hr with
  | nil hu => exact nil (he.trans hu)
  | cons hok hpos hu hfree hrow ih =>
    refine cons_of_tag ?_ hok hpos hfree (ih (fun t ht => htag t (List.mem_cons_of_mem _ ht)) he)
    rw [← hu]
    exact htag _ List.mem_cons_self

theorem congr (hr : Row h ok u p e l) (htag : ∀ t ∈ l, h' t.pos = h t.pos) (he : h' e = h e) :
    Row h' ok u p e l :=
  hr.congr_end htag (congrArg Tag.prevInuse he)

/-- Two rows, one behind the other, are a row. -/
theorem append {m : ℕ} (hr : Row h ok u p m l) (hr' : Row h ok (h m).prevInuse m e l') :
    Row h ok u p e (l ++ l') := by
  induction hr with
  | nil he => exact he ▸ hr'
  | cons hok hpos hu hfree _ ih => exact cons hok hpos hu hfree (ih hr')

/-- **A row is divided** between any two of its chunks. -/
theorem exists_append (hr : Row h ok u p e (l ++ l')) :
    ∃ m, Row h ok u p m l ∧ Row h ok (h m).prevInuse m e l' := by
  induction l generalizing u p with
  | nil => exact ⟨p, nil hr.prevInuse_eq, hr.prevInuse_eq.symm ▸ hr⟩
  | cons t l ih =>
    cases hr with
    | cons hok hpos hu hfree hrow =>
      obtain ⟨m, hfront, hback⟩ := ih hrow
      exact ⟨m, cons hok hpos hu hfree hfront, hback⟩

/-- **A row is divided at one of its chunks.** -/
theorem exists_around {q s : ℕ} {i : Bool} (hr : Row h ok u p e l) (hq : ⟨q, s, i⟩ ∈ l) :
    ∃ l₁ l₂, l = l₁ ++ ⟨q, s, i⟩ :: l₂ ∧ Row h ok u p q l₁ ∧ Row h ok i (q + s) e l₂
      ∧ ((h q).prevInuse = true ∨ i = true) := by
  obtain ⟨l₁, l₂, rfl⟩ := List.append_of_mem hq
  obtain ⟨m, hfront, hback⟩ := hr.exists_append
  generalize hrest : (⟨q, s, i⟩ : Tile) :: l₂ = rest at hback
  cases hback with
  | nil => exact absurd hrest (List.cons_ne_nil _ _)
  | cons hok hpos hu hfree hrow =>
    obtain ⟨htile, rfl⟩ := List.cons.inj hrest
    obtain ⟨rfl, rfl, rfl⟩ := Tile.mk.inj htile
    exact ⟨l₁, l₂, rfl, hfront, hrow, hfree⟩

/-- **A chunk in use is divided into two**: one tag is made smaller, and one is
written inside the chunk. -/
theorem split {q a b : ℕ} (hr : Row h ok u p e l) (hq : ⟨q, a + b, true⟩ ∈ l)
    (ha : ok a) (hb : ok b) (hapos : 0 < a) (hbpos : 0 < b)
    (h1 : h' q = ⟨a, true, (h q).prevInuse⟩) (h2 : h' (q + a) = ⟨b, true, true⟩)
    (hrest : ∀ x, x ≠ q → x ≠ q + a → h' x = h x) :
    ∃ l', Row h' ok u p e l'
      ∧ ∀ t, t ∈ l' ↔ t ∈ l ∧ t.pos ≠ q ∨ t = ⟨q, a, true⟩ ∨ t = ⟨q + a, b, true⟩ := by
  induction hr with
  | nil => exact absurd hq List.not_mem_nil
  | @cons u p e l hok hpos hu hfree hrow ih =>
    rcases List.mem_cons.mp hq with heq | hq
    · obtain ⟨rfl, hsize, hinuse⟩ := Tile.mk.inj heq
      rw [← hsize, ← hinuse] at hrow
      have htail : Row h' ok true (q + a + b) e l := by
        rw [Nat.add_assoc]
        refine hrow.congr (fun t ht => ?_) ?_
        · have hle := (hrow.bounds ht).1
          exact hrest _ (by omega) (by omega)
        · have hle := hrow.le
          exact hrest _ (by omega) (by omega)
      have hsecond := cons_of_tag h2 hb hbpos (Or.inl rfl) htail
      have hfirst := cons_of_tag (hu ▸ h1) ha hapos (Or.inr rfl) hsecond
      refine ⟨_, hfirst, fun t => ?_⟩
      have hne : ∀ t ∈ l, t.pos ≠ q := fun t ht => by
        have hle := (hrow.bounds ht).1
        omega
      rw [List.mem_cons, List.mem_cons, List.mem_cons]
      constructor
      · rintro (h | h | h)
        · exact Or.inr (Or.inl h)
        · exact Or.inr (Or.inr h)
        · exact Or.inl ⟨Or.inr h, hne t h⟩
      · rintro (⟨h | h, hpos⟩ | h | h)
        · exact absurd (congrArg Tile.pos h) hpos
        · exact Or.inr (Or.inr h)
        · exact Or.inl h
        · exact Or.inr (Or.inl h)
    · have hbound := hrow.bounds hq
      simp only at hbound
      obtain ⟨l', hrow', hmem⟩ := ih hq
      have hp : h' p = ⟨(h p).size, (h p).inuse, u⟩ := by
        rw [← hu]
        exact hrest _ (by omega) (by omega)
      have hcons := cons_of_tag hp hok hpos hfree hrow'
      refine ⟨_, hcons, fun t => ?_⟩
      rw [List.mem_cons, List.mem_cons, hmem]
      constructor
      · rintro (h | h | h)
        · refine Or.inl ⟨Or.inl h, ?_⟩
          rw [h]
          simp only
          omega
        · exact Or.inl ⟨Or.inr h.1, h.2⟩
        · exact Or.inr h
      · rintro (⟨h | h, hpos⟩ | h)
        · exact Or.inl h
        · exact Or.inr (Or.inl ⟨h, hpos⟩)
        · exact Or.inr (Or.inr h)

/-! ## A chunk is freed -/

/-- Where the free chunk begins that a freed one joins: at the free one before it. -/
def FreeFrom (h : ℕ → Tag) (l : List Tile) (q lo : ℕ) : Prop :=
  (h q).prevInuse = true ∧ lo = q ∨ ∃ b, ⟨lo, b, false⟩ ∈ l ∧ lo + b = q

/-- Where it ends: behind the free one after it. -/
def FreeTo (h : ℕ → Tag) (e x hi : ℕ) : Prop :=
  (x = e ∨ (h x).inuse = true) ∧ hi = x
    ∨ x ≠ e ∧ (h x).inuse = false ∧ hi = x + (h x).size

/-- The chunks before the one that is freed. -/
theorem exists_freeFrom {q lo : ℕ} (hr : Row h ok u p q l) (hall : l' ⊆ l)
    (hlo : FreeFrom h l' q lo) :
    ∃ l₀, Row h ok u p lo l₀ ∧ (h lo).prevInuse = true ∧ lo ≤ q ∧ (lo = q ∨ ok (q - lo))
      ∧ (∀ t, t ∈ l₀ ↔ t ∈ l ∧ t.pos < lo) ∧ ∀ t ∈ l, lo ≤ t.pos → t.inuse = false := by
  have hbound : ∀ t ∈ l, t.pos < q := fun t ht => by
    have hb := hr.bounds ht
    have hpos := (hr.tag ht).2.1
    omega
  rcases hlo with ⟨hused, rfl⟩ | ⟨b, hb, rfl⟩
  · exact ⟨l, hr, hused, le_rfl, Or.inl rfl, fun t => ⟨fun ht => ⟨ht, hbound t ht⟩, And.left⟩,
      fun t ht hle => absurd (hbound t ht) (not_lt.mpr hle)⟩
  · obtain ⟨hok, hpos, -⟩ := hr.tag (hall hb)
    obtain ⟨l₁, l₂, rfl, hfront, hback, hprev⟩ := hr.exists_around (hall hb)
    have hlt : ∀ t ∈ l₁, t.pos < lo := fun t ht => by
      have hb := hfront.bounds ht
      have := (hfront.tag ht).2.1
      omega
    -- nothing is between the free chunk and the one that is freed
    have hnone : ∀ t ∈ l₂, False := fun t ht => by
      have hb := (hback.bounds ht).1
      have := hbound t (List.mem_append_right _ (List.mem_cons_of_mem _ ht))
      omega
    refine ⟨l₁, hfront, hprev.resolve_right Bool.false_ne_true, Nat.le_add_right _ _,
      Or.inr (by rwa [Nat.add_sub_cancel_left]),
      fun t => ⟨fun ht => ⟨List.mem_append_left _ ht, hlt t ht⟩, fun ht => ?_⟩,
      fun t ht hle => ?_⟩
    · rcases List.mem_append.mp ht.1 with h | h
      · exact h
      · rcases List.mem_cons.mp h with rfl | h
        · exact absurd ht.2 (lt_irrefl _)
        · exact (hnone t h).elim
    · rcases List.mem_append.mp ht with h | h
      · exact absurd (hlt t h) (not_lt.mpr hle)
      · rcases List.mem_cons.mp h with rfl | h
        · rfl
        · exact (hnone t h).elim

/-- The chunks behind the one that is freed. -/
theorem exists_freeTo {x hi : ℕ} (hr : Row h ok true x e l) (hhi : FreeTo h e x hi)
    (h2 : h' hi = { h hi with prevInuse := false }) (hrest : ∀ y, hi < y → h' y = h y) :
    ∃ l₀, Row h' ok false hi e l₀ ∧ x ≤ hi ∧ (hi = x ∨ ok (hi - x)) ∧ hi ≤ e
      ∧ (∀ t, t ∈ l₀ ↔ t ∈ l ∧ hi ≤ t.pos) ∧ ∀ t ∈ l, t.pos < hi → t.inuse = false := by
  -- a chunk that is in use, or none, is told that the one before it is free
  have htold : ∀ {v k}, Row h ok v hi e k → (hi = e ∨ (h hi).inuse = true) →
      Row h' ok false hi e k := by
    intro v k hk huse
    cases hk with
    | nil => exact nil (by rw [h2])
    | cons hok hpos _ _ hrow =>
      have hle := hrow.le
      have hin : (h hi).inuse = true := huse.resolve_left (by omega)
      refine cons_of_tag (by rw [h2]) hok hpos (Or.inr hin) (hrow.congr_end (fun t ht => ?_) ?_)
      · have hb := (hrow.bounds ht).1
        rw [hrest _ (by omega)]
      · rw [hrest _ (by omega)]
  have hge : ∀ {v y k}, Row h ok v y e k → ∀ t ∈ k, y ≤ t.pos := fun hk t ht => (hk.bounds ht).1
  rcases hhi with ⟨huse, rfl⟩ | ⟨hne, hfree, rfl⟩
  · exact ⟨l, htold hr huse, le_rfl, Or.inl rfl, hr.le,
      fun t => ⟨fun ht => ⟨ht, hge hr t ht⟩, And.left⟩,
      fun t ht hlt => absurd (hge hr t ht) (not_le.mpr hlt)⟩
  · cases hr with
    | nil => exact absurd rfl hne
    | cons hok hpos _ _ hrow =>
      have huse : x + (h x).size = e ∨ (h (x + (h x).size)).inuse = true := by
        cases hrow with
        | nil => exact Or.inl rfl
        | cons _ _ _ hfree' _ =>
          exact Or.inr (hfree'.resolve_left (by rw [hfree]; exact Bool.false_ne_true))
      refine ⟨_, htold hrow huse, Nat.le_add_right _ _, Or.inr (by rwa [Nat.add_sub_cancel_left]),
        hrow.le, fun t => ⟨fun ht => ⟨List.mem_cons_of_mem _ ht, hge hrow t ht⟩, fun ht => ?_⟩,
        fun t ht hlt => ?_⟩
      · rcases List.mem_cons.mp ht.1 with rfl | h
        · have := ht.2
          simp only at this
          omega
        · exact h
      · rcases List.mem_cons.mp ht with rfl | h
        · exact hfree
        · exact absurd (hge hrow t h) (not_le.mpr hlt)

/-- **A chunk in use is freed**, and joins the free chunks around it: one tag is written at
its begin, and the chunk behind is told. -/
theorem free {q s lo hi : ℕ} (hadd : ∀ a b, ok a → ok b → ok (a + b)) (hr : Row h ok u p e l)
    (hq : ⟨q, s, true⟩ ∈ l) (hlo : FreeFrom h l q lo) (hhi : FreeTo h e (q + s) hi)
    (h1 : h' lo = ⟨hi - lo, false, true⟩) (h2 : h' hi = { h hi with prevInuse := false })
    (hrest : ∀ x, x ≠ lo → x ≠ hi → h' x = h x) :
    (∃ l', Row h' ok u p e l'
      ∧ ∀ t, t ∈ l' ↔ t ∈ l ∧ (t.pos < lo ∨ hi ≤ t.pos) ∨ t = ⟨lo, hi - lo, false⟩)
      ∧ (p ≤ lo ∧ lo ≤ q ∧ q + s ≤ hi ∧ hi ≤ e)
      ∧ ∀ t ∈ l, lo ≤ t.pos → t.pos < hi → t.inuse = true → t = ⟨q, s, true⟩ := by
  have hspos : 0 < s := (hr.tag hq).2.1
  have hsok : ok s := (hr.tag hq).1
  obtain ⟨l₁, l₂, rfl, hfront, hback, -⟩ := hr.exists_around hq
  -- the free chunk before is one of those in front
  have hlo' : FreeFrom h (l₁.filter (fun t => t.pos < q)) q lo := by
    refine hlo.imp_right (fun ⟨b, hb, heq⟩ => ⟨b, ?_, heq⟩)
    have hbpos := (hr.tag hb).2.1
    simp only at hbpos
    refine List.mem_filter.mpr ⟨?_, by simp only [decide_eq_true_eq]; omega⟩
    rcases List.mem_append.mp hb with h | h
    · exact h
    · rcases List.mem_cons.mp h with h | h
      · exact absurd (congrArg Tile.inuse h) Bool.false_ne_true
      · have hge := (hback.bounds h).1
        simp only at hge
        omega
  obtain ⟨k₁, hk₁, hprev, hloq, hlook, hmem₁, hfree₁⟩ :=
    hfront.exists_freeFrom (fun _ ht => (List.mem_filter.mp ht).1) hlo'
  have hloge : q + s ≤ hi := by
    rcases hhi with ⟨-, h⟩ | ⟨-, -, h⟩ <;> omega
  obtain ⟨k₂, hk₂, hqhi, hhiok, hhie, hmem₂, hfree₂⟩ := hback.exists_freeTo hhi h2
    (fun y hy => hrest y (by omega) (by omega))
  have hok : ok (hi - lo) := by
    have hmid : ok (hi - q) := by
      rcases hhiok with h | h
      · rwa [h, Nat.add_sub_cancel_left]
      · have := hadd _ _ hsok h
        rwa [show s + (hi - (q + s)) = hi - q by omega] at this
    rcases hlook with h | h
    · rwa [h]
    · have := hadd _ _ h hmid
      rwa [show q - lo + (hi - q) = hi - lo by omega] at this
  have hsum : lo + (hi - lo) = hi := by omega
  have hrow₁ : Row h' ok u p lo k₁ := hk₁.congr_end
    (fun t ht => by
      have := ((hmem₁ t).mp ht).2
      exact hrest _ (by omega) (by omega))
    (by rw [h1, hprev])
  have hrow₂ : Row h' ok (h' lo).prevInuse lo e (⟨lo, hi - lo, false⟩ :: k₂) := by
    rw [h1]
    exact cons_of_tag h1 hok (by omega) (Or.inl rfl) (hsum.symm ▸ hk₂)
  have hge₁ : ∀ t ∈ l₁, t.pos < q := fun t ht => by
    have hb := hfront.bounds ht
    have := (hfront.tag ht).2.1
    omega
  have hge₂ : ∀ t ∈ l₂, q + s ≤ t.pos := fun t ht => (hback.bounds ht).1
  refine ⟨⟨_, hrow₁.append hrow₂, fun t => ?_⟩, ⟨hk₁.le, hloq, hqhi, hhie⟩,
    fun t ht hle hlt huse => ?_⟩
  · rw [List.mem_append, List.mem_cons, hmem₁, hmem₂, List.mem_append, List.mem_cons]
    constructor
    · rintro (⟨ht, hlt⟩ | rfl | ⟨ht, hle⟩)
      · exact Or.inl ⟨Or.inl ht, Or.inl hlt⟩
      · exact Or.inr rfl
      · exact Or.inl ⟨Or.inr (Or.inr ht), Or.inr hle⟩
    · rintro (⟨ht | rfl | ht, hside⟩ | rfl)
      · have := hge₁ t ht
        exact Or.inl ⟨ht, hside.resolve_right (by omega)⟩
      · simp only at hside
        omega
      · have := hge₂ t ht
        exact Or.inr (Or.inr ⟨ht, hside.resolve_left (by omega)⟩)
      · exact Or.inr (Or.inl rfl)
  · rcases List.mem_append.mp ht with h | h
    · rw [hfree₁ t h hle] at huse
      exact absurd huse Bool.false_ne_true
    · rcases List.mem_cons.mp h with rfl | h
      · rfl
      · rw [hfree₂ t h hlt] at huse
        exact absurd huse Bool.false_ne_true

/-- **A tag that tells of a free chunk** has one before it. -/
theorem exists_free_before (hr : Row h ok u p e l) (he : (h e).prevInuse = false) :
    u = false ∧ l = [] ∧ p = e ∨ ∃ t ∈ l, t.pos + t.size = e ∧ t.inuse = false := by
  induction hr with
  | nil hu => exact Or.inl ⟨hu.symm.trans he, rfl, rfl⟩
  | @cons u p e l _ _ _ _ _ ih =>
    refine Or.inr ?_
    rcases ih he with ⟨hfree, -, heq⟩ | ⟨t, ht, hend⟩
    · exact ⟨_, List.mem_cons_self, heq, hfree⟩
    · exact ⟨t, List.mem_cons_of_mem _ ht, hend⟩

end Row

end BoundaryTags
