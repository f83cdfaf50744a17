import BoostContainer.Detail.Algorithm
import BoostContainer.String.BasicStringEditing

/-!
# Searching strings

Six functions look for the first or the last place where a pattern stands, or where
a character is one of the pattern, or none of it. Each is there for arrays
with their length, for arrays that end with a null, and for single
characters; the forms for strings and views pass on their data and size.

Each one cuts the position to start from in its own way before it searches,
and takes the end of the search for *nothing found*. `find` adds the position to
the length of the pattern without heed of overflow, so a position beyond the
end may pass its check; and it takes the empty pattern that stands at the end
of the string for nothing found.
-/

namespace BasicString

open Algorithm

variable {α : Type*}

/-- `npos` -/
def npos (o : Options) : ℕ := Word.max o.bits

/-- `Traits::length` -/
def traitsLength [Zero α] (eq : α → α → Bool) (s : List α) : ℕ := s.findIdx fun c => eq c 0

/-- `Not_within_traits` -/
def notWithin (eq : α → α → Bool) (s : List α) (x : α) : Bool :=
  findIf (fun i => s[i]?) (eq x) 0 s.length = some s.length

namespace Memory

variable (o : Options) (eq : α → α → Bool) (m : Memory α)

/-- Reading a character of the string; there are none outside. -/
def readAt (i : ℕ) : Option α := m.contents[i]?

/-- Reading through a reverse iterator, `j` steps on from `last`. -/
def readBack (last j : ℕ) : Option α := m.readAt (last - 1 - j)

/-- `find(s, pos, n)` -/
def find (s : List α) (pos : ℕ) : Option ℕ :=
  if m.privSize < Word.add o.bits pos s.length then some (npos o)
  else
    let finish := m.privSize
    (search m.readAt eq s finish (finish - pos + 1) pos).map fun result =>
      if result ≠ finish then result else npos o

/-- `find(c, pos)` -/
def findChar (c : α) (pos : ℕ) : Option ℕ :=
  let sz := m.privSize
  if sz ≤ pos then some (npos o)
  else
    (findIf m.readAt (fun x => eq x c) pos (sz - pos)).map fun result =>
      if result ≠ sz then result else npos o

/-- `rfind(s, pos, n)` -/
def rfind (s : List α) (pos : ℕ) : Option ℕ :=
  let len := m.privSize
  if len < s.length then some (npos o)
  else if s.length = 0 then some (min len pos)
  else
    let last := min (len - s.length) pos + s.length
    (findEnd m.readAt eq s 0 last).map fun result =>
      if result ≠ last then result else npos o

/-- The search from the back that `rfind(c, pos)`, `find_last_of` and `find_last_not_of`
make. -/
def findBack (search : (ℕ → Option α) → ℕ → ℕ → Option ℕ) (pos : ℕ) : Option ℕ :=
  let len := m.privSize
  if len < 1 then some (npos o)
  else
    let last := min (len - 1) pos + 1
    (search (m.readBack last) 0 last).map fun rresult =>
      if rresult ≠ last then last - 1 - rresult else npos o

/-- `rfind(c, pos)` -/
def rfindChar (c : α) (pos : ℕ) : Option ℕ :=
  m.findBack o (fun read => findIf read fun x => eq x c) pos

/-- `find_first_of(s, pos, n)` -/
def findFirstOf (s : List α) (pos : ℕ) : Option ℕ :=
  let sz := m.privSize
  if sz ≤ pos then some (npos o)
  else
    (Algorithm.findFirstOf m.readAt eq s pos (sz - pos)).map fun result =>
      if result ≠ sz then result else npos o

/-- `find_last_of(s, pos, n)` -/
def findLastOf (s : List α) (pos : ℕ) : Option ℕ :=
  m.findBack o (fun read => Algorithm.findFirstOf read eq s) pos

/-- What both forms of `find_first_not_of` do, which let the end pass as a position. -/
def findFirstNot (p : α → Bool) (pos : ℕ) : Option ℕ :=
  if m.privSize < pos then some (npos o)
  else
    let finish := m.privSize
    (findIf m.readAt p pos (finish - pos)).map fun result =>
      if result ≠ finish then result else npos o

/-- `find_first_not_of(s, pos, n)` -/
def findFirstNotOf (s : List α) (pos : ℕ) : Option ℕ := m.findFirstNot o (notWithin eq s) pos

/-- `find_first_not_of(c, pos)` -/
def findFirstNotOfChar (c : α) (pos : ℕ) : Option ℕ :=
  m.findFirstNot o (fun x => !eq x c) pos

/-- `find_last_not_of(s, pos, n)` -/
def findLastNotOf (s : List α) (pos : ℕ) : Option ℕ :=
  m.findBack o (fun read => findIf read (notWithin eq s)) pos

/-- `find_last_not_of(c, pos)` -/
def findLastNotOfChar (c : α) (pos : ℕ) : Option ℕ :=
  m.findBack o (fun read => findIf read fun x => !eq x c) pos

end Memory

/-- **What is looked for**: an array with its length, an array that holds a null, or a
character. -/
inductive Pattern (α : Type*)
  | array (s : List α)
  | terminated (s : List α)
  | char (c : α)

/-- The characters of a pattern. -/
def Pattern.chars [Zero α] (eq : α → α → Bool) : Pattern α → List α
  | array s => s
  | terminated s => s.take (traitsLength eq s)
  | char c => [c]

/-- **The functions that search.** -/
inductive Finder
  | find
  | rfind
  | findFirstOf
  | findLastOf
  | findFirstNotOf
  | findLastNotOf

namespace Finder

/-- The overload that a call gets. `find_first_of` and `find_last_of` pass a single
character on to `find` and `rfind`. -/
def call [Zero α] (o : Options) (eq : α → α → Bool) (m : Memory α) (pos : ℕ) :
    Finder → Pattern α → Option ℕ
  | find, .char c | findFirstOf, .char c => m.findChar o eq c pos
  | rfind, .char c | findLastOf, .char c => m.rfindChar o eq c pos
  | findFirstNotOf, .char c => m.findFirstNotOfChar o eq c pos
  | findLastNotOf, .char c => m.findLastNotOfChar o eq c pos
  | find, p => m.find o eq (p.chars eq) pos
  | rfind, p => m.rfind o eq (p.chars eq) pos
  | findFirstOf, p => m.findFirstOf o eq (p.chars eq) pos
  | findLastOf, p => m.findLastOf o eq (p.chars eq) pos
  | findFirstNotOf, p => m.findFirstNotOf o eq (p.chars eq) pos
  | findLastNotOf, p => m.findLastNotOf o eq (p.chars eq) pos

/-- **The positions that are looked for**, as documented. -/
def positions (eq : α → α → Bool) (l : List α) (pos : ℕ) (s : List α) : Finder → Set ℕ
  | find => {x | pos ≤ x ∧ x + s.length ≤ l.length
      ∧ ∀ i c, s[i]? = some c → ∃ a ∈ l[x + i]?, eq a c = true}
  | rfind => {x | x ≤ pos ∧ x + s.length ≤ l.length
      ∧ ∀ i c, s[i]? = some c → ∃ a ∈ l[x + i]?, eq a c = true}
  | findFirstOf => {x | pos ≤ x ∧ ∃ a ∈ l[x]?, ∃ c ∈ s, eq a c = true}
  | findLastOf => {x | x ≤ pos ∧ ∃ a ∈ l[x]?, ∃ c ∈ s, eq a c = true}
  | findFirstNotOf => {x | pos ≤ x ∧ ∃ a ∈ l[x]?, ∀ c ∈ s, ¬ eq a c = true}
  | findLastNotOf => {x | x ≤ pos ∧ ∃ a ∈ l[x]?, ∀ c ∈ s, ¬ eq a c = true}

/-- Which of them is: the lowest, or the highest. -/
def IsExtreme : Finder → Set ℕ → ℕ → Prop
  | find | findFirstOf | findFirstNotOf => IsLeast
  | rfind | findLastOf | findLastNotOf => IsGreatest

/-- **The condition**: where `find` looks for an array, it is not an empty one at the end of
the string, and the position is not beyond the end with a sum that wraps. -/
def Fits [Zero α] (o : Options) (eq : α → α → Bool) (m : Memory α) (pos : ℕ) :
    Finder → Pattern α → Prop
  | find, .char _ => True
  | find, p => ¬ (p.chars eq = [] ∧ pos = m.privSize)
      ∧ ¬ (m.privSize < pos ∧ Word.add o.bits pos (p.chars eq).length ≤ m.privSize)
  | _, _ => True

end Finder

/-- **What a search should return**: the extreme position of a set, and `npos` exactly if
there is none. -/
structure Finds (IsExtreme : Set ℕ → ℕ → Prop) (S : Set ℕ) (npos r : ℕ) : Prop where
  npos_iff : r = npos ↔ S = ∅
  extreme : r ≠ npos → IsExtreme S r

/-! ## From the searches to the positions -/

variable {eq : α → α → Bool} {m : Memory α} {o : Options} {P : ℕ → Prop} {S : Set ℕ}
  {s : List α} {pos first last r N : ℕ}

theorem Finds.of_empty {E : Set ℕ → ℕ → Prop} (h : S = ∅) : Finds E S N N :=
  ⟨iff_of_true rfl h, fun hne => absurd rfl hne⟩

theorem Finds.of_extreme {E : Set ℕ → ℕ → Prop} (h : E S r) (hmem : r ∈ S) (hne : r ≠ N) :
    Finds E S N r :=
  ⟨iff_of_false hne (Set.nonempty_of_mem hmem).ne_empty, fun _ => h⟩

/-- **A search from the front.** -/
theorem finds_of_firstOf (h : FirstOf P first last r) (hN : last < N)
    (hS : ∀ x, x ∈ S ↔ first ≤ x ∧ x < last ∧ P x) :
    Finds IsLeast S N (if r ≠ last then r else N) := by
  split
  · rename_i hne
    have hlt : r < last := lt_of_le_of_ne h.le_last hne
    have hmem : r ∈ S := (hS r).mpr ⟨h.first_le, hlt, h.here hlt⟩
    refine Finds.of_extreme ⟨hmem, fun x hx => ?_⟩ hmem (hlt.trans hN).ne
    obtain ⟨hfirst, -, hP⟩ := (hS x).mp hx
    exact le_of_not_gt fun hxr => h.before x hfirst hxr hP
  · rename_i heq
    refine Finds.of_empty (Set.eq_empty_iff_forall_notMem.mpr fun x hx => ?_)
    obtain ⟨hfirst, hlast, hP⟩ := (hS x).mp hx
    exact h.before x hfirst (by omega) hP

/-- **A search from the back.** -/
theorem finds_of_firstOf_back (h : FirstOf (fun j => P (last - 1 - j)) 0 last r) (hN : last < N)
    (hS : ∀ x, x ∈ S ↔ x < last ∧ P x) :
    Finds IsGreatest S N (if r ≠ last then last - 1 - r else N) := by
  have hback : ∀ x, x < last → last - 1 - (last - 1 - x) = x := fun x hx => by omega
  split
  · rename_i hne
    have hlt : r < last := lt_of_le_of_ne h.le_last hne
    have hmem : last - 1 - r ∈ S := (hS _).mpr ⟨by omega, h.here hlt⟩
    refine Finds.of_extreme ⟨hmem, fun x hx => ?_⟩ hmem (by omega)
    obtain ⟨hlast, hP⟩ := (hS x).mp hx
    by_contra hgt
    refine h.before (last - 1 - x) (Nat.zero_le _) (by omega) ?_
    rwa [hback x hlast]
  · rename_i heq
    refine Finds.of_empty (Set.eq_empty_iff_forall_notMem.mpr fun x hx => ?_)
    obtain ⟨hlast, hP⟩ := (hS x).mp hx
    refine h.before (last - 1 - x) (Nat.zero_le _) (by omega) ?_
    rwa [hback x hlast]

/-- **A search for the last place.** -/
theorem finds_of_lastOf (h : LastOf P 0 last last r) (hN : last < N)
    (hS : ∀ x, x ∈ S ↔ x < last ∧ P x) :
    Finds IsGreatest S N (if r ≠ last then r else N) := by
  rcases h with ⟨-, hlt, hP, hafter⟩ | ⟨rfl, hnone⟩
  · have hmem : r ∈ S := (hS r).mpr ⟨hlt, hP⟩
    rw [if_pos hlt.ne]
    refine Finds.of_extreme ⟨hmem, fun x hx => ?_⟩ hmem (hlt.trans hN).ne
    obtain ⟨hlast, hPx⟩ := (hS x).mp hx
    exact le_of_not_gt fun hgt => hafter x hgt hlast hPx
  · rw [if_neg (not_not_intro rfl)]
    refine Finds.of_empty (Set.eq_empty_iff_forall_notMem.mpr fun x hx => ?_)
    obtain ⟨hlast, hPx⟩ := (hS x).mp hx
    exact hnone x (Nat.zero_le x) hlast hPx

theorem notWithin_iff {x : α} : notWithin eq s x = true ↔ ∀ c ∈ s, ¬ eq x c = true := by
  obtain ⟨r, hr, hfirst⟩ := @findIf_spec _ (fun i => s[i]?) (eq x) 0 s.length
    (fun i _ hi => ⟨s[i], List.getElem?_eq_getElem (by omega)⟩)
  rw [Nat.zero_add] at hfirst
  rw [notWithin, hr, decide_eq_true_iff, Option.some.injEq]
  constructor
  · rintro rfl c hc he
    obtain ⟨i, hi, rfl⟩ := List.mem_iff_getElem.mp hc
    exact hfirst.before i (Nat.zero_le i) hi ⟨_, List.getElem?_eq_getElem hi, he⟩
  · intro hnone
    by_contra hne
    obtain ⟨c, hc, he⟩ := hfirst.here (lt_of_le_of_ne hfirst.le_last hne)
    exact hnone c (List.mem_of_getElem? hc) he

theorem any_iff {x : α} : s.any (eq x) = true ↔ ∃ c ∈ s, eq x c = true := List.any_eq_true

namespace Memory

variable [Zero α]

/-- The end of a sound string is not `npos`. -/
theorem Sound.size_lt_npos (h : m.Sound o) : m.privSize < npos o := by
  have hstorage : m.privStorage o < 2 ^ o.bits := by
    obtain ⟨heap, repr⟩ := m
    cases repr with
    | short length data => exact o.internal_lt
    | long length storage start =>
      obtain ⟨-, -, hmax, -⟩ := h.shaped
      exact (hmax.trans (min_le_left _ _)).trans_lt o.alloc_lt
  have hlt := h.size_lt
  unfold npos Word.max
  omega

/-- Everything inside can be read. -/
theorem Sound.reads (h : m.Sound o) (hlast : last ≤ m.privSize) : Reads m.readAt first last := by
  intro i _ hi
  have hlen := length_contents h.size_lt_length.le
  exact ⟨m.contents[i], List.getElem?_eq_getElem (by omega)⟩

theorem Sound.reads_back (h : m.Sound o) (hlast : last ≤ m.privSize) :
    Reads (m.readBack last) 0 (0 + last) :=
  fun i _ hi => h.reads hlast (last - 1 - i) (Nat.zero_le _) (by omega)

theorem Sound.lt_of_mem (h : m.Sound o) {x : ℕ} {a : α} (ha : a ∈ m.contents[x]?) :
    x < m.privSize :=
  lt_of_lt_of_eq (List.getElem?_eq_some_iff.mp ha).1 (length_contents h.size_lt_length.le)

/-! ## Every function -/

/-- **Looking for a character from the front.** -/
theorem Sound.findIf_finds (h : m.Sound o) {p : α → Bool} (hpos : pos ≤ m.privSize)
    (hS : ∀ x, x ∈ S ↔ pos ≤ x ∧ ∃ a ∈ m.contents[x]?, p a = true) :
    ∃ r, (findIf m.readAt p pos (m.privSize - pos)).map
        (fun result => if result ≠ m.privSize then result else npos o) = some r
      ∧ Finds IsLeast S (npos o) r := by
  have hend : pos + (m.privSize - pos) = m.privSize := by omega
  obtain ⟨r, hr, hfirst⟩ := findIf_spec (p := p) (n := m.privSize - pos)
    (h.reads hend.le)
  rw [hend] at hfirst
  refine ⟨_, by rw [hr, Option.map_some], finds_of_firstOf hfirst h.size_lt_npos fun x => ?_⟩
  rw [hS]
  refine and_congr_right fun _ => ⟨fun hx => ⟨?_, hx⟩, fun hx => hx.2⟩
  obtain ⟨a, ha, -⟩ := hx
  exact h.lt_of_mem ha

/-- Beyond the end there is no character. -/
theorem Sound.eq_empty_of_le (h : m.Sound o) {Q : α → Prop} (hpos : m.privSize ≤ pos)
    (hS : ∀ x, x ∈ S ↔ pos ≤ x ∧ ∃ a ∈ m.contents[x]?, Q a) : S = ∅ := by
  refine Set.eq_empty_iff_forall_notMem.mpr fun x hx => ?_
  obtain ⟨hle, a, ha, -⟩ := (hS x).mp hx
  have hlt := h.lt_of_mem ha
  omega

theorem Sound.findFirstNot_finds (h : m.Sound o) {p : α → Bool}
    (hS : ∀ x, x ∈ S ↔ pos ≤ x ∧ ∃ a ∈ m.contents[x]?, p a = true) :
    ∃ r, m.findFirstNot o p pos = some r ∧ Finds IsLeast S (npos o) r := by
  unfold findFirstNot
  split
  · rename_i hpos
    exact ⟨_, rfl, Finds.of_empty (h.eq_empty_of_le hpos.le hS)⟩
  · exact h.findIf_finds (by omega) hS

/-- **Looking for a character from the back.** -/
theorem Sound.findBack_finds (h : m.Sound o) {p : α → Bool}
    {search : (ℕ → Option α) → ℕ → ℕ → Option ℕ}
    (hsearch : ∀ read n, Reads read 0 (0 + n) → search read 0 n = findIf read p 0 n)
    (hS : ∀ x, x ∈ S ↔ x ≤ pos ∧ ∃ a ∈ m.contents[x]?, p a = true) :
    ∃ r, m.findBack o search pos = some r ∧ Finds IsGreatest S (npos o) r := by
  unfold findBack
  dsimp only
  split
  · rename_i hempty
    refine ⟨_, rfl, Finds.of_empty (Set.eq_empty_iff_forall_notMem.mpr fun x hx => ?_)⟩
    obtain ⟨-, a, ha, -⟩ := (hS x).mp hx
    have hlt := h.lt_of_mem ha
    omega
  · have hlast : min (m.privSize - 1) pos + 1 ≤ m.privSize := by omega
    have hreads := h.reads_back hlast
    obtain ⟨r, hr, hfirst⟩ := findIf_spec (p := p) hreads
    rw [hsearch _ _ hreads, hr, Option.map_some]
    rw [Nat.zero_add] at hfirst
    refine ⟨_, rfl, finds_of_firstOf_back (P := fun i => ∃ a ∈ m.contents[i]?, p a = true) hfirst
      (hlast.trans_lt h.size_lt_npos) fun x => ?_⟩
    rw [hS]
    refine and_congr_left fun hx => ?_
    obtain ⟨a, ha, -⟩ := hx
    have hlt := h.lt_of_mem ha
    omega

theorem Sound.findChar_finds (h : m.Sound o) {c : α}
    (hS : ∀ x, x ∈ S ↔ pos ≤ x ∧ ∃ a ∈ m.contents[x]?, eq a c = true) :
    ∃ r, m.findChar o eq c pos = some r ∧ Finds IsLeast S (npos o) r := by
  unfold findChar
  dsimp only
  split
  · rename_i hpos
    exact ⟨_, rfl, Finds.of_empty (h.eq_empty_of_le hpos hS)⟩
  · exact h.findIf_finds (by omega) hS

theorem Sound.findFirstOf_finds (h : m.Sound o)
    (hS : ∀ x, x ∈ S ↔ pos ≤ x ∧ ∃ a ∈ m.contents[x]?, ∃ c ∈ s, eq a c = true) :
    ∃ r, m.findFirstOf o eq s pos = some r ∧ Finds IsLeast S (npos o) r := by
  unfold findFirstOf
  dsimp only
  split
  · rename_i hpos
    exact ⟨_, rfl, Finds.of_empty (h.eq_empty_of_le hpos hS)⟩
  · rw [findFirstOf_eq (h.reads (by omega))]
    refine h.findIf_finds (by omega) fun x => (hS x).trans ?_
    simp only [any_iff]

/-- **`rfind`** takes every position and every pattern. -/
theorem Sound.rfind_finds (h : m.Sound o)
    (hS : ∀ x, x ∈ S ↔ x ≤ pos ∧ x + s.length ≤ m.privSize ∧ Matches m.readAt eq s x) :
    ∃ r, m.rfind o eq s pos = some r ∧ Finds IsGreatest S (npos o) r := by
  have hnpos := h.size_lt_npos
  unfold rfind
  dsimp only
  split
  · refine ⟨_, rfl, Finds.of_empty (Set.eq_empty_iff_forall_notMem.mpr fun x hx => ?_)⟩
    obtain ⟨-, hroom, -⟩ := (hS x).mp hx
    omega
  · split
    · rename_i hempty
      obtain rfl := List.eq_nil_of_length_eq_zero hempty
      have hmem : min m.privSize pos ∈ S :=
        (hS _).mpr ⟨min_le_right _ _, min_le_left _ _, matches_nil⟩
      refine ⟨_, rfl, Finds.of_extreme ⟨hmem, fun x hx => ?_⟩ hmem (by omega)⟩
      obtain ⟨hle, hroom, -⟩ := (hS x).mp hx
      exact le_min hroom hle
    · rename_i hle hne
      have hlast : min (m.privSize - s.length) pos + s.length ≤ m.privSize := by omega
      have hs : s ≠ [] := fun heq => hne (congrArg List.length heq)
      obtain ⟨r, hr, hres⟩ := @findEnd_spec _ _ _ eq s 0
        (min (m.privSize - s.length) pos + s.length) (h.reads (by omega)) hs
      rw [Nat.zero_add] at hres
      rw [hr, Option.map_some]
      refine ⟨_, rfl, finds_of_lastOf hres (hlast.trans_lt hnpos) fun x => ?_⟩
      rw [hS, ← and_assoc, ← and_assoc]
      refine and_congr_left fun _ => ?_
      omega

/-- **`find`** takes those that pass the condition. -/
theorem Sound.find_finds (h : m.Sound o) (hend : ¬ (s = [] ∧ pos = m.privSize))
    (hwrap : ¬ (m.privSize < pos ∧ Word.add o.bits pos s.length ≤ m.privSize))
    (hS : ∀ x, x ∈ S ↔ pos ≤ x ∧ x + s.length ≤ m.privSize ∧ Matches m.readAt eq s x) :
    ∃ r, m.find o eq s pos = some r ∧ Finds IsLeast S (npos o) r := by
  have hnpos := h.size_lt_npos
  unfold find
  dsimp only
  split
  · rename_i hlong
    have hsum : Word.add o.bits pos s.length ≤ pos + s.length := Nat.mod_le _ _
    refine ⟨_, rfl, Finds.of_empty (Set.eq_empty_iff_forall_notMem.mpr fun x hx => ?_)⟩
    obtain ⟨hle, hroom, -⟩ := (hS x).mp hx
    omega
  · rename_i hshort
    have hpos : pos ≤ m.privSize := not_lt.mp fun hlt => hwrap ⟨hlt, not_lt.mp hshort⟩
    by_cases hs : s = []
    · subst hs
      have hlt : pos < m.privSize := lt_of_le_of_ne hpos fun heq => hend ⟨rfl, heq⟩
      have hmem : pos ∈ S := (hS pos).mpr ⟨le_rfl, hpos, matches_nil⟩
      refine ⟨pos, congrArg some (if_pos hlt.ne), ?_⟩
      exact Finds.of_extreme ⟨hmem, fun x hx => ((hS x).mp hx).1⟩ hmem (hlt.trans hnpos).ne
    · have hlen := List.length_pos_of_ne_nil hs
      obtain ⟨r, hr, hfirst⟩ := search_spec (s := s) (h.reads le_rfl) hpos (Nat.lt_succ_self _)
      rw [hr, Option.map_some]
      refine ⟨_, rfl, finds_of_firstOf hfirst hnpos fun x => ?_⟩
      rw [hS]
      refine and_congr_right fun hle => ⟨fun hx => ⟨?_, hx⟩, fun hx => hx.2⟩
      have hroom := hx.1
      omega

/-- **The empty pattern at the end** is taken for nothing found. -/
theorem find_nil_end (hpos : pos = m.privSize) (hbits : pos < 2 ^ o.bits) :
    m.find o eq [] pos = some (npos o) := by
  have hsum : Word.add o.bits pos ([] : List α).length = pos := Word.add_of_lt hbits
  unfold find
  rw [hsum, if_neg (by omega), hpos]
  exact congrArg some (if_neg (not_not_intro rfl))

/-- **A sum that wraps**, and the search starts outside of the string. -/
theorem Sound.find_wrapped (h : m.Sound o) (hbits : pos < 2 ^ o.bits) (hpos : m.privSize < pos)
    (hwrap : Word.add o.bits pos s.length ≤ m.privSize) : m.find o eq s pos = none := by
  have hlen := length_contents h.size_lt_length.le
  have hread : m.readAt pos = none := List.getElem?_eq_none_iff.mpr (by omega)
  unfold find
  rw [if_neg hwrap.not_gt]
  cases s with
  | nil =>
    have hsum : Word.add o.bits pos ([] : List α).length = pos := Word.add_of_lt hbits
    omega
  | cons c cs =>
    dsimp only
    rw [search, compareAt, if_neg hpos.ne', hread]
    rfl

/-- **`find`** finds what it should exactly if the condition is met. -/
theorem Sound.find_finds_iff (h : m.Sound o) (hbits : pos < 2 ^ o.bits)
    (hS : ∀ x, x ∈ S ↔ pos ≤ x ∧ x + s.length ≤ m.privSize ∧ Matches m.readAt eq s x) :
    (∃ r, m.find o eq s pos = some r ∧ Finds IsLeast S (npos o) r)
      ↔ ¬ (s = [] ∧ pos = m.privSize)
        ∧ ¬ (m.privSize < pos ∧ Word.add o.bits pos s.length ≤ m.privSize) := by
  refine ⟨fun ⟨r, hr, hfinds⟩ => ⟨?_, ?_⟩, fun hfit => h.find_finds hfit.1 hfit.2 hS⟩
  · rintro ⟨rfl, hpos⟩
    rw [find_nil_end hpos hbits] at hr
    have hempty := hfinds.npos_iff.mp (Option.some.inj hr).symm
    have hmem : pos ∈ S := (hS pos).mpr ⟨le_rfl, hpos.le, matches_nil⟩
    exact absurd (hempty ▸ hmem) (Set.notMem_empty pos)
  · rintro ⟨hpos, hwrap⟩
    rw [h.find_wrapped hbits hpos hwrap] at hr
    exact Option.some_ne_none r hr.symm

end Memory

open Memory

variable [Zero α]

/-- A pattern of one character stands where the character is. -/
theorem Memory.Sound.singleton_iff (h : m.Sound o) {c : α} {x : ℕ} :
    (x + [c].length ≤ m.contents.length ∧ Matches m.readAt eq [c] x)
      ↔ ∃ a ∈ m.contents[x]?, eq a c = true := by
  rw [length_contents h.size_lt_length.le]
  constructor
  · exact fun hx => hx.2 0 c rfl
  · rintro ⟨a, ha, he⟩
    exact ⟨h.lt_of_mem ha, (matches_cons ha).mpr ⟨he, matches_nil⟩⟩

/-- **Searching a string**: for every function, every form of the pattern and every
position, the search reads nothing outside of the string and returns the lowest or
highest position, or `npos` exactly if there is none, exactly if the condition is
met. -/
theorem Finder.call_finds_iff (f : Finder) (p : Pattern α) (h : m.Sound o)
    (hbits : pos < 2 ^ o.bits) :
    (∃ r, f.call o eq m pos p = some r
      ∧ Finds f.IsExtreme (f.positions eq m.contents pos (p.chars eq)) (npos o) r)
      ↔ f.Fits o eq m pos p := by
  have hlen := length_contents h.size_lt_length.le
  have hany : ∀ (c : α) (x : ℕ), (∃ a ∈ m.contents[x]?, ∃ d ∈ [c], eq a d = true)
      ↔ ∃ a ∈ m.contents[x]?, eq a c = true := fun c x => by simp only [List.mem_singleton,
    exists_eq_left]
  have hnone : ∀ (c : α) (x : ℕ), (∃ a ∈ m.contents[x]?, ∀ d ∈ [c], ¬ eq a d = true)
      ↔ ∃ a ∈ m.contents[x]?, (!eq a c) = true := fun c x => by simp only [List.mem_singleton,
    forall_eq, Bool.not_eq_true, Bool.not_eq_true']
  have hwithin : ∀ (s : List α) (x : ℕ), (∃ a ∈ m.contents[x]?, ∀ d ∈ s, ¬ eq a d = true)
      ↔ ∃ a ∈ m.contents[x]?, notWithin eq s a = true := fun s x => by simp only [notWithin_iff]
  have hfind : ∀ s : List α, _ := fun s => @Sound.find_finds_iff _ eq _ _ _ s _ _ h hbits
    fun x => (hlen ▸ Iff.rfl : x ∈ positions eq m.contents pos s find ↔ _)
  have hrfind : ∀ s : List α, _ := fun s => @Sound.rfind_finds _ eq _ _ _ s pos _ h
    fun x => (hlen ▸ Iff.rfl : x ∈ positions eq m.contents pos s rfind ↔ _)
  cases f with
  | find =>
    cases p with
    | char c =>
      exact iff_of_true (h.findChar_finds fun x => and_congr_right fun _ => h.singleton_iff) trivial
    | array s => exact hfind s
    | terminated s => exact hfind _
  | rfind =>
    cases p with
    | char c =>
      exact iff_of_true (h.findBack_finds (fun _ _ _ => rfl) fun x =>
        and_congr_right fun _ => h.singleton_iff) trivial
    | array s => exact iff_of_true (hrfind s) trivial
    | terminated s => exact iff_of_true (hrfind _) trivial
  | findFirstOf =>
    cases p with
    | char c =>
      exact iff_of_true (h.findChar_finds fun x => and_congr_right fun _ => hany c x) trivial
    | array s => exact iff_of_true (h.findFirstOf_finds fun _ => Iff.rfl) trivial
    | terminated s => exact iff_of_true (h.findFirstOf_finds fun _ => Iff.rfl) trivial
  | findLastOf =>
    have hback : ∀ s : List α, _ := fun s => @Sound.findBack_finds _ _ _
      (positions eq m.contents pos s findLastOf) pos _ h _
      (fun read => Algorithm.findFirstOf read eq s) (fun _ _ hreads => findFirstOf_eq hreads)
      fun x => and_congr_right fun _ => by simp only [any_iff]
    cases p with
    | char c =>
      exact iff_of_true (h.findBack_finds (fun _ _ _ => rfl) fun x =>
        and_congr_right fun _ => hany c x) trivial
    | array s => exact iff_of_true (hback s) trivial
    | terminated s => exact iff_of_true (hback _) trivial
  | findFirstNotOf =>
    cases p with
    | char c =>
      exact iff_of_true (h.findFirstNot_finds fun x => and_congr_right fun _ => hnone c x) trivial
    | array s =>
      exact iff_of_true (h.findFirstNot_finds fun x =>
        and_congr_right fun _ => hwithin s x) trivial
    | terminated s =>
      exact iff_of_true (h.findFirstNot_finds fun x =>
        and_congr_right fun _ => hwithin _ x) trivial
  | findLastNotOf =>
    cases p with
    | char c =>
      exact iff_of_true (h.findBack_finds (fun _ _ _ => rfl) fun x =>
        and_congr_right fun _ => hnone c x) trivial
    | array s =>
      exact iff_of_true (h.findBack_finds (fun _ _ _ => rfl) fun x =>
        and_congr_right fun _ => hwithin s x) trivial
    | terminated s =>
      exact iff_of_true (h.findBack_finds (fun _ _ _ => rfl) fun x =>
        and_congr_right fun _ => hwithin _ x) trivial

/-! ## The empty pattern at the end -/

/-- The character that ends a string. -/
theorem filled_find : ∃ r, Finder.find.call narrowOptions (· == ·) (filled 3) 0 (.array [97])
    = some r ∧ Finds IsLeast (Finder.find.positions (· == ·) (filled 3).contents 0 [97])
      (npos narrowOptions) r :=
  (Finder.call_finds_iff .find (.array [97]) (sound_filled (by decide)) (by decide)).mpr
    ⟨by decide, by decide⟩

/-- **The empty pattern at the end is not found**: the end is a position, and `find` returns
`npos`. From `npos` on it reads outside. -/
theorem filled_find_not : (filled 3).Sound narrowOptions
    ∧ (¬ ∃ r, Finder.find.call narrowOptions (· == ·) (filled 3) 3 (.array []) = some r
      ∧ Finds IsLeast (Finder.find.positions (· == ·) (filled 3).contents 3 [])
        (npos narrowOptions) r)
    ∧ Finder.find.call narrowOptions (· == ·) (filled 3) (npos narrowOptions) (.array [97])
      = none := by
  refine ⟨sound_filled (by decide), ?_, by decide⟩
  rintro ⟨r, hr, hfinds⟩
  have hnpos : r = npos narrowOptions := (Option.some.inj hr).symm
  have hmem : 3 ∈ Finder.find.positions (· == ·) (filled 3).contents 3 [] := by
    refine ⟨le_rfl, by decide, fun i c hc => ?_⟩
    rw [List.getElem?_nil] at hc
    exact absurd hc (Option.some_ne_none c).symm
  exact absurd (hfinds.npos_iff.mp hnpos ▸ hmem) (Set.notMem_empty 3)

end BasicString
