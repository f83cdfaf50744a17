import Mathlib

/-!
# Buffers

A buffer is the list of what its slots hold. Copies and moves between
buffers are all the same operation, `List.writeAt`: a run of values read
somewhere (`List.slice`) is written from some position on, and nothing else
changes. A write that stays inside the buffer keeps its length; one that does
not makes it longer, which is how a model sees an overrun.
-/

namespace List

variable {α : Type*} {d v : List α} {p i n : ℕ}

/-- **What a write leaves**: the values from a position on, the rest as it
was. -/
def writeAt (d : List α) (p : ℕ) (v : List α) : List α :=
  d.take p ++ v ++ d.drop (p + v.length)

/-- The `n` values from a position on. -/
def slice (d : List α) (p n : ℕ) : List α := (d.drop p).take n

theorem length_slice (h : p + n ≤ d.length) : (d.slice p n).length = n := by
  rw [slice, List.length_take, List.length_drop]
  omega

theorem getElem?_slice (h : i < n) : (d.slice p n)[i]? = d[p + i]? := by
  rw [slice, List.getElem?_take_of_lt h, List.getElem?_drop]

@[simp] theorem writeAt_nil : d.writeAt p [] = d := by
  rw [writeAt, List.append_nil, List.length_nil, Nat.add_zero, List.take_append_drop]

/-- **A write inside the buffer keeps its length.** -/
theorem length_writeAt (h : p + v.length ≤ d.length) :
    (d.writeAt p v).length = d.length := by
  rw [writeAt, List.length_append, List.length_append, List.length_take, List.length_drop]
  omega

/-- The same, for a buffer in a chain of writes. -/
theorem length_writeAt_of_eq {N : ℕ} (hd : d.length = N) (h : p + v.length ≤ N) :
    (d.writeAt p v).length = N :=
  (length_writeAt (hd ▸ h)).trans hd

/-- What was written is read back. -/
theorem getElem?_writeAt (h : p ≤ d.length) (hi : i < v.length) :
    (d.writeAt p v)[p + i]? = v[i]? := by
  have hlen : (d.take p).length = p := List.length_take_of_le h
  rw [writeAt, List.append_assoc, List.getElem?_append_right (by omega), hlen,
    Nat.add_sub_cancel_left, List.getElem?_append_left hi]

/-- **A write leaves what lies before it.** -/
theorem getElem?_writeAt_of_lt (h : p ≤ d.length) (hi : i < p) :
    (d.writeAt p v)[i]? = d[i]? := by
  have hlen : (d.take p).length = p := List.length_take_of_le h
  rw [writeAt, List.append_assoc, List.getElem?_append_left (by omega),
    List.getElem?_take_of_lt hi]

/-- **A write leaves what lies after it.** -/
theorem getElem?_writeAt_of_ge (h : p ≤ d.length) (hi : p + v.length ≤ i) :
    (d.writeAt p v)[i]? = d[i]? := by
  have hlen : (d.take p).length = p := List.length_take_of_le h
  rw [writeAt, List.getElem?_append_right (by rw [List.length_append, hlen]; exact hi),
    List.length_append, hlen, List.getElem?_drop]
  congr 1
  omega

/-- **Every value after a write.** -/
theorem getElem?_writeAt_eq (h : p ≤ d.length) :
    (d.writeAt p v)[i]?
      = if i < p then d[i]? else if i < p + v.length then v[i - p]? else d[i]? := by
  by_cases hlt : i < p
  · rw [if_pos hlt, getElem?_writeAt_of_lt h hlt]
  · rw [if_neg hlt]
    by_cases hin : i < p + v.length
    · rw [if_pos hin]
      have hread := getElem?_writeAt (i := i - p) h (v := v) (by omega)
      rwa [Nat.add_sub_cancel' (Nat.le_of_not_lt hlt)] at hread
    · rw [if_neg hin, getElem?_writeAt_of_ge h (Nat.le_of_not_lt hin)]

theorem getElem?_slice_eq : (d.slice p n)[i]? = if i < n then d[p + i]? else none := by
  rw [slice, List.getElem?_take, List.getElem?_drop]

/-- **A move inside a buffer**: what is written was read at another place. -/
theorem getElem?_writeAt_slice {q : ℕ} (hp : p + n ≤ d.length) (hq : q ≤ d.length) :
    (d.writeAt q (d.slice p n))[i]? = if q ≤ i ∧ i < q + n then d[p + (i - q)]? else d[i]? := by
  rw [getElem?_writeAt_eq hq, length_slice hp, getElem?_slice_eq]
  split_ifs <;> first | rfl | omega

/-- A single value is read back where it was written. -/
theorem getElem?_writeAt_singleton (h : p ≤ d.length) (a : α) :
    (d.writeAt p [a])[p]? = some a :=
  getElem?_writeAt (i := 0) h Nat.zero_lt_one

/-- **What an edit leaves**: the values before `p`, the input, and the values from
`q` on. -/
def splice (l : List α) (p q : ℕ) (v : List α) : List α := l.take p ++ v ++ l.drop q

theorem getElem?_splice {l : List α} {q : ℕ} (hp : p ≤ l.length) :
    (l.splice p q v)[i]?
      = if i < p then l[i]? else if i < p + v.length then v[i - p]?
        else l[q + (i - (p + v.length))]? := by
  have htake : (l.take p).length = p := List.length_take_of_le hp
  rw [splice, List.getElem?_append, List.getElem?_append, List.length_append, htake,
    List.getElem?_take, List.getElem?_drop]
  split_ifs <;> first | rfl | omega

/-- A write is an edit that replaces as much as it puts. -/
theorem writeAt_eq_splice : d.writeAt p v = d.splice p (p + v.length) v := rfl

/-- **An edit after a write** at its front. -/
theorem splice_writeAt {l w : List α} {q : ℕ} (hp : p + v.length ≤ l.length)
    (hq : p + v.length ≤ q) :
    (l.writeAt p v).splice (p + v.length) q w = l.splice p q (v ++ w) := by
  refine List.ext_getElem? fun i => ?_
  rw [getElem?_splice (by rw [length_writeAt hp]; exact hp), getElem?_writeAt_eq (by omega),
    getElem?_writeAt_eq (by omega), getElem?_splice (by omega), List.length_append,
    List.getElem?_append]
  split_ifs <;> first | rfl | omega | (congr 1; omega)

end List
