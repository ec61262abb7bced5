import Mathlib.Algebra.Group.Nat.Defs
import Mathlib.Data.List.Basic

/-!
# Unsigned subtraction and copies into and out of a buffer

`usub` is subtraction on `size_t`: below zero it wraps around. `copyOut` and
`copyIn` are `memcpy` out of and into an array of known length; a copy that would
leave the array has no result, so a total result is a proof that every access
stays in bounds.
-/

namespace CppMtHw.Machine

variable {α : Type*}

/-- Subtraction of two `size_t` values. -/
def usub (a b : ℕ) : ℕ := if b ≤ a then a - b else a + 2 ^ 64 - b

@[simp] theorem usub_of_le {a b : ℕ} (h : b ≤ a) : usub a b = a - b := if_pos h

/-- `memcpy` of `count` elements starting at `index` out of `buf`. -/
def copyOut (buf : List α) (index count : ℕ) : Option (List α) :=
  if index + count ≤ buf.length then some ((buf.drop index).take count) else none

/-- `memcpy` of all of `src` into `buf` at `index`. -/
def copyIn (buf : List α) (index : ℕ) (src : List α) : Option (List α) :=
  if index + src.length ≤ buf.length then
    some (buf.take index ++ src ++ buf.drop (index + src.length))
  else none

theorem copyOut_of_le {buf : List α} {index count : ℕ} (h : index + count ≤ buf.length) :
    copyOut buf index count = some ((buf.drop index).take count) := if_pos h

theorem copyIn_of_le {buf : List α} {index : ℕ} {src : List α}
    (h : index + src.length ≤ buf.length) :
    copyIn buf index src = some (buf.take index ++ src ++ buf.drop (index + src.length)) := if_pos h

/-- The elements of `buf` from `first` up to, not including, `last`. -/
def segment (buf : List α) (first last : ℕ) : List α := (buf.drop first).take (last - first)

theorem segment_length {buf : List α} {first last : ℕ} (h : last ≤ buf.length) :
    (segment buf first last).length = last - first := by
  simp only [segment, List.length_take, List.length_drop]
  omega

@[simp] theorem segment_self (buf : List α) (index : ℕ) : segment buf index index = [] := by
  simp [segment]

theorem segment_append {buf : List α} {first middle last : ℕ} (hfirst : first ≤ middle)
    (hlast : middle ≤ last) :
    segment buf first middle ++ segment buf middle last = segment buf first last := by
  have hsplit : last - first = (middle - first) + (last - middle) := by omega
  have hdrop : (buf.drop first).drop (middle - first) = buf.drop middle := by
    rw [List.drop_drop]
    congr 1
    omega
  simp only [segment]
  rw [hsplit, List.take_add, hdrop]

theorem take_segment {buf : List α} {first last count : ℕ} (h : first + count ≤ last) :
    (segment buf first last).take count = segment buf first (first + count) := by
  simp only [segment, List.take_take]
  congr 1
  omega

theorem drop_segment {buf : List α} {first last count : ℕ} :
    (segment buf first last).drop count = segment buf (first + count) last := by
  simp only [segment, List.drop_take, List.drop_drop]
  congr 1
  omega

theorem copyOut_eq_segment {buf : List α} {index count : ℕ} (h : index + count ≤ buf.length) :
    copyOut buf index count = some (segment buf index (index + count)) := by
  rw [copyOut_of_le h, segment]
  congr 2
  omega

/-- The array after a copy that stays inside it. -/
def overwrite (buf : List α) (index : ℕ) (src : List α) : List α :=
  buf.take index ++ src ++ buf.drop (index + src.length)

theorem copyIn_eq_overwrite {buf : List α} {index : ℕ} {src : List α}
    (h : index + src.length ≤ buf.length) : copyIn buf index src = some (overwrite buf index src) :=
  copyIn_of_le h

theorem overwrite_length {buf : List α} {index : ℕ} {src : List α}
    (h : index + src.length ≤ buf.length) : (overwrite buf index src).length = buf.length := by
  simp only [overwrite, List.length_append, List.length_take, List.length_drop]
  omega

@[simp] theorem overwrite_nil (buf : List α) (index : ℕ) : overwrite buf index [] = buf := by
  simp [overwrite]

/-- Two copies next to each other are one copy. -/
theorem overwrite_overwrite {buf first second : List α} {index : ℕ} (h : index ≤ buf.length) :
    overwrite (overwrite buf index first) (index + first.length) second =
      overwrite buf index (first ++ second) := by
  have hlen : (buf.take index ++ first).length = index + first.length := by
    rw [List.length_append, List.length_take, Nat.min_eq_left h]
  have hkept : (overwrite buf index first).take (index + first.length) =
      buf.take index ++ first := by
    rw [overwrite, ← hlen, List.take_left]
  have hrest : (overwrite buf index first).drop (index + first.length + second.length) =
      buf.drop (index + (first ++ second).length) := by
    rw [overwrite, ← List.drop_drop, ← hlen, List.drop_left, List.drop_drop, hlen,
      List.length_append, Nat.add_assoc]
  calc
    _ = buf.take index ++ first ++ second ++ buf.drop (index + (first ++ second).length) := by
      rw [overwrite, hkept, hrest]
    _ = _ := by rw [overwrite, List.append_assoc (buf.take index)]

/-- A copy does not change what lies before it. -/
theorem segment_overwrite_before {buf : List α} {index first last : ℕ} {src : List α}
    (hlast : last ≤ index) (hindex : index ≤ buf.length) :
    segment (overwrite buf index src) first last = segment buf first last := by
  apply List.ext_getElem?
  intro i
  simp only [segment, overwrite, List.getElem?_take, List.getElem?_drop, List.append_assoc]
  split
  · rw [List.getElem?_append_left (by simp; omega), List.getElem?_take]
    rw [if_pos (by omega)]
  · rfl

/-- A copy does not change what lies behind it. -/
theorem segment_overwrite_after {buf : List α} {index first last : ℕ} {src : List α}
    (hfirst : index + src.length ≤ first) (hindex : index ≤ buf.length) :
    segment (overwrite buf index src) first last = segment buf first last := by
  apply List.ext_getElem?
  intro i
  simp only [segment, overwrite, List.getElem?_take, List.getElem?_drop]
  split
  · rw [List.getElem?_append_right (by simp; omega), List.getElem?_drop]
    simp only [List.length_append, List.length_take]
    congr 1
    omega
  · rfl

/-- The copied range holds exactly what was copied. -/
theorem segment_overwrite_self {buf : List α} {index : ℕ} {src : List α}
    (hindex : index ≤ buf.length) :
    segment (overwrite buf index src) index (index + src.length) = src := by
  have hlen : (buf.take index).length = index := by simp; omega
  rw [segment, overwrite, List.append_assoc, List.drop_append, hlen]
  simp

end CppMtHw.Machine
