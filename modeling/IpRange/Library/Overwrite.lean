import Mathlib.Data.List.Basic

/-!
Overwriting a stretch of a list in place, and what the stretches of the result are.
-/

namespace IpRange

open List

section Overwrite

variable {α : Type}

def slice (start length : Nat) (list : List α) : List α := (list.drop start).take length

def overwrite (start : Nat) (new list : List α) : List α :=
  list.take start ++ new ++ list.drop (start + new.length)

variable {start length : Nat} {before after new list : List α}

theorem length_overwrite (fits : start + new.length ≤ list.length) :
    (overwrite start new list).length = list.length := by
  simp only [overwrite, length_append, length_take, length_drop]
  omega

theorem slice_append {inside : List α} (starts : before.length = start)
    (long : inside.length = length) :
    slice start length (before ++ inside ++ after) = inside := by
  subst starts long
  simp [slice]

theorem overwrite_append {old : List α} (starts : before.length = start)
    (long : old.length = new.length) :
    overwrite start new (before ++ old ++ after) = before ++ new ++ after := by
  subst starts
  simp [overwrite, ← long]

theorem overwrite_overwrite {first second : List α} (long : first.length = second.length)
    (fits : start ≤ list.length) :
    overwrite start second (overwrite start first list) = overwrite start second list := by
  have taken : (list.take start).length = start := by
    rw [length_take]
    omega
  rw [overwrite.eq_1 start first list, overwrite_append taken long, overwrite, long]

theorem getElem?_slice (index : Nat) :
    (slice start length list)[index]? = if index < length then list[start + index]? else none := by
  rw [slice, getElem?_take]
  simp only [getElem?_drop]

theorem getElem?_overwrite (fits : start + new.length ≤ list.length) (index : Nat) :
    (overwrite start new list)[index]? =
      if start ≤ index ∧ index < start + new.length then new[index - start]? else list[index]? := by
  have taken : (list.take start).length = start := by
    rw [length_take]
    omega
  rw [overwrite, append_assoc]
  by_cases low : index < start
  · rw [getElem?_append_left (by omega), getElem?_take_of_lt low, if_neg (by omega)]
  · rw [getElem?_append_right (by omega), taken]
    by_cases high : index < start + new.length
    · rw [getElem?_append_left (by omega), if_pos ⟨by omega, high⟩]
    · rw [getElem?_append_right (by omega), getElem?_drop, if_neg (by omega)]
      congr 1
      omega

theorem slice_add (first second : Nat) :
    slice start (first + second) list = slice start first list ++ slice (start + first) second list := by
  rw [slice, take_add, drop_drop]
  rfl

theorem slice_slice {inner count : Nat} (inside : inner + count ≤ length) :
    slice inner count (slice start length list) = slice (start + inner) count list := by
  refine ext_getElem? fun index => ?_
  simp only [getElem?_slice, Nat.add_assoc]
  split
  · rw [if_pos (by omega)]
  · rfl

theorem slice_replicate {count : Nat} (value : α) (inside : start + length ≤ count) :
    slice start length (List.replicate count value) = List.replicate length value := by
  rw [slice, drop_replicate, take_replicate, Nat.min_eq_left (by omega)]

variable {at_ count : Nat}

theorem slice_overwrite_of_apart (fits : start + new.length ≤ list.length)
    (apart : at_ + count ≤ start ∨ start + new.length ≤ at_) :
    slice at_ count (overwrite start new list) = slice at_ count list := by
  refine ext_getElem? fun index => ?_
  simp only [getElem?_slice, getElem?_overwrite fits]
  split
  · rw [if_neg (by omega)]
  · rfl

theorem slice_overwrite_of_inside (fits : start + new.length ≤ list.length) (low : start ≤ at_)
    (high : at_ + count ≤ start + new.length) :
    slice at_ count (overwrite start new list) = slice (at_ - start) count new := by
  refine ext_getElem? fun index => ?_
  simp only [getElem?_slice, getElem?_overwrite fits]
  split
  · rw [if_pos (by omega)]
    congr 1
    omega
  · rfl

end Overwrite

end IpRange
