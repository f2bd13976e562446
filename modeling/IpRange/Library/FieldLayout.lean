import IpRange.Library.Overwrite

/-!
Fields written at fixed places of a list. Fields that stand one behind the other
can each be read back, and what no field covers stays as it was.
-/

namespace IpRange

open List

section FieldLayout

variable {α : Type} {list new : List α} {fields : List (Nat × List α)} {field : Nat × List α}
  {low start at_ length : Nat}

def writeFields (fields : List (Nat × List α)) (list : List α) : List α :=
  fields.foldl (fun list field => overwrite field.1 field.2 list) list

/-- Fields in ascending order that do not overlap, none before `low` or past `high`. -/
def Laid : Nat → List (Nat × List α) → Nat → Prop
  | low, [], high => low ≤ high
  | low, field :: rest, high => low ≤ field.1 ∧ Laid (field.1 + field.2.length) rest high

theorem slice_overwrite_self (fits : start + new.length ≤ list.length) :
    slice start new.length (overwrite start new list) = new :=
  slice_append (by simp only [length_take]; omega) rfl

theorem slice_overwrite_other (fits : start + new.length ≤ list.length)
    (apart : at_ + length ≤ start ∨ start + new.length ≤ at_) :
    slice at_ length (overwrite start new list) = slice at_ length list := by
  apply ext_getElem?
  intro index
  simp only [slice, overwrite, getElem?_take, getElem?_drop, append_assoc]
  by_cases inside : index < length
  · rw [if_pos inside, if_pos inside]
    rcases apart with before | behind
    · rw [getElem?_append_left (by simp only [length_take]; omega),
        getElem?_take_of_lt (by omega)]
    · rw [getElem?_append_right (by simp only [length_take]; omega),
        getElem?_append_right (by simp only [length_take]; omega), getElem?_drop]
      congr 1
      simp only [length_take]
      omega
  · rw [if_neg inside, if_neg inside]

theorem Laid.le (laid : Laid low fields length) : low ≤ length := by
  induction fields generalizing low with
  | nil => exact laid
  | cons field rest ih => exact Nat.le_trans laid.1 (Nat.le_trans (Nat.le_add_right _ _) (ih laid.2))

theorem Laid.after (laid : Laid low fields length) (member : field ∈ fields) : low ≤ field.1 := by
  induction fields generalizing low with
  | nil => cases member
  | cons first rest ih =>
    rcases mem_cons.mp member with rfl | later
    · exact laid.1
    · exact Nat.le_trans laid.1 (Nat.le_trans (Nat.le_add_right _ _) (ih laid.2 later))

theorem Laid.mono {high higher : Nat} (laid : Laid low fields high) (above : high ≤ higher) :
    Laid low fields higher := by
  induction fields generalizing low with
  | nil => exact Nat.le_trans laid above
  | cons field rest ih => exact ⟨laid.1, ih laid.2⟩

theorem Laid.before (laid : Laid low fields length) (member : field ∈ fields) :
    field.1 + field.2.length ≤ length := by
  induction fields generalizing low with
  | nil => cases member
  | cons first rest ih =>
    rcases mem_cons.mp member with rfl | later
    · exact laid.2.le
    · exact ih laid.2 later

theorem length_writeFields (laid : Laid low fields list.length) :
    (writeFields fields list).length = list.length := by
  induction fields generalizing low list with
  | nil => rfl
  | cons field rest ih =>
    have same := length_overwrite laid.2.le
    rw [writeFields, foldl_cons]
    have next : Laid (field.1 + field.2.length) rest (overwrite field.1 field.2 list).length := by
      rw [same]
      exact laid.2
    rw [← same]
    exact ih next

theorem slice_writeFields_other (laid : Laid low fields list.length)
    (apart : ∀ field ∈ fields, at_ + length ≤ field.1 ∨ field.1 + field.2.length ≤ at_) :
    slice at_ length (writeFields fields list) = slice at_ length list := by
  induction fields generalizing low list with
  | nil => rfl
  | cons field rest ih =>
    have same := length_overwrite laid.2.le
    have next : Laid (field.1 + field.2.length) rest (overwrite field.1 field.2 list).length := by
      rw [same]
      exact laid.2
    have later := ih next fun other member => apart other (mem_cons_of_mem _ member)
    exact later.trans (slice_overwrite_other laid.2.le (apart field (by simp)))

theorem slice_writeFields (laid : Laid low fields list.length) (member : field ∈ fields) :
    slice field.1 field.2.length (writeFields fields list) = field.2 := by
  induction fields generalizing low list with
  | nil => cases member
  | cons first rest ih =>
    have same := length_overwrite laid.2.le
    have next : Laid (first.1 + first.2.length) rest (overwrite first.1 first.2 list).length := by
      rw [same]
      exact laid.2
    rcases mem_cons.mp member with rfl | later
    · have kept := slice_writeFields_other next fun other member => Or.inl (laid.2.after member)
      exact kept.trans (slice_overwrite_self laid.2.le)
    · exact ih next later

theorem slice_take (inside : at_ + length ≤ start) :
    slice at_ length (list.take start) = slice at_ length list := by
  simp only [slice, drop_take, take_take]
  congr 1
  omega

end FieldLayout

end IpRange
