import Mathlib.Data.List.Sort

/-!
Finite maps as lists of items in strictly increasing key order, and the one
update they need: everything stored under a key gives way to other items.
-/

namespace IpRange

open List

section SortedMap

variable {κ ν : Type} [LinearOrder κ]

/-- Puts `items` in the place of whatever `map` stores under `key`. -/
def splice (key : κ) (items map : List (κ × ν)) : List (κ × ν) :=
  map.filter (fun item => item.1 < key) ++ items ++ map.filter fun item => key < item.1

theorem splice_cut (key : κ) (items : List (κ × ν)) {smaller stored larger : List (κ × ν)}
    (below : ∀ item ∈ smaller, item.1 < key) (here : ∀ item ∈ stored, item.1 = key)
    (above : ∀ item ∈ larger, key < item.1) :
    splice key items (smaller ++ stored ++ larger) = smaller ++ items ++ larger := by
  have smallerLow : smaller.filter (fun item => decide (item.1 < key)) = smaller :=
    filter_eq_self.mpr fun item member => by simpa using below item member
  have smallerHigh : smaller.filter (fun item => decide (key < item.1)) = [] :=
    filter_eq_nil_iff.mpr fun item member => by simpa using le_of_lt (below item member)
  have storedLow : stored.filter (fun item => decide (item.1 < key)) = [] :=
    filter_eq_nil_iff.mpr fun item member => by simp [here item member]
  have storedHigh : stored.filter (fun item => decide (key < item.1)) = [] :=
    filter_eq_nil_iff.mpr fun item member => by simp [here item member]
  have largerLow : larger.filter (fun item => decide (item.1 < key)) = [] :=
    filter_eq_nil_iff.mpr fun item member => by simpa using le_of_lt (above item member)
  have largerHigh : larger.filter (fun item => decide (key < item.1)) = larger :=
    filter_eq_self.mpr fun item member => by simpa using above item member
  simp only [splice, filter_append, smallerLow, storedLow, largerLow, smallerHigh, storedHigh,
    largerHigh, append_nil, nil_append]

variable {key : κ} {α : Type}

theorem mem_splice {items map : List (κ × ν)} {item : κ × ν} :
    item ∈ splice key items map ↔ item ∈ items ∨ item ∈ map ∧ item.1 ≠ key := by
  simp only [splice, mem_append, mem_filter, decide_eq_true_eq]
  constructor
  · rintro ((⟨stored, below⟩ | new) | ⟨stored, above⟩)
    · exact Or.inr ⟨stored, below.ne⟩
    · exact Or.inl new
    · exact Or.inr ⟨stored, above.ne'⟩
  · rintro (new | ⟨stored, other⟩)
    · exact Or.inl (Or.inr new)
    · rcases lt_or_gt_of_ne other with below | above
      · exact Or.inl (Or.inl ⟨stored, below⟩)
      · exact Or.inr ⟨stored, above⟩

theorem pairwise_replace {R : α → α → Prop} {smaller stored larger new : List α}
    (whole : (smaller ++ stored ++ larger).Pairwise R) (inner : new.Pairwise R)
    (low : ∀ item ∈ smaller, ∀ other ∈ new, R item other)
    (high : ∀ item ∈ new, ∀ other ∈ larger, R item other) :
    (smaller ++ new ++ larger).Pairwise R := by
  rw [pairwise_append, pairwise_append] at whole
  obtain ⟨⟨smallerOrdered, _, _⟩, largerOrdered, across⟩ := whole
  rw [pairwise_append, pairwise_append]
  refine ⟨⟨smallerOrdered, inner, low⟩, largerOrdered, ?_⟩
  intro item member other inLarger
  rcases mem_append.mp member with inSmaller | inNew
  · exact across item (mem_append_left _ inSmaller) other inLarger
  · exact high item inNew other inLarger

theorem above_of_head_ne (keyOf : α → κ) {items : List α}
    (sorted : items.Pairwise fun earlier later => keyOf earlier < keyOf later)
    (low : ∀ item ∈ items, key ≤ keyOf item) (head : items.head?.map keyOf ≠ some key) :
    ∀ item ∈ items, key < keyOf item := by
  cases items with
  | nil => simp
  | cons first rest =>
    have above : key < keyOf first :=
      lt_of_le_of_ne (low first (by simp)) fun same => head (by simp [← same])
    intro item member
    rcases mem_cons.mp member with rfl | later
    · exact above
    · exact lt_trans above ((pairwise_cons.mp sorted).1 item later)

theorem exists_cut (keyOf : α → κ) {items : List α}
    (sorted : items.Pairwise fun earlier later => keyOf earlier < keyOf later)
    (absent : ∀ item ∈ items, keyOf item ≠ key) :
    ∃ left right, items = left ++ right ∧ (∀ item ∈ left, keyOf item < key) ∧
      ∀ item ∈ right, key < keyOf item := by
  induction items with
  | nil => exact ⟨[], [], rfl, by simp, by simp⟩
  | cons first rest ih =>
    obtain ⟨ahead, later⟩ := pairwise_cons.mp sorted
    rcases lt_or_gt_of_ne (absent first (by simp)) with below | above
    · obtain ⟨left, right, rfl, low, high⟩ :=
        ih later fun item member => absent item (mem_cons_of_mem _ member)
      exact ⟨first :: left, right, rfl, forall_mem_cons.mpr ⟨below, low⟩, high⟩
    · refine ⟨[], first :: rest, rfl, by simp, forall_mem_cons.mpr ⟨above, ?_⟩⟩
      exact fun item member => lt_trans above (ahead item member)

section Nearest

variable {α : Type} {keyOf : α → κ} {items : List α} {key : κ}

theorem last_upTo (sorted : items.Pairwise fun earlier later => keyOf earlier < keyOf later)
    {item : α} (found : (items.filter fun other => decide (keyOf other ≤ key)).getLast? = some item) :
    ∃ before after, items = before ++ item :: after ∧ keyOf item ≤ key ∧
      ∀ other ∈ after, key < keyOf other := by
  have member := mem_of_getLast? found
  rw [mem_filter, decide_eq_true_eq] at member
  obtain ⟨before, after, rfl⟩ := append_of_mem member.1
  refine ⟨before, after, rfl, member.2, fun other isAfter => not_le.mp fun low => ?_⟩
  -- the last kept item lies at or after `other`, and so would `item`
  rw [filter_append, filter_cons_of_pos (by simpa using member.2)] at found
  obtain ⟨kept, final, shape⟩ := (eq_nil_or_concat
    (after.filter fun other => decide (keyOf other ≤ key))).resolve_left
    (ne_nil_of_mem (mem_filter.mpr ⟨isAfter, by simpa using low⟩))
  rw [concat_eq_append] at shape
  rw [shape, ← cons_append, ← append_assoc, getLast?_concat] at found
  cases found
  have inAfter : item ∈ after :=
    mem_of_mem_filter (by rw [shape]; simp : item ∈ after.filter _)
  exact absurd ((pairwise_cons.mp (pairwise_append.mp sorted).2.1).1 item inAfter)
    (lt_irrefl _)

theorem none_upTo (found : (items.filter fun other => decide (keyOf other ≤ key)).getLast? = none) :
    ∀ other ∈ items, key < keyOf other := by
  rw [getLast?_eq_none_iff, filter_eq_nil_iff] at found
  exact fun other member => by simpa using found other member

theorem first_from {item : α}
    (found : (items.filter fun other => decide (key ≤ keyOf other)).head? = some item) :
    ∃ before after, items = before ++ item :: after ∧ key ≤ keyOf item ∧
      ∀ other ∈ before, keyOf other < key := by
  rw [head?_filter, find?_eq_some_iff_append] at found
  obtain ⟨high, before, after, cut, low⟩ := found
  exact ⟨before, after, cut, by simpa using high, fun other member => by simpa using low other member⟩

theorem none_from (found : (items.filter fun other => decide (key ≤ keyOf other)).head? = none) :
    ∀ other ∈ items, keyOf other < key := by
  rw [head?_eq_none_iff, filter_eq_nil_iff] at found
  exact fun other member => by simpa using found other member

end Nearest

end SortedMap

end IpRange
