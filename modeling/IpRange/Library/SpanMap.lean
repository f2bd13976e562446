import Mathlib.Order.Atoms
import Mathlib.Data.List.Sort
import Mathlib.Data.List.Flatten

/-!
Maps from the elements of a linear order to values, stored as spans of equal
value. A canonical list of spans is ordered, disjoint and merged as far as it
can be; it stands for the partial function `valueAt`.
-/

namespace IpRange

open List

@[ext] structure Span (κ ν : Type) where
  from_ : κ
  to_ : κ
  value : ν
deriving DecidableEq, Repr

section SpanMap

variable {κ ν : Type} [LinearOrder κ]

namespace Span

def Covers (span : Span κ ν) (address : κ) : Prop := span.from_ ≤ address ∧ address ≤ span.to_

instance (span : Span κ ν) (address : κ) : Decidable (span.Covers address) :=
  inferInstanceAs (Decidable (_ ∧ _))

def Precedes (earlier later : Span κ ν) : Prop :=
  earlier.to_ < later.from_ ∧ (earlier.value = later.value → ¬ earlier.to_ ⋖ later.from_)

variable {neighbour : Span κ ν}

theorem covers_extend_left {span : Span κ ν} (near : neighbour.to_ ⋖ span.from_)
    (proper : neighbour.from_ ≤ neighbour.to_) (spanProper : span.from_ ≤ span.to_) (address : κ) :
    ({ span with from_ := neighbour.from_ } : Span κ ν).Covers address ↔
      neighbour.Covers address ∨ span.Covers address := by
  constructor
  · rintro ⟨low, high⟩
    rcases le_or_gt address neighbour.to_ with inside | past
    · exact Or.inl ⟨low, inside⟩
    · exact Or.inr ⟨near.ge_of_gt past, high⟩
  · rintro (⟨low, high⟩ | ⟨low, high⟩)
    · exact ⟨low, le_trans high (le_trans near.lt.le spanProper)⟩
    · exact ⟨le_trans (le_trans proper near.lt.le) low, high⟩

theorem covers_extend_right {span : Span κ ν} (near : span.to_ ⋖ neighbour.from_)
    (proper : neighbour.from_ ≤ neighbour.to_) (spanProper : span.from_ ≤ span.to_) (address : κ) :
    ({ span with to_ := neighbour.to_ } : Span κ ν).Covers address ↔
      neighbour.Covers address ∨ span.Covers address := by
  constructor
  · rintro ⟨low, high⟩
    rcases le_or_gt address span.to_ with inside | past
    · exact Or.inr ⟨low, inside⟩
    · exact Or.inl ⟨near.ge_of_gt past, high⟩
  · rintro (⟨low, high⟩ | ⟨low, high⟩)
    · exact ⟨le_trans spanProper (le_trans near.lt.le low), high⟩
    · exact ⟨low, le_trans high (le_trans near.lt.le proper)⟩

end Span

structure Canonical (map : List (Span κ ν)) : Prop where
  ordered : map.Pairwise Span.Precedes
  proper : ∀ span ∈ map, span.from_ ≤ span.to_

def valueAt (map : List (Span κ ν)) (address : κ) : Option ν :=
  (map.find? fun span => decide (span.Covers address)).map Span.value

@[simp] theorem valueAt_nil (address : κ) : valueAt ([] : List (Span κ ν)) address = none := rfl

theorem valueAt_cons (span : Span κ ν) (rest : List (Span κ ν)) (address : κ) :
    valueAt (span :: rest) address =
      if span.Covers address then some span.value else valueAt rest address := by
  by_cases covers : span.Covers address
  · simp [valueAt, covers]
  · simp [valueAt, covers]

theorem valueAt_append (left right : List (Span κ ν)) (address : κ) :
    valueAt (left ++ right) address = (valueAt left address <|> valueAt right address) := by
  induction left with
  | nil => simp
  | cons span rest ih =>
    rw [cons_append, valueAt_cons, valueAt_cons, ih]
    split
    · rfl
    · rfl

variable {address : κ} {span : Span κ ν}

theorem valueAt_eq_none {map : List (Span κ ν)} :
    valueAt map address = none ↔ ∀ span ∈ map, ¬ span.Covers address := by
  simp [valueAt]

theorem exists_of_valueAt {map : List (Span κ ν)} {value : ν}
    (found : valueAt map address = some value) :
    ∃ span ∈ map, span.Covers address ∧ span.value = value := by
  obtain ⟨span, isFound, rfl⟩ := Option.map_eq_some_iff.mp found
  exact ⟨span, mem_of_find?_eq_some isFound, by simpa using find?_some isFound, rfl⟩

theorem Canonical.nil : Canonical ([] : List (Span κ ν)) := ⟨List.Pairwise.nil, by simp⟩

theorem Canonical.sublist {map fewer : List (Span κ ν)} (canonical : Canonical map)
    (sub : fewer.Sublist map) : Canonical fewer :=
  ⟨canonical.ordered.sublist sub, fun span member => canonical.proper span (sub.subset member)⟩

section Cut

variable {before after : List (Span κ ν)} {span : Span κ ν}

theorem Canonical.around (canonical : Canonical (before ++ span :: after)) :
    (∀ earlier ∈ before, earlier.Precedes span) ∧ ∀ later ∈ after, span.Precedes later := by
  have parts := pairwise_append.mp canonical.ordered
  exact ⟨fun earlier member => parts.2.2 earlier member span (by simp),
    (pairwise_cons.mp parts.2.1).1⟩

theorem Canonical.without (canonical : Canonical (before ++ span :: after)) :
    Canonical (before ++ after) :=
  canonical.sublist (List.Sublist.append_left (sublist_cons_self span after) before)

theorem Canonical.insert (canonical : Canonical (before ++ after)) (proper : span.from_ ≤ span.to_)
    (low : ∀ earlier ∈ before, earlier.Precedes span) (high : ∀ later ∈ after, span.Precedes later) :
    Canonical (before ++ span :: after) := by
  obtain ⟨left, right, across⟩ := pairwise_append.mp canonical.ordered
  refine ⟨pairwise_append.mpr ⟨left, pairwise_cons.mpr ⟨high, right⟩, ?_⟩, ?_⟩
  · intro earlier member later isLater
    rcases mem_cons.mp isLater with rfl | isLater
    · exact low earlier member
    · exact across earlier member later isLater
  · intro other member
    rcases mem_append.mp member with inBefore | member
    · exact canonical.proper other (by simp [inBefore])
    · rcases mem_cons.mp member with rfl | inAfter
      · exact proper
      · exact canonical.proper other (by simp [inAfter])

theorem Canonical.starts (canonical : Canonical (before ++ span :: after)) :
    (∀ earlier ∈ before, earlier.from_ < span.from_) ∧ ∀ later ∈ after, span.from_ < later.from_ := by
  obtain ⟨low, high⟩ := canonical.around
  constructor
  · intro earlier member
    exact lt_of_le_of_lt (canonical.proper earlier (by simp [member])) (low earlier member).1
  · intro later member
    exact lt_of_le_of_lt (canonical.proper span (by simp)) (high later member).1

theorem not_covers_of_precedes {earlier later : Span κ ν} {address : κ}
    (precedes : earlier.Precedes later) (covers : later.Covers address) :
    ¬ earlier.Covers address :=
  fun both => absurd (lt_of_le_of_lt both.2 precedes.1) (not_lt.mpr covers.1)

theorem Canonical.valueAt_insert (canonical : Canonical (before ++ span :: after)) (address : κ) :
    valueAt (before ++ span :: after) address =
      if span.Covers address then some span.value else valueAt (before ++ after) address := by
  rw [valueAt_append, valueAt_append, valueAt_cons]
  by_cases covers : span.Covers address
  · have none_ : valueAt before address = none := valueAt_eq_none.mpr fun earlier member =>
      not_covers_of_precedes (canonical.around.1 earlier member) covers
    rw [none_, if_pos covers, if_pos covers]
    rfl
  · rw [if_neg covers, if_neg covers]

theorem Canonical.valueAt_without (canonical : Canonical (before ++ span :: after)) {address : κ}
    (covers : span.Covers address) : valueAt (before ++ after) address = none := by
  rw [valueAt_eq_none]
  intro other member both
  rcases mem_append.mp member with inBefore | inAfter
  · exact not_covers_of_precedes (canonical.around.1 other inBefore) covers both
  · exact not_covers_of_precedes (canonical.around.2 other inAfter) both covers

end Cut

variable {map : List (Span κ ν)}

theorem Canonical.sorted (canonical : Canonical map) :
    map.Pairwise fun earlier later => earlier.from_ < later.from_ :=
  canonical.ordered.imp_of_mem fun member _ precedes =>
    lt_of_le_of_lt (canonical.proper _ member) precedes.1

theorem Canonical.valueAt_of_mem (canonical : Canonical map) (member : span ∈ map)
    (covers : span.Covers address) : valueAt map address = some span.value := by
  obtain ⟨before, after, rfl⟩ := append_of_mem member
  rw [canonical.valueAt_insert, if_pos covers]

theorem Canonical.beside (canonical : Canonical map) {low high : κ} (proper : low ≤ high)
    (free : ∀ address, low ≤ address → address ≤ high → valueAt map address = none) :
    ∀ span ∈ map, span.to_ < low ∨ high < span.from_ := by
  intro span member
  by_contra! overlap
  have own := canonical.proper span member
  have covers : span.Covers (max span.from_ low) := ⟨le_max_left _ _, max_le own overlap.1⟩
  have value := canonical.valueAt_of_mem member covers
  rw [free _ (le_max_right _ _) (max_le overlap.2 proper)] at value
  cases value

theorem Canonical.constant [IsStronglyAtomic κ] (canonical : Canonical map) {low high : κ}
    {value : ν} (proper : low ≤ high)
    (same : ∀ address, low ≤ address → address ≤ high → valueAt map address = some value) :
    ∃ span ∈ map, span.from_ ≤ low ∧ high ≤ span.to_ ∧ span.value = value := by
  obtain ⟨span, member, covers, isValue⟩ := exists_of_valueAt (same low le_rfl proper)
  refine ⟨span, member, covers.1, ?_, isValue⟩
  by_contra! short
  obtain ⟨next, near, inside⟩ := exists_covBy_le_of_lt short
  obtain ⟨other, isOther, otherCovers, otherValue⟩ :=
    exists_of_valueAt (same next (le_trans covers.2 near.lt.le) inside)
  obtain ⟨before, after, rfl⟩ := append_of_mem member
  rcases mem_append.mp isOther with earlier | others
  · have precedes := canonical.around.1 other earlier
    have past := lt_of_lt_of_le precedes.1 (le_trans covers.1 covers.2)
    exact absurd (lt_of_le_of_lt otherCovers.2 past) (not_lt.mpr near.lt.le)
  · rcases mem_cons.mp others with rfl | later
    · exact absurd otherCovers.2 (not_le.mpr near.lt)
    · have precedes := canonical.around.2 other later
      have adjacent : other.from_ = next :=
        le_antisymm otherCovers.1 (near.ge_of_gt precedes.1)
      exact precedes.2 (isValue.trans otherValue.symm) (adjacent ▸ near)

section Chains

variable {before after : List (Span κ ν)} {neighbour span : Span κ ν}

theorem precedes_through (first : ∀ earlier ∈ before, earlier.Precedes neighbour)
    (proper : neighbour.from_ ≤ neighbour.to_) (second : neighbour.to_ < span.from_) :
    ∀ earlier ∈ before, earlier.Precedes span := by
  intro earlier member
  have gap := (first earlier member).1
  have past := lt_of_le_of_lt proper second
  exact ⟨lt_trans gap past, fun _ adjacent => adjacent.2 gap past⟩

theorem precedes_beyond (first : ∀ later ∈ after, neighbour.Precedes later)
    (proper : neighbour.from_ ≤ neighbour.to_) (second : span.to_ < neighbour.from_) :
    ∀ later ∈ after, span.Precedes later := by
  intro later member
  have gap := lt_of_le_of_lt proper (first later member).1
  exact ⟨lt_trans second gap, fun _ adjacent => adjacent.2 second gap⟩

end Chains

theorem Canonical.concat (canonical : Canonical map) (proper : span.from_ ≤ span.to_)
    (follows : ∀ last ∈ map.getLast?, last.Precedes span) : Canonical (map ++ [span]) := by
  refine Canonical.insert (by simpa using canonical) proper ?_ (by simp)
  intro earlier member
  rcases eq_nil_or_concat map with rfl | ⟨before, last, rfl⟩
  · cases member
  · rw [concat_eq_append] at *
    have near := follows last (by simp)
    rcases mem_append.mp member with inBefore | isLast
    · exact precedes_through canonical.around.1 (canonical.proper last (by simp)) near.1 earlier inBefore
    · rw [mem_singleton.mp isLast]
      exact near

theorem Canonical.follows (canonical : Canonical (map ++ [span])) :
    ∀ last ∈ map.getLast?, last.Precedes span :=
  fun last isLast => canonical.around.1 last (mem_of_getLast? isLast)

def overlay (span : Span κ ν) (map : List (Span κ ν)) (address : κ) : Option ν :=
  if span.Covers address then some span.value else valueAt map address

section Overlay

variable {before after : List (Span κ ν)} {neighbour span : Span κ ν}

theorem overlay_extend {wider : Span κ ν} (canonical : Canonical (before ++ neighbour :: after))
    (same : neighbour.value = span.value) (wide : wider.value = span.value)
    (both : ∀ address, wider.Covers address ↔ neighbour.Covers address ∨ span.Covers address) :
    overlay wider (before ++ after) = overlay span (before ++ neighbour :: after) := by
  funext address
  simp only [overlay, canonical.valueAt_insert, both, wide]
  by_cases covers : span.Covers address
  · simp [covers]
  · simp [covers, same]

end Overlay

end SpanMap

end IpRange
