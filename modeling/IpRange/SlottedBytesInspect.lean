import IpRange.SlottedBytesCompact

/-!
Inspection of a stored page: the bitmap of used bytes, and that a page which
lays out a record list is accepted and read back as that list.
-/

namespace IpRange.SlottedBytes

open List

open SlottedPage (Header CellLayout shapeValid payload usedBytes filledHeader)
open MappedPage
open PageHeader

/-! The bitmap of used bytes. -/

def Marked (used : UsedBits) (at_ : Nat) : Prop := (used.getD (at_ / 64) 0#64).getLsbD (at_ % 64) = true

theorem not_marked_replicate (count at_ : Nat) : ¬ Marked (List.replicate count 0#64) at_ := by
  unfold Marked
  rw [getD_eq_getElem?_getD, getElem?_replicate]
  split <;> simp

variable {used : UsedBits} {index : Nat}

theorem getLsbD_ones (at_ : Nat) : (BitVec.allOnes 64).getLsbD (at_ % 64) = true := by
  rw [BitVec.getLsbD_allOnes, decide_eq_true_eq]
  omega

theorem getLsbD_endMask {bit at_ : Nat} (small : bit < 64) (inside : at_ < 64) :
    (endMask bit).getLsbD at_ = true ↔ bit = 0 ∨ at_ < bit := by
  unfold endMask
  split
  · next zero => rw [BitVec.getLsbD_allOnes, decide_eq_true_eq]; omega
  · next positive =>
      have value : ((1#64 <<< bit) - 1#64).toNat = 2 ^ bit - 1 := by
        have bound : 2 ^ bit < 2 ^ 64 := Nat.pow_lt_pow_right (by decide) small
        have least : 1 ≤ 2 ^ bit := Nat.one_le_two_pow
        rw [BitVec.toNat_sub, BitVec.toNat_shiftLeft]
        simp only [BitVec.toNat_ofNat, Nat.shiftLeft_eq]
        omega
      rw [BitVec.getLsbD, value, Nat.testBit_two_pow_sub_one, decide_eq_true_eq]
      omega

theorem markWord_spec (mask : BitVec 64) (inside : index < used.length)
    (free : ∀ at_, at_ / 64 = index → mask.getLsbD (at_ % 64) = true → ¬ Marked used at_) :
    ∃ marked, markWord mask index used = some marked ∧ marked.length = used.length ∧
      ∀ at_, Marked marked at_ ↔ Marked used at_ ∨
        at_ / 64 = index ∧ mask.getLsbD (at_ % 64) = true := by
  have apart : used[index] &&& mask = 0#64 := by
    refine BitVec.eq_of_getLsbD_eq fun at_ below => ?_
    have bit : (index * 64 + at_) / 64 = index ∧ (index * 64 + at_) % 64 = at_ := by omega
    have open_ := free (index * 64 + at_) bit.1
    unfold Marked at open_
    rw [bit.1, bit.2, getD_eq_getElem?_getD, getElem?_eq_getElem inside] at open_
    simp only [Option.getD_some] at open_
    rw [BitVec.getLsbD_and, BitVec.getLsbD_zero]
    cases isMasked : mask.getLsbD at_ with
    | false => simp
    | true => simpa using open_ isMasked
  refine ⟨used.set index (used[index] ||| mask), ?_, by simp, fun at_ => ?_⟩
  · simp [markWord, getElem?_eq_getElem inside, apart]
  · unfold Marked
    simp only [getD_eq_getElem?_getD]
    by_cases here : at_ / 64 = index
    · rw [here, getElem?_set_self inside, getElem?_eq_getElem inside]
      simp
    · rw [getElem?_set_ne (Ne.symm here)]
      simp [here]

theorem markWords_spec {left : Nat} (inside : index + left ≤ used.length)
    (free : ∀ at_, index ≤ at_ / 64 → at_ / 64 < index + left → ¬ Marked used at_) :
    ∃ marked, markWords index left used = some marked ∧ marked.length = used.length ∧
      ∀ at_, Marked marked at_ ↔ Marked used at_ ∨ index ≤ at_ / 64 ∧ at_ / 64 < index + left := by
  induction left generalizing index used with
  | zero => exact ⟨used, rfl, rfl, fun at_ => ⟨Or.inl, fun either => by
    rcases either with old | ⟨low, high⟩
    · exact old
    · omega⟩⟩
  | succ left ih =>
    obtain ⟨first, isFirst, long, marks⟩ := markWord_spec (BitVec.allOnes 64)
      (show index < used.length by omega) fun at_ here _ => free at_ (by omega) (by omega)
    obtain ⟨rest, isRest, longRest, marksRest⟩ := ih
      (show index + 1 + left ≤ first.length by omega) fun at_ low high isMarked => by
        rcases (marks at_).mp isMarked with old | ⟨here, _⟩
        · exact free at_ (by omega) (by omega) old
        · omega
    refine ⟨rest, ?_, by omega, fun at_ => ?_⟩
    · simp only [markWords, isFirst, Option.bind_eq_bind, Option.bind_some, isRest]
    · rw [marksRest, marks]
      simp only [getLsbD_ones, and_true]
      constructor
      · rintro ((old | here) | later)
        · exact Or.inl old
        · exact Or.inr (by omega)
        · exact Or.inr (by omega)
      · rintro (old | ⟨low, high⟩)
        · exact Or.inl (Or.inl old)
        · by_cases here : at_ / 64 = index
          · exact Or.inl (Or.inr here)
          · exact Or.inr (by omega)

theorem markExtent_spec {start end_ : Nat} (long : used.length = pageSize / 64)
    (ordered : start < end_) (inside : end_ ≤ pageSize)
    (free : ∀ at_, start ≤ at_ → at_ < end_ → ¬ Marked used at_) :
    ∃ marked, markExtent used start end_ = some marked ∧ marked.length = used.length ∧
      ∀ at_, Marked marked at_ ↔ Marked used at_ ∨ start ≤ at_ ∧ at_ < end_ := by
  have words : pageSize / 64 = 64 := rfl
  have bytes : pageSize = 4096 := rfl
  have from_ : ∀ at_ : Nat, (BitVec.allOnes 64 <<< (start % 64)).getLsbD (at_ % 64) = true ↔
      start % 64 ≤ at_ % 64 := by
    intro at_
    rw [BitVec.getLsbD_shiftLeft, BitVec.getLsbD_allOnes]
    simp only [Bool.and_eq_true, decide_eq_true_eq, Bool.not_eq_true', decide_eq_false_iff_not]
    omega
  have upTo : ∀ at_ : Nat, (endMask (end_ % 64)).getLsbD (at_ % 64) = true ↔
      end_ % 64 = 0 ∨ at_ % 64 < end_ % 64 := fun at_ => getLsbD_endMask (by omega) (by omega)
  unfold markExtent
  rw [if_neg (by simp only [Bool.or_eq_true, decide_eq_true_eq]; omega)]
  simp only
  split
  · next single =>
      have both : ∀ at_ : Nat, ((BitVec.allOnes 64 <<< (start % 64)) &&&
          endMask (end_ % 64)).getLsbD (at_ % 64) = true ↔
          start % 64 ≤ at_ % 64 ∧ (end_ % 64 = 0 ∨ at_ % 64 < end_ % 64) := by
        intro at_
        rw [BitVec.getLsbD_and, Bool.and_eq_true, from_, upTo]
      obtain ⟨marked, isMarked, same, marks⟩ := markWord_spec
        ((BitVec.allOnes 64 <<< (start % 64)) &&& endMask (end_ % 64))
        (show start / 64 < used.length by omega) fun at_ here masked => by
          have range := (both at_).mp masked
          exact free at_ (by omega) (by omega)
      refine ⟨marked, isMarked, same, fun at_ => ?_⟩
      rw [marks, both]
      refine or_congr_right ?_
      omega
  · next several =>
      obtain ⟨first, isFirst, sameFirst, marksFirst⟩ := markWord_spec
        (BitVec.allOnes 64 <<< (start % 64)) (show start / 64 < used.length by omega)
        fun at_ here masked => by
          have range := (from_ at_).mp masked
          exact free at_ (by omega) (by omega)
      obtain ⟨middle, isMiddle, sameMiddle, marksMiddle⟩ := markWords_spec
        (show start / 64 + 1 + ((end_ - 1) / 64 - (start / 64 + 1)) ≤ first.length by omega)
        fun at_ low high isMarked => by
          rcases (marksFirst at_).mp isMarked with old | ⟨here, _⟩
          · exact free at_ (by omega) (by omega) old
          · omega
      obtain ⟨last, isLast, sameLast, marksLast⟩ := markWord_spec (endMask (end_ % 64))
        (show (end_ - 1) / 64 < middle.length by omega) fun at_ here masked isMarked => by
          have range := (upTo at_).mp masked
          rcases (marksMiddle at_).mp isMarked with earlier | between
          · rcases (marksFirst at_).mp earlier with old | ⟨first, _⟩
            · exact free at_ (by omega) (by omega) old
            · omega
          · omega
      refine ⟨last, ?_, by omega, fun at_ => ?_⟩
      · simp only [isFirst, Option.bind_eq_bind, Option.bind_some, isMiddle, isLast]
      · rw [marksLast, marksMiddle, marksFirst, from_, upTo]
        simp only [or_assoc]
        refine or_congr_right ?_
        omega

/-! The extents of the records of a page. -/

section Extents

variable {identity : Identity} {header : Header} {page : MappedPage} {cells : List Bytes}
  {physical : List (Bytes × Nat)} {start : Nat}

def Conforms (layout : CellLayout) (cell : Bytes) : Prop :=
  match layout with
  | .fixed length => 0 < length ∧ cell.length = length
  | .varying minimum maximum => 2 ≤ cell.length ∧ leField cell 0 2 = cell.length ∧
      minimum ≤ cell.length ∧ cell.length ≤ maximum

instance (layout : CellLayout) (cell : Bytes) : Decidable (Conforms layout cell) := by
  unfold Conforms
  split <;> infer_instance

variable {layout : CellLayout} {cell : Bytes}

theorem Conforms.ne_nil (conforms : Conforms layout cell) : cell ≠ [] := by
  rintro rfl
  cases layout with
  | fixed length => exact absurd conforms.2 (by simp; have := conforms.1; omega)
  | varying minimum maximum => exact absurd conforms.1 (by simp)

theorem u16_record (long : 2 ≤ cell.length) (held : slice start cell.length page.bytes = cell) :
    page.u16 start = leField cell 0 2 := by
  have pair := congrArg (slice 0 2) held
  rw [slice_slice (by omega)] at pair
  exact congrArg fromLeBytes pair

section Stored

variable (arranged : Arranged identity header cells physical page)

include arranged

theorem Arranged.disjoint {first second : Nat} {firstCell secondCell : Bytes}
    (different : first ≠ second) (isFirst : cells[first]? = some firstCell)
    (isSecond : cells[second]? = some secondCell) :
    page.slot first + firstCell.length ≤ page.slot second ∨
      page.slot second + secondCell.length ≤ page.slot first := by
  obtain ⟨front, back, rfl, low, high⟩ := arranged.split isFirst
  rcases mem_append.mp ((arranged.placed secondCell second).mpr isSecond) with before | after
  · exact Or.inr (low.mem before).2.1
  · rcases mem_cons.mp after with same | behind
    · exact absurd (congrArg Prod.snd same).symm different
    · exact Or.inl (high.mem behind).1

variable (held : cells[index]? = some cell) (conforms : Conforms layout cell)

include held conforms

theorem layoutCell_eq : layoutCell layout page (identity.header cells) index =
    .ok { start := page.slot index, length := cell.length } := by
  obtain ⟨above, inside, read⟩ := arranged.stored held
  have upper := (header_fields identity cells).2.2
  have begins : slotStart page (identity.header cells) index = .ok _ :=
    slotStart_eq _ (List.getElem?_eq_some_iff.mp held).choose
  cases layout with
  | fixed length =>
    obtain ⟨_, rfl⟩ := conforms
    simp only [layoutCell, SlottedBytes.cell, begins, bind, Except.bind]
    rw [if_neg (by simp only [Bool.or_eq_true, decide_eq_true_eq, upper]; omega), ByteRange.new,
      if_pos inside]
    rfl
  | varying minimum maximum =>
    obtain ⟨long, declared, least, most⟩ := conforms
    simp only [layoutCell, record, begins, bind, Except.bind, (u16_record long read).trans declared]
    rw [if_neg (by simp only [Bool.or_eq_true, decide_eq_true_eq, upper]; omega),
      if_neg (by simp only [Bool.or_eq_true, decide_eq_true_eq]; omega), if_neg (by omega),
      ByteRange.new, if_pos inside]
    rfl

theorem extentOf_eq : extentOf layout page (identity.header cells) index =
    some { start := page.slot index, length := cell.length } := by
  cases layout with
  | fixed length =>
    obtain ⟨above, inside, _⟩ := arranged.stored held
    have upper := (header_fields identity cells).2.2
    obtain ⟨_, rfl⟩ := conforms
    simp only [extentOf, fixedExtent]
    rw [if_neg (by simp only [Bool.or_eq_true, decide_eq_true_eq, upper]; omega)]
  | varying minimum maximum =>
    have stored : record page (identity.header cells) index minimum maximum = .ok _ :=
      layoutCell_eq arranged held conforms
    simp only [extentOf, stored]
    rfl

theorem Arranged.read_cell {reservedNonzero : Bool} :
    (LayoutInspection.cell ⟨reservedNonzero, header, layout⟩ page index).read page = cell := by
  have stored := (arranged.stored held).2.2
  cases layout with
  | fixed length =>
    simp only [LayoutInspection.cell, ByteRange.read, ← conforms.2]
    exact stored
  | varying minimum maximum =>
    simp only [LayoutInspection.cell, ByteRange.read, u16_record conforms.1 stored, conforms.2.1]
    exact stored

end Stored

def BelowSlot (cells : List Bytes) (page : MappedPage) (index at_ : Nat) : Prop :=
  ∃ other < index, ∃ cell, cells[other]? = some cell ∧ page.slot other ≤ at_ ∧
    at_ < page.slot other + cell.length

theorem inspectExtents_spec {left : Nat} (minimum : Nat)
    (arranged : Arranged identity header cells physical page)
    (conform : ∀ cell ∈ cells, Conforms layout cell) (long : used.length = pageSize / 64)
    (count : index + left = cells.length)
    (marks : ∀ at_, Marked used at_ ↔ BelowSlot cells page index at_) :
    ∃ marked least, inspectExtents layout page (identity.header cells) index left
        used minimum = some (marked, least) ∧ marked.length = pageSize / 64 ∧
      (∀ at_, Marked marked at_ ↔ BelowSlot cells page cells.length at_) ∧ least ≤ minimum ∧
      (∀ other, index ≤ other → other < cells.length → least ≤ page.slot other) ∧
      (pageSize - payload cells ≤ minimum → pageSize - payload cells ≤ least) := by
  induction left generalizing index used minimum with
  | zero =>
    obtain rfl : index = cells.length := by omega
    exact ⟨used, minimum, rfl, long, marks, le_rfl, fun other behind inside => by omega, id⟩
  | succ left ih =>
    have held : cells[index]? = some cells[index] := getElem?_eq_getElem (by omega)
    have fits := conform _ (mem_of_getElem? held)
    have positive := length_pos_iff.mpr fits.ne_nil
    obtain ⟨above, inside, _⟩ := arranged.stored held
    obtain ⟨next, isNext, same, marksNext⟩ := markExtent_spec long
      (Nat.lt_add_of_pos_right positive) inside fun byte low high isMarked => by
        obtain ⟨other, below, otherCell, isOther, from_, upTo⟩ := (marks byte).mp isMarked
        have apart := arranged.disjoint (by omega) isOther held
        omega
    obtain ⟨marked, least, result, longMarked, marksAll, low, lowest, floor⟩ := ih
      (min minimum (page.slot index))
      (show next.length = pageSize / 64 by omega)
      (show index + 1 + left = cells.length by omega) (fun byte => by
        rw [marksNext, marks]
        constructor
        · rintro (⟨other, below, rest⟩ | inCell)
          · exact ⟨other, by omega, rest⟩
          · exact ⟨index, by omega, _, held, inCell⟩
        · rintro ⟨other, below, otherCell, isOther, inCell⟩
          by_cases isHere : other = index
          · subst isHere
            rw [held, Option.some.injEq] at isOther
            subst isOther
            exact Or.inr inCell
          · exact Or.inl ⟨other, by omega, otherCell, isOther, inCell⟩)
    refine ⟨marked, least, ?_, longMarked, marksAll, by omega, fun other behind stored => ?_,
      fun bound => floor (by omega)⟩
    · simp only [inspectExtents, extentOf_eq arranged held fits, Option.bind_eq_bind,
        Option.bind_some, isNext, result]
    · by_cases isHere : other = index
      · subst isHere
        omega
      · exact lowest other (by omega) stored

theorem nonzeroRun_zero (page : MappedPage) (base turns : Nat) :
    nonzeroRun page base turns 0#64 = false := by
  cases turns <;> rfl

theorem unmarkedNonzero_eq_false (page : MappedPage) (long : used.length = pageSize / 64)
    (all : ∀ at_, start ≤ at_ → at_ < pageSize → Marked used at_) :
    unmarkedNonzero page used start = false := by
  have words : pageSize / 64 = 64 := rfl
  have bytes : pageSize = 4096 := rfl
  unfold unmarkedNonzero
  rw [any_eq_false]
  rintro ⟨marked, wordIndex⟩ member
  have stored : used[wordIndex]? = some marked :=
    mk_mem_zipIdx_iff_getElem?.mp (mem_of_mem_drop member)
  have inside : wordIndex < used.length := (List.getElem?_eq_some_iff.mp stored).choose
  have none : ~~~marked &&& (if wordIndex * 64 < start then
      BitVec.allOnes 64 <<< (start - wordIndex * 64) else BitVec.allOnes 64) = 0#64 := by
    refine BitVec.eq_of_getLsbD_eq fun bit below => ?_
    by_cases covered : start ≤ wordIndex * 64 + bit
    · have isMarked := all (wordIndex * 64 + bit) covered (by omega)
      unfold Marked at isMarked
      rw [show (wordIndex * 64 + bit) / 64 = wordIndex by omega,
        show (wordIndex * 64 + bit) % 64 = bit by omega, getD_eq_getElem?_getD, stored] at isMarked
      simp only [Option.getD_some] at isMarked
      simp [isMarked]
    · rw [if_pos (by omega)]
      simp only [BitVec.getLsbD_and, BitVec.getLsbD_shiftLeft, BitVec.getLsbD_zero]
      simp
      omega
  simp only [none, nonzeroRun_zero, Bool.false_eq_true, not_false_eq_true]

theorem allZero_eq {end_ : Nat} (inside : end_ ≤ pageSize) (ordered : start ≤ end_)
    (cleared : Cleared page start end_) : page.allZero start (end_ - start) = true := by
  rw [MappedPage.allZero, Bool.and_eq_true, decide_eq_true_eq, all_eq_true]
  refine ⟨by omega, fun byte member => ?_⟩
  obtain ⟨index, found⟩ := getElem?_of_mem member
  rw [getElem?_slice] at found
  split at found
  · next below =>
      have zero := congrArg (·[0]?) (cleared (start + index) (by omega) (by omega))
      simp only [getElem?_slice] at zero
      simp_all
  · cases found

theorem inspectLayout_spec (laid : Laid identity cells page) (inhabited : cells ≠ [])
    (conform : ∀ cell ∈ cells, Conforms layout cell) :
    ∃ inspection, inspectLayout page (rawHeader page) layout = some inspection ∧
      inspection.reservedNonzero = false ∧
      (inspection.cells page).map (·.read page) = cells := by
  have header := laid.rawHeader
  obtain ⟨physical, arranged⟩ := laid
  have room := arranged.room
  have filled := SlottedPage.payload_pos cells inhabited arranged.filled
  obtain ⟨items, lower, upper⟩ := header_fields identity cells
  rw [header]
  have shaped : shapeValid (identity.header cells) = true :=
    SlottedPage.shapeValid_filledHeader _ cells ⟨inhabited, arranged.filled, room⟩
  simp only [usedBytes] at room
  have possible : layoutPossible layout = true := by
    cases layout with
    | varying minimum maximum => rfl
    | fixed length =>
      obtain ⟨cell, rest, rfl⟩ := exists_cons_of_ne_nil inhabited
      have long := (conform cell (by simp)).2
      simp only [SlottedPage.payload_cons] at room
      simp only [layoutPossible, decide_eq_true_eq]
      omega
  have fresh : ∀ at_, Marked (List.replicate (pageSize / 64) 0#64) at_ ↔ BelowSlot cells page 0 at_ :=
    fun at_ => ⟨fun isMarked => absurd isMarked (not_marked_replicate _ _), fun ⟨_, below, _⟩ =>
      absurd below (Nat.not_lt_zero _)⟩
  obtain ⟨marked, least, result, long, marks, _, lowest, floor⟩ :
      ∃ marked least, inspectExtents layout page (identity.header cells) 0
        cells.length (List.replicate (pageSize / 64) 0#64) pageSize = some (marked, least) ∧ _ :=
    inspectExtents_spec pageSize arranged conform (by simp) (Nat.zero_add _) fresh
  have whole : ∀ at_, pageSize - payload cells ≤ at_ → at_ < pageSize →
      BelowSlot cells page cells.length at_ := by
    intro at_ low high
    obtain ⟨placed, member, inside⟩ := arranged.chain.covered low high
    exact ⟨placed.2, arranged.inside member, placed.1, (arranged.placed _ _).mp member, inside⟩
  have first : least = pageSize - payload cells := by
    obtain ⟨other, inside, _, _, below, _⟩ := whole (pageSize - payload cells) le_rfl (by omega)
    have bound := lowest other (Nat.zero_le _) inside
    have base := floor (by omega)
    omega
  have covered : unmarkedNonzero page marked (pageSize - payload cells) = false :=
    unmarkedNonzero_eq_false page long fun at_ low high => (marks at_).mpr (whole at_ low high)
  have zeroed := allZero_eq (Nat.sub_le _ _) (by omega) arranged.cleared
  refine ⟨{ reservedNonzero := false, header := identity.header cells, layout },
    ?_, rfl, ?_⟩
  · unfold inspectLayout
    rw [shaped, possible, items]
    simp only [Bool.not_true, Bool.or_self, Bool.false_eq_true, if_false, result,
      Option.bind_eq_bind, Option.bind_some, first, upper, lower, bne_self_eq_false, zeroed, covered]
  · refine ext_getElem? fun index => ?_
    simp only [LayoutInspection.cells, items, getElem?_map]
    by_cases inside : index < cells.length
    · rw [getElem?_range inside, getElem?_eq_getElem inside]
      exact congrArg some (arranged.read_cell (getElem?_eq_getElem inside)
        (conform _ (getElem_mem inside)))
    · rw [getElem?_eq_none (by simp; omega), getElem?_eq_none (by omega)]
      rfl

end Extents

end IpRange.SlottedBytes
