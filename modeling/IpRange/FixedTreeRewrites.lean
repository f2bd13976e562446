import IpRange.FixedTreePages

/-!
Rewriting canonical tree pages: edits in place, the choice of a split point and
the two pages a split leaves.
-/

namespace IpRange.FixedTree

open List hiding get
open SlottedPage

variable {Key Leaf : Type} {codec : Codec Key Leaf}

section Edits

variable (born level : Nat)

theorem branchChild_treePage (cells : List Bytes) (index pageLimit child : Nat)
    (branch : level ≠ 0) (bound : index < cells.length) (readable : Readable codec level cells)
    (points : codec.readBranchChild cells[index] = .ok child) (real : 2 ≤ child)
    (inside : child < pageLimit) :
    branchChild codec (treePage codec born level cells) (filledHeader level cells) index pageLimit =
      .ok child := by
  have found := codecCell_treePage born level cells index bound readable
  simp only [codecCell, filledHeader_level, branch, if_false] at found
  have range : (decide (child < 2) || decide (pageLimit ≤ child)) = false := by
    simp only [Bool.or_eq_false_iff, decide_eq_false_iff_not]
    omega
  simp only [branchChild, found, requireChild, points, bind, Except.bind, range, Bool.false_eq_true,
    if_false]

theorem truncatePage_treePage (lawful : LawfulCodec codec) {cells : List Bytes} {keep : Nat}
    (positive : 0 < keep) (inside : keep ≤ cells.length) (readable : Readable codec level cells)
    (packed : usedBytes cells ≤ pageSize) :
    truncatePage codec (filledHeader level cells) keep (treePage codec born level cells) =
      .ok (filledHeader level (cells.take keep)) (treePage codec born level (cells.take keep)) := by
  obtain ⟨left, right, rfl, rfl⟩ : ∃ left right, cells = left ++ right ∧ keep = left.length :=
    ⟨cells.take keep, cells.drop keep, by simp, by simp [inside]⟩
  have kept : left ≠ [] := length_pos_iff.mp positive
  unfold truncatePage
  rw [filledHeader_level, take_left]
  cases fixed : fixedCellSize codec level with
  | none => exact truncate_filledPage _ born level codec.aux left right kept
  | some cellLen =>
    exact truncateFixed_filledPage _ born level codec.aux left right cellLen kept
      (fixedCellSize_layout lawful level cellLen fixed).2 (readable.lengths lawful fixed) packed

theorem codecCell_middle {left right : List Bytes} {old : Bytes}
    (readable : Readable codec level (left ++ old :: right)) :
    codecCell codec (treePage codec born level (left ++ old :: right))
      (filledHeader level (left ++ old :: right)) left.length = .ok old := by
  rw [codecCell_treePage born level _ left.length (by simp) readable]
  simp

theorem usedBytes_sublist {fewer cells : List Bytes} (sub : fewer.Sublist cells) :
    usedBytes fewer ≤ usedBytes cells := by
  induction sub with
  | slnil => exact Nat.le_refl _
  | cons record _ ih =>
    simp only [usedBytes, length_cons, payload_cons] at ih ⊢
    omega
  | cons_cons record _ ih =>
    simp only [usedBytes, length_cons, payload_cons] at ih ⊢
    omega

theorem usedBytes_first (left rest right : List Bytes) (record : Bytes) :
    usedBytes (left ++ record :: right) ≤ usedBytes (left ++ record :: rest ++ right) := by
  refine usedBytes_sublist ?_
  rw [append_assoc]
  exact List.Sublist.append_left
    (List.Sublist.cons_cons record (sublist_append_right rest right)) left

theorem usedBytes_room {left right : List Bytes} {record : Bytes}
    (fits : usedBytes (left ++ record :: right) ≤ pageSize) :
    usedBytes (left ++ right) + 2 + record.length ≤ pageSize := by
  simp only [usedBytes, length_append, length_cons, payload_append, payload_cons] at fits ⊢
  omega

variable (codec) in
theorem applyEdit_replace (left right : List Bytes) (old record : Bytes)
    (readable : Readable codec level (left ++ old :: right)) (present : record ≠ [])
    (fits : usedBytes (left ++ record :: right) ≤ pageSize)
    (packed : usedBytes (left ++ old :: right) ≤ pageSize) :
    applyEdit codec (filledHeader level (left ++ old :: right))
        { index := left.length, replace := true, cell := record }
        (treePage codec born level (left ++ old :: right)) =
      .ok () (treePage codec born level (left ++ record :: right)) := by
  have found := codecCell_middle born level readable
  have stored : old ≠ [] := readable.present old (by simp)
  have edited := replace_filledPage (pageTypeAt codec level) born level codec.aux left right old
    record stored present fits packed
  simp only [applyEdit, if_true, get_bind_apply, found, liftResult_bind_apply]
  unfold treePage at edited ⊢
  rw [bind_apply_of_ok edited]
  rfl

variable (codec) in
theorem applyEdit_insert (left right : List Bytes) (record : Bytes) (present : record ≠ [])
    (fits : usedBytes (left ++ record :: right) ≤ pageSize) :
    applyEdit codec (filledHeader level (left ++ right))
        { index := left.length, replace := false, cell := record }
        (treePage codec born level (left ++ right)) =
      .ok () (treePage codec born level (left ++ record :: right)) := by
  have edited := insert_filledPage (pageTypeAt codec level) born level codec.aux left right record
    present (usedBytes_room fits)
  simp only [applyEdit, Bool.false_eq_true, if_false, bind, EStateM.bind]
  unfold treePage
  rw [edited]
  rfl

variable (codec) in
theorem insertCells_treePage (height : level ≤ maxTreeLevel) (positive : 0 < born)
    (word : born < 2 ^ 64) (left new right : List Bytes) (inhabited : left ≠ [])
    (present : ∀ record ∈ left ++ new ++ right, record ≠ [])
    (fits : usedBytes (left ++ new ++ right) ≤ pageSize) :
    insertCells codec level left.length new (treePage codec born level (left ++ right)) =
      .ok () (treePage codec born level (left ++ new ++ right)) := by
  induction new generalizing left with
  | nil => simp [insertCells, pure, EStateM.pure]
  | cons record rest ih =>
    have storable : Storable (left ++ right) := by
      refine ⟨by simp [inhabited], ?_, ?_⟩
      · exact fun item member => present item (by
          simp only [mem_append] at member ⊢
          tauto)
      · refine le_trans (usedBytes_sublist ?_) fits
        exact List.Sublist.append_right (sublist_append_left left _) right
    have parsed := parse_treePage codec born level (left ++ right) (2 ^ 64 - 1)
      (some level) storable positive (by omega) height (by simp)
    have edited := insert_filledPage (pageTypeAt codec level) born level codec.aux left right
      record (present record (by simp))
      (usedBytes_room ((usedBytes_first left rest right record).trans fits))
    have next := ih (left ++ [record]) (by simp) (by simpa using present) (by simpa using fits)
    simp only [length_append, length_singleton, append_assoc, singleton_append]
      at next
    simp only [insertCells, get_bind_apply, parsed, liftResult_bind_apply]
    unfold treePage at edited next ⊢
    rw [bind_apply_of_ok edited]
    simpa using next

variable (codec) in
theorem applyCells_treePage (height : level ≤ maxTreeLevel) (positive : 0 < born)
    (word : born < 2 ^ 64) (left new right : List Bytes) (old : Bytes) (some_ : new ≠ [])
    (readable : Readable codec level (left ++ old :: right)) (present : ∀ record ∈ new, record ≠ [])
    (fits : usedBytes (left ++ new ++ right) ≤ pageSize)
    (packed : usedBytes (left ++ old :: right) ≤ pageSize) :
    applyCells codec (filledHeader level (left ++ old :: right)) left.length new
        (treePage codec born level (left ++ old :: right)) =
      .ok () (treePage codec born level (left ++ new ++ right)) := by
  cases new with
  | nil => exact absurd rfl some_
  | cons record rest =>
    have found := codecCell_middle born level readable
    have edited := replace_filledPage (pageTypeAt codec level) born level codec.aux left right old
      record (readable.present old (by simp)) (present record (by simp))
      ((usedBytes_first left rest right record).trans fits) packed
    have more := insertCells_treePage codec born level height positive word
      (left ++ [record]) rest right (by simp)
      (by simpa using forall_replaced readable.present present) (by simpa using fits)
    simp only [length_append, length_singleton, append_assoc, singleton_append]
      at more
    simp only [applyCells, get_bind_apply, found, liftResult_bind_apply]
    unfold treePage at edited more ⊢
    rw [bind_apply_of_ok edited]
    simpa using more

end Edits

section Splits

structure SplitsAt (cells : List Bytes) (middle : Nat) : Prop where
  left : 0 < middle
  right : middle < cells.length
  leftFits : usedBytes (cells.take middle) ≤ pageSize
  rightFits : usedBytes (cells.drop middle) ≤ pageSize

structure Cuttable (cells : List Bytes) : Prop where
  small : ∀ record ∈ cells, record.length ≤ maxTreeCell
  full : ¬ usedBytes cells ≤ pageSize
  spare : usedBytes cells ≤ pageSize + 3 * (maxTreeCell + 2)

def SplitChosen (cells : List Bytes) (result : Except Error Nat) : Prop :=
  (∃ middle, result = .ok middle ∧ SplitsAt cells middle) ∨
    (∀ middle, ¬ SplitsAt cells middle) ∧
      result = .error (.invalidArgument "B+tree record cannot be split")

theorem usedBytes_fixed (cells : List Bytes) (cellLen : Nat)
    (lengths : ∀ record ∈ cells, record.length = cellLen) :
    usedBytes cells = pageBytes cells.length (cells.length * cellLen) := by
  simp only [usedBytes, payload_fixed cells cellLen lengths, pageBytes]
  omega

theorem fixedSplitIndex_chosen (cells : List Bytes) (cellLen : Nat) (several : 2 ≤ cells.length)
    (lengths : ∀ record ∈ cells, record.length = cellLen) :
    SplitChosen cells (fixedSplitIndex cells.length cellLen) := by
  have taken (middle : Nat) := usedBytes_fixed (cells.take middle) cellLen fun record member =>
    lengths record (mem_of_mem_take member)
  have dropped (middle : Nat) := usedBytes_fixed (cells.drop middle) cellLen fun record member =>
    lengths record (mem_of_mem_drop member)
  have left : min (cells.length / 2) cells.length = cells.length / 2 := by omega
  simp only [length_take, length_drop] at taken dropped
  unfold fixedSplitIndex
  rw [if_neg (by omega)]
  simp only [Bool.or_eq_true, decide_eq_true_eq]
  split
  · rename_i overflow
    refine Or.inr ⟨?_, rfl⟩
    rintro middle ⟨positive, bound, leftFits, rightFits⟩
    rw [taken, min_eq_left (by omega)] at leftFits
    rw [dropped] at rightFits
    have grows {fewer more : Nat} (less : fewer ≤ more) :
        pageBytes fewer (fewer * cellLen) ≤ pageBytes more (more * cellLen) := by
      have product := Nat.mul_le_mul_right cellLen less
      simp only [pageBytes]
      omega
    rcases overflow with tall | tall
    · rcases Nat.lt_or_ge middle (cells.length / 2) with low | high
      · have := grows (by omega : cells.length / 2 ≤ cells.length - middle)
        omega
      · have := grows high
        omega
    · rcases Nat.lt_or_ge middle (cells.length - cells.length / 2) with low | high
      · have := grows (by omega : cells.length - cells.length / 2 ≤ cells.length - middle)
        omega
      · have := grows high
        omega
  · rename_i fits
    refine Or.inl ⟨_, rfl, by omega, by omega, ?_, ?_⟩
    · rw [taken, left]
      omega
    · rw [dropped]
      omega

theorem usedBytes_take_succ (cells : List Bytes) (count : Nat) (inside : count < cells.length) :
    usedBytes (cells.take (count + 1)) = usedBytes (cells.take count) + (cells[count].length + 2) := by
  rw [take_succ_eq_append_getElem inside]
  simp only [usedBytes, length_append, length_singleton, payload_append, payload_cons,
    payload_nil]
  omega

theorem exists_packed_front (cells : List Bytes) (count : Nat) (inside : count ≤ cells.length) :
    ∃ front ≤ count, usedBytes (cells.take front) ≤ pageSize ∧
      (front = count ∨ pageSize < usedBytes (cells.take (front + 1))) := by
  induction count with
  | zero => exact ⟨0, Nat.le_refl _, by rw [take_zero]; decide, Or.inl rfl⟩
  | succ count ih =>
    obtain ⟨front, within, fits, edge⟩ := ih (by omega)
    rcases edge with rfl | full
    · by_cases more : usedBytes (cells.take (front + 1)) ≤ pageSize
      · exact ⟨front + 1, Nat.le_refl _, more, Or.inl rfl⟩
      · exact ⟨front, by omega, fits, Or.inr (by omega)⟩
    · exact ⟨front, by omega, fits, Or.inr full⟩

theorem Cuttable.exists_split {cells : List Bytes} (cuttable : Cuttable cells) :
    ∃ middle, SplitsAt cells middle := by
  obtain ⟨front, within, fits, edge⟩ := exists_packed_front cells cells.length (Nat.le_refl _)
  have inside : front < cells.length := by
    refine lt_of_le_of_ne within fun all => cuttable.full ?_
    rwa [all, take_length] at fits
  have full := edge.resolve_left (by omega)
  have next := usedBytes_take_succ cells front inside
  have small := cuttable.small cells[front] (getElem_mem inside)
  have whole := congrArg payload (take_append_drop front cells)
  have spare := cuttable.spare
  rw [payload_append] at whole
  refine ⟨front, ?_, inside, fits, ?_⟩
  · by_contra none
    have zero : front = 0 := by omega
    subst zero
    simp only [usedBytes, take_zero, length_nil, payload_nil, pageSize, headerSize,
      maxTreeCell] at next full small
    omega
  · simp only [usedBytes, length_take, length_drop, pageSize, headerSize,
      maxTreeCell] at fits full next small spare ⊢
    omega

theorem payloadSize_cells (cells : List Bytes) (cellLen : Nat → Except Error Nat)
    (measured : ∀ index (bound : index < cells.length), cellLen index = .ok cells[index].length)
    (count index : Nat) (bound : index + count ≤ cells.length) :
    payloadSize cellLen count index = .ok (payload ((cells.drop index).take count)) := by
  induction count generalizing index with
  | zero => simp [payloadSize]
  | succ count ih =>
    have inside : index < cells.length := by omega
    simp only [payloadSize, measured index inside, ih (index + 1) (by omega), bind, Except.bind]
    rw [drop_eq_getElem_cons inside, take_succ_cons, payload_cons]

theorem splitDifference_some (cells : List Bytes) (middle difference : Nat)
    (positive : 0 < middle) (bound : middle < cells.length)
    (chosen : splitDifference cells.length middle (payload cells) (payload (cells.take middle)) =
      .ok (some difference)) : SplitsAt cells middle := by
  have whole := congrArg payload (take_append_drop middle cells)
  rw [payload_append] at whole
  unfold splitDifference at chosen
  rw [if_neg (by omega)] at chosen
  simp only [Bool.or_eq_true, decide_eq_true_eq] at chosen
  split at chosen
  · cases chosen
  · rename_i fits
    refine ⟨positive, bound, ?_, ?_⟩
    · simp only [pageBytes, usedBytes, length_take] at fits ⊢
      omega
    · simp only [pageBytes, usedBytes, length_drop] at fits ⊢
      omega

theorem splitDifference_none (cells : List Bytes) (middle : Nat)
    (refused : splitDifference cells.length middle (payload cells) (payload (cells.take middle)) =
      .ok none) : ¬ SplitsAt cells middle := by
  rintro ⟨positive, bound, leftFits, rightFits⟩
  have whole := congrArg payload (take_append_drop middle cells)
  rw [payload_append] at whole
  unfold splitDifference at refused
  rw [if_neg (by omega)] at refused
  simp only [Bool.or_eq_true, decide_eq_true_eq] at refused
  split at refused
  · rename_i overflow
    simp only [pageBytes, usedBytes, length_take, length_drop] at overflow leftFits rightFits
    omega
  · cases refused

theorem chooseSplit_splits (cells : List Bytes) (cellLen : Nat → Except Error Nat)
    (measured : ∀ index (bound : index < cells.length), cellLen index = .ok cells[index].length)
    (count middle : Nat) (best : Option (Nat × Nat)) (positive : 0 < middle)
    (bound : middle + count ≤ cells.length) (good : ∀ pair ∈ best, SplitsAt cells pair.1) :
    ∃ result, chooseSplit cells.length (payload cells) cellLen count middle
        (payload (cells.take (middle - 1))) best = .ok result ∧
      (∀ pair ∈ result, SplitsAt cells pair.1) ∧ (result = none → best = none ∧
        ∀ point, middle ≤ point → point < middle + count → ¬ SplitsAt cells point) := by
  induction count generalizing middle best with
  | zero => exact ⟨best, rfl, good, fun none => ⟨none, fun point _ _ => by omega⟩⟩
  | succ count ih =>
    have inside : middle - 1 < cells.length := by omega
    have advance : payload (cells.take (middle - 1)) + cells[middle - 1].length =
        payload (cells.take middle) := by
      have step : cells.take middle = cells.take (middle - 1) ++ [cells[middle - 1]] := by
        rw [← take_succ_eq_append_getElem inside]
        congr 1
        omega
      rw [step, payload_append, payload_cons, payload_nil, Nat.add_zero]
    have later := ih (middle + 1)
    simp only [Nat.add_sub_cancel] at later
    simp only [chooseSplit, measured _ inside, bind, Except.bind, advance]
    cases difference : splitDifference cells.length middle (payload cells)
        (payload (cells.take middle)) with
    | error error =>
      exfalso
      have small := payload_take_le cells middle
      unfold splitDifference at difference
      rw [if_neg (by omega)] at difference
      dsimp only at difference
      split at difference <;> cases difference
    | ok found =>
      cases found with
      | none =>
        obtain ⟨result, run, splits, nowhere⟩ := later best (by omega) (by omega) good
        refine ⟨result, run, splits, fun none => ⟨(nowhere none).1, ?_⟩⟩
        intro point low high
        rcases Nat.eq_or_lt_of_le low with rfl | after
        · exact splitDifference_none cells middle difference
        · exact (nowhere none).2 point after (by omega)
      | some value =>
        have splits := splitDifference_some cells middle value positive (by omega) difference
        have proceed : ∀ next, next ≠ none → (∀ pair ∈ next, SplitsAt cells pair.1) →
            ∃ result, chooseSplit cells.length (payload cells) cellLen count (middle + 1)
                (payload (cells.take middle)) next = .ok result ∧
              (∀ pair ∈ result, SplitsAt cells pair.1) ∧ (result = none → best = none ∧
                ∀ point, middle ≤ point → point < middle + (count + 1) →
                  ¬ SplitsAt cells point) := by
          intro next some_ fine
          obtain ⟨result, run, all, nowhere⟩ := later next (by omega) (by omega) fine
          exact ⟨result, run, all, fun none => absurd (nowhere none).1 some_⟩
        cases best with
        | none =>
          refine proceed _ (by simp) ?_
          rintro pair ⟨⟩
          exact splits
        | some prior =>
          dsimp only
          split
          · refine proceed _ (by simp) ?_
            rintro pair ⟨⟩
            exact splits
          · exact proceed _ (by simp) good

theorem splitBySize_chosen (cells : List Bytes) (cellLen : Nat → Except Error Nat)
    (several : 2 ≤ cells.length)
    (measured : ∀ index (bound : index < cells.length), cellLen index = .ok cells[index].length) :
    SplitChosen cells (splitBySize cells.length cellLen) := by
  have total := payloadSize_cells cells cellLen measured cells.length 0 (by omega)
  simp only [drop_zero, take_length] at total
  obtain ⟨result, chosen, good, nowhere⟩ := chooseSplit_splits cells cellLen measured
    (cells.length - 1) 1 none (by omega) (by omega) (by simp)
  simp only [Nat.sub_self, take_zero, payload_nil] at chosen
  simp only [splitBySize, if_neg (Nat.not_lt.mpr several), total, chosen, bind, Except.bind]
  cases result with
  | none =>
    refine Or.inr ⟨fun middle splits => ?_, rfl⟩
    have inside := splits.right
    exact (nowhere rfl).2 middle splits.left (by omega) splits
  | some pair => exact Or.inl ⟨pair.1, rfl, good pair rfl⟩

theorem two_of_full (left new right : List Bytes) (some_ : new ≠ [])
    (alone : ∀ record ∈ new, usedBytes [record] ≤ pageSize)
    (full : ¬ usedBytes (left ++ new ++ right) ≤ pageSize) : 2 ≤ (left ++ new ++ right).length := by
  by_contra few
  obtain ⟨record, rest, rfl⟩ := exists_cons_of_ne_nil some_
  simp only [length_append, length_cons] at few
  obtain rfl : left = [] := length_eq_zero_iff.mp (by omega)
  obtain rfl : right = [] := length_eq_zero_iff.mp (by omega)
  obtain rfl : rest = [] := length_eq_zero_iff.mp (by omega)
  exact full (by simpa using alone record (by simp))

theorem exists_split_of_few {left new right : List Bytes} {old : Bytes}
    (packed : usedBytes (left ++ old :: right) ≤ pageSize) (few : new.length ≤ 3)
    (small : ∀ record ∈ left ++ new ++ right, record.length ≤ maxTreeCell)
    (full : ¬ usedBytes (left ++ new ++ right) ≤ pageSize) :
    ∃ middle, SplitsAt (left ++ new ++ right) middle := by
  have added := payload_le_of_forall new maxTreeCell fun record member =>
    small record (by simp [member])
  have spare : usedBytes (left ++ new ++ right) ≤ pageSize + 3 * (maxTreeCell + 2) := by
    have room : new.length * maxTreeCell ≤ 3 * maxTreeCell := Nat.mul_le_mul_right _ few
    simp only [usedBytes, length_append, length_cons, payload_append,
      payload_cons] at packed ⊢
    omega
  exact Cuttable.exists_split ⟨small, full, spare⟩

/-- The pending record shares a page with those before it or those after it, and some record is
left for the other page. -/
def Separable (left right : List Bytes) (record : Bytes) : Prop :=
  left ≠ [] ∧ usedBytes (record :: right) ≤ pageSize ∨
    right ≠ [] ∧ usedBytes (left ++ [record]) ≤ pageSize

def maxSplitCell : Nat := (pageSize - headerSize) / 2 - 2

variable {left right : List Bytes} {record : Bytes}

theorem SplitsAt.separable {middle : Nat} (splits : SplitsAt (left ++ record :: right) middle) :
    Separable left right record := by
  obtain ⟨positive, bound, leftFits, rightFits⟩ := splits
  simp only [length_append, length_cons] at bound
  rcases Nat.lt_or_ge left.length middle with inLeft | inRight
  · refine Or.inr ⟨?_, le_trans (usedBytes_sublist ?_) leftFits⟩
    · rintro rfl
      rw [length_nil] at bound
      omega
    · obtain ⟨count, rfl⟩ : ∃ count, middle = left.length + (count + 1) :=
        ⟨middle - left.length - 1, by omega⟩
      rw [take_length_add_append, take_succ_cons]
      exact List.Sublist.append_left (singleton_sublist.mpr (by simp)) _
  · refine Or.inl ⟨?_, le_trans (usedBytes_sublist ?_) rightFits⟩
    · rintro rfl
      rw [length_nil] at inRight
      omega
    · rw [drop_append_of_le_length inRight]
      exact sublist_append_right _ _

theorem Separable.exists_split (separable : Separable left right record)
    (packed : usedBytes (left ++ right) ≤ pageSize) :
    ∃ middle, SplitsAt (left ++ record :: right) middle := by
  rcases separable with ⟨some_, fits⟩ | ⟨some_, fits⟩
  · have count := length_pos_iff.mpr some_
    refine ⟨left.length, count, by simp, ?_, ?_⟩
    · rw [take_left]
      exact le_trans (usedBytes_sublist (sublist_append_left left right)) packed
    · rw [drop_left]
      exact fits
  · have count := length_pos_iff.mpr some_
    have shape : left ++ record :: right = left ++ [record] ++ right := by simp
    have length : (left ++ [record]).length = left.length + 1 := by simp
    refine ⟨left.length + 1, by omega, by simpa using count, ?_, ?_⟩
    · rw [shape, ← length, take_left]
      exact fits
    · rw [shape, ← length, drop_left]
      exact le_trans (usedBytes_sublist (sublist_append_right left right)) packed

theorem separable_of_small (small : record.length ≤ maxSplitCell)
    (packed : usedBytes (left ++ right) ≤ pageSize)
    (full : ¬ usedBytes (left ++ record :: right) ≤ pageSize) : Separable left right record := by
  simp only [maxSplitCell, pageSize, headerSize] at small
  simp only [Separable, usedBytes, length_append, length_cons, payload_append,
    payload_cons, payload_nil, length_nil, pageSize, headerSize] at packed full ⊢
  by_cases noLeft : left = []
  · subst noLeft
    simp only [length_nil, payload_nil] at packed full ⊢
    refine Or.inr ⟨?_, by omega⟩
    rintro rfl
    simp only [length_nil, payload_nil] at full
    omega
  · by_cases noRight : right = []
    · subst noRight
      simp only [length_nil, payload_nil] at packed full ⊢
      exact Or.inl ⟨noLeft, by omega⟩
    · rcases Nat.lt_or_ge (2 * left.length + payload left) (2 * right.length + payload right) with
        less | more
      · exact Or.inr ⟨noRight, by omega⟩
      · exact Or.inl ⟨noLeft, by omega⟩

theorem separable_of_fixed {cellLen : Nat} (lengths : ∀ other ∈ left ++ right, other.length = cellLen)
    (same : record.length = cellLen) (alone : usedBytes [record] ≤ pageSize)
    (packed : usedBytes (left ++ right) ≤ pageSize)
    (full : ¬ usedBytes (left ++ record :: right) ≤ pageSize) : Separable left right record := by
  cases left with
  | nil =>
    refine Or.inr ⟨?_, alone⟩
    rintro rfl
    exact full alone
  | cons first rest =>
    refine Or.inl ⟨by simp, ?_⟩
    have size := lengths first (by simp)
    simp only [usedBytes, length_append, length_cons, payload_append, payload_cons,
      cons_append] at packed ⊢
    omega

end Splits

section Rewrites

variable (born level : Nat)

variable (codec) in
theorem editFits_insert (left right : List Bytes) (record : Bytes) (present : record ≠ []) :
    editFits codec (treePage codec born level (left ++ right)) (filledHeader level (left ++ right))
        { index := left.length, replace := false, cell := record } =
      .ok (decide (usedBytes (left ++ record :: right) ≤ pageSize)) := by
  have room := insertFits_filledHeader level (left ++ right) record present
  have bound : ¬ (filledHeader level (left ++ right)).itemCount < left.length := by simp
  have same : insertFits (filledHeader level (left ++ right)) record.length =
      decide (usedBytes (left ++ record :: right) ≤ pageSize) := by
    rw [Bool.eq_iff_iff, room, decide_eq_true_eq]
    simp only [usedBytes, length_append, length_cons, payload_append, payload_cons]
    omega
  simp only [editFits, Bool.false_eq_true, if_false, if_neg bound, same]

variable (codec) in
theorem editFits_replace (left right : List Bytes) (old record : Bytes)
    (readable : Readable codec level (left ++ old :: right)) (present : record ≠ [])
    (packed : usedBytes (left ++ old :: right) ≤ pageSize) :
    editFits codec (treePage codec born level (left ++ old :: right))
        (filledHeader level (left ++ old :: right))
        { index := left.length, replace := true, cell := record } =
      .ok (decide (usedBytes (left ++ record :: right) ≤ pageSize)) := by
  have found := codecCell_middle born level readable
  have stored : old ≠ [] := readable.present old (by simp)
  have room := replaceFits_filledHeader level left right old record stored present packed
  have same : replaceFits (filledHeader level (left ++ old :: right)) old.length record.length =
      decide (usedBytes (left ++ record :: right) ≤ pageSize) := by
    rw [Bool.eq_iff_iff, room, decide_eq_true_eq]
  have inside : ¬ (filledHeader level (left ++ old :: right)).itemCount ≤ left.length := by simp
  simp only [editFits, if_true, if_neg inside, found, bind, Except.bind, same]

theorem buildFrom_pushAll (cells : List Bytes) (fetch : Nat → Except Error Bytes)
    (fetched : ∀ index (bound : index < cells.length), fetch index = .ok cells[index])
    (appender : Appender) (count index : Nat) (bound : index + count ≤ cells.length) :
    buildFrom fetch appender count index = appender.pushAll ((cells.drop index).take count) := by
  induction count generalizing appender index with
  | zero => simp [buildFrom, Appender.pushAll]
  | succ count ih =>
    have inside : index < cells.length := by omega
    rw [drop_eq_getElem_cons inside, take_succ_cons]
    funext page
    simp only [buildFrom, Appender.pushAll, bind, EStateM.bind, liftResult, fetched index inside]
    cases appender.push cells[index] page with
    | ok next reached => simp only [ih next (index + 1) (by omega)]
    | error error reached => rfl

variable {cells : List Bytes}

theorem SplitsAt.storable_right {middle : Nat} (splits : SplitsAt cells middle)
    (present : ∀ record ∈ cells, record ≠ []) :
    Storable (cells.drop middle) :=
  ⟨by
    have right := splits.right
    simp only [ne_eq, drop_eq_nil_iff]
    omega,
    fun record member => present record (mem_of_mem_drop member), splits.rightFits⟩

theorem SplitsAt.storable_left {middle : Nat} (splits : SplitsAt cells middle)
    (present : ∀ record ∈ cells, record ≠ []) :
    Storable (cells.take middle) :=
  ⟨by
    have left := splits.left
    have right := splits.right
    simp only [ne_eq, take_eq_nil_iff]
    rintro (zero | none)
    · omega
    · simp [none] at right,
    fun record member => present record (mem_of_mem_take member), splits.leftFits⟩

theorem buildFrom_treePage (page : Page) (cells : List Bytes) (fetch : Nat → Except Error Bytes)
    (fetched : ∀ index (bound : index < cells.length), fetch index = .ok cells[index])
    (middle : Nat) (splits : SplitsAt cells middle) (present : ∀ record ∈ cells, record ≠ []) :
    (do
      let appender ← Appender.new (pageTypeAt codec level) born level codec.aux
      buildFrom fetch appender (cells.length - middle) middle : EStateM Error Page Unit) page =
      .ok () (treePage codec born level (cells.drop middle)) := by
  have bound := splits.right
  have built := build_filledPage page (pageTypeAt codec level) born level codec.aux
    (cells.drop middle) (splits.storable_right present)
  simp only [buildFrom_pushAll cells fetch fetched _ (cells.length - middle) middle (by omega)]
  rw [take_of_length_le (by simp)]
  exact built

theorem splitChosen_of_fetch (lawful : LawfulCodec codec) {cells : List Bytes}
    (whole : Readable codec level cells) (several : 2 ≤ cells.length)
    (fetch : Nat → Except Error Bytes)
    (fetched : ∀ index (bound : index < cells.length), fetch index = .ok cells[index]) :
    SplitChosen cells
      (match fixedCellSize codec level with
      | some cellLen => fixedSplitIndex cells.length cellLen
      | none => splitBySize cells.length fun index => List.length <$> fetch index) := by
  cases fixed : fixedCellSize codec level with
  | some cellLen => exact fixedSplitIndex_chosen _ cellLen several (whole.lengths lawful fixed)
  | none =>
    refine splitBySize_chosen _ _ several fun index bound => ?_
    rw [fetched index bound]
    rfl

section Replacement

variable (left new right : List Bytes) (old : Bytes)

theorem replacement_total (some_ : new ≠ []) :
    Replacement.total { index := left.length, cells := new }
      (filledHeader level (left ++ old :: right)).itemCount = (left ++ new ++ right).length := by
  have count := length_pos_iff.mpr some_
  simp [Replacement.total]
  omega

variable (readable : Readable codec level (left ++ old :: right))

include readable

theorem replacementFits_treePage (some_ : new ≠ [])
    (packed : usedBytes (left ++ old :: right) ≤ pageSize) :
    replacementFits codec (treePage codec born level (left ++ old :: right))
        (filledHeader level (left ++ old :: right)) { index := left.length, cells := new } =
      .ok (decide (usedBytes (left ++ new ++ right) ≤ pageSize)) := by
  have found := codecCell_middle born level readable
  have guard : (decide ((filledHeader level (left ++ old :: right)).itemCount ≤ left.length) ||
      new.isEmpty) = false := by
    simp [some_]
  have count := length_pos_iff.mpr some_
  simp only [replacementFits, guard, Bool.false_eq_true, if_false, found, bind, Except.bind,
    Except.ok.injEq, decide_eq_decide]
  simp only [filledHeader, usedBytes, pageSize, headerSize, payload_append, payload_cons,
    length_append, length_cons] at *
  omega

theorem replacementCell_treePage (index : Nat) (bound : index < (left ++ new ++ right).length) :
    replacementCell codec (treePage codec born level (left ++ old :: right))
        (filledHeader level (left ++ old :: right)) { index := left.length, cells := new } index =
      .ok (left ++ new ++ right)[index] := by
  simp only [length_append] at bound
  unfold replacementCell
  by_cases before : index < left.length
  · have outside : ¬ left.length ≤ index := by omega
    have early : ¬ left.length + new.length ≤ index := by omega
    have inside : index < (left ++ old :: right).length := by simp; omega
    simp only [outside, early, if_false]
    rw [codecCell_treePage born level _ index inside readable]
    simp [before]
  · by_cases within : index < left.length + new.length
    · have found : new[index - left.length]? = some new[index - left.length] :=
        getElem?_eq_getElem (by omega)
      simp only [Nat.not_lt.mp before, if_true, found]
      have width : index - left.length < new.length := by omega
      simp [getElem_append, before, width]
    · have missing : new[index - left.length]? = none := getElem?_eq_none (by omega)
      have inside : index - new.length + 1 < (left ++ old :: right).length := by simp; omega
      simp only [Nat.not_lt.mp before, Nat.not_lt.mp within, if_true, missing]
      rw [codecCell_treePage born level _ _ inside readable]
      have outside : ¬ index - new.length + 1 < left.length := by omega
      have offset : index - new.length + 1 - left.length = (index - (left.length + new.length)) + 1 := by
        omega
      have width : ¬ index - left.length < new.length := by omega
      have rest : index - left.length - new.length = index - (left.length + new.length) := by omega
      simp [getElem_append, outside, offset, before, width, rest]

theorem buildReplacement_treePage (page : Page) (middle : Nat) (some_ : new ≠ [])
    (present : ∀ record ∈ new, record ≠ []) (splits : SplitsAt (left ++ new ++ right) middle) :
    buildReplacement codec (treePage codec born level (left ++ old :: right))
        (filledHeader level (left ++ old :: right)) { index := left.length, cells := new } middle
        (Replacement.total { index := left.length, cells := new }
          (filledHeader level (left ++ old :: right)).itemCount) page =
      .ok () (treePage codec born level ((left ++ new ++ right).drop middle)) := by
  rw [replacement_total level left new right old some_]
  exact buildFrom_treePage born level page (left ++ new ++ right) _
    (replacementCell_treePage born level left new right old readable) middle splits
    (forall_replaced readable.present present)

theorem replacementSplitIndex_treePage (lawful : LawfulCodec codec)
    (reads : Readable codec level new) (some_ : new ≠ [])
    (several : 2 ≤ (left ++ new ++ right).length) :
    SplitChosen (left ++ new ++ right)
      (replacementSplitIndex codec (treePage codec born level (left ++ old :: right))
        (filledHeader level (left ++ old :: right)) { index := left.length, cells := new }) := by
  unfold replacementSplitIndex
  rw [replacement_total level left new right old some_, filledHeader_level]
  exact splitChosen_of_fetch level lawful (forall_replaced readable reads) several _
    (replacementCell_treePage born level left new right old readable)

theorem keepLeftCells_treePage (lawful : LawfulCodec codec) (height : level ≤ maxTreeLevel)
    (positive : 0 < born) (word : born < 2 ^ 64) (middle : Nat) (some_ : new ≠ [])
    (present : ∀ record ∈ new, record ≠ []) (packed : usedBytes (left ++ old :: right) ≤ pageSize)
    (splits : SplitsAt (left ++ new ++ right) middle) :
    keepLeftCells codec (filledHeader level (left ++ old :: right))
        { index := left.length, cells := new } middle
        (treePage codec born level (left ++ old :: right)) =
      .ok () (treePage codec born level ((left ++ new ++ right).take middle)) := by
  have leftFits := splits.leftFits
  have middlePositive := splits.left
  have middleBound := splits.right
  have count := length_pos_iff.mpr some_
  simp only [length_append] at middleBound
  unfold keepLeftCells
  by_cases early : middle ≤ left.length
  · -- only records before the edit stay
    have cut := truncatePage_treePage born level lawful middlePositive (by simp; omega) readable packed
    simp only [early, if_true, bind, EStateM.bind, cut]
    rw [append_assoc, take_append_of_le_length early, take_append_of_le_length early]
    rfl
  · by_cases inside : middle < left.length + new.length
    · -- the split falls between the new records
      have cut := truncatePage_treePage born level lawful (by omega : 0 < left.length + 1) (by simp)
        readable packed
      rw [take_length_add_append, take_succ_cons, take_zero] at cut
      have target : (left ++ new ++ right).take middle =
          left ++ new.take (middle - left.length) ++ [] := by
        rw [append_assoc, take_append, take_of_length_le (by omega),
          take_append_of_le_length (by omega), append_nil]
      have applied := applyCells_treePage codec born level height positive word left
        (new.take (middle - left.length)) [] old
        (by
          simp only [ne_eq, take_eq_nil_iff]
          rintro (zero | none)
          · omega
          · exact some_ none)
        (readable.sublist (by simp)) (fun record member => present record (mem_of_mem_take member))
        (by rw [← target]; exact leftFits)
        (le_trans (usedBytes_sublist (by simp)) packed)
      simp only [early, if_false, inside, if_true, bind, EStateM.bind, cut]
      rw [applied, ← target]
    · -- all new records stay, with some of the old ones after them
      have target : (left ++ new ++ right).take middle =
          left ++ new ++ right.take (middle - (left.length + new.length)) := by
        rw [take_append, take_of_length_le (by simp; omega)]
        simp
      have keep : middle - (new.length - 1) =
          left.length + (middle - (left.length + new.length) + 1) := by omega
      have sub : (left ++ old :: right.take (middle - (left.length + new.length))).Sublist
          (left ++ old :: right) :=
        List.Sublist.append_left (List.Sublist.cons_cons _ (take_sublist _ _)) _
      have cut := truncatePage_treePage born level lawful
        (by omega : 0 < left.length + (middle - (left.length + new.length) + 1))
        (by simp only [length_append, length_cons]; omega) readable packed
      rw [take_length_add_append, take_succ_cons] at cut
      have applied := applyCells_treePage codec born level height positive word left new
        (right.take (middle - (left.length + new.length))) old some_
        (readable.sublist sub) present (by rw [← target]; exact leftFits)
        (le_trans (usedBytes_sublist sub) packed)
      simp only [early, if_false, inside, bind, EStateM.bind, keep, cut]
      rw [applied, ← target]

end Replacement

end Rewrites

section LeafEdit

variable (born level : Nat) (left right : List Bytes) (stored : Option Bytes) (record : Bytes)

def leafEdit : Edit := { index := left.length, replace := stored.isSome, cell := record }

theorem leafEdit_total :
    (leafEdit left stored record).total
        (filledHeader level (left ++ stored.toList ++ right)).itemCount =
      (left ++ record :: right).length := by
  cases stored with
  | none => simp [leafEdit, Edit.total]; omega
  | some old => simp [leafEdit, Edit.total]

variable (readable : Readable codec level (left ++ stored.toList ++ right))

include readable

theorem virtualCell_leafEdit (index : Nat) (bound : index < (left ++ record :: right).length) :
    virtualCell codec (treePage codec born level (left ++ stored.toList ++ right))
        (filledHeader level (left ++ stored.toList ++ right)) (leafEdit left stored record) index =
      .ok (left ++ record :: right)[index] := by
  have size : stored.toList.length ≤ 1 := by cases stored <;> simp
  simp only [length_append, length_cons] at bound
  unfold leafEdit virtualCell
  by_cases here : index = left.length
  · subst index
    simp
  · by_cases after : left.length < index
    · -- without a stored record, what follows the edit is read one slot earlier
      obtain ⟨offset, rfl⟩ : ∃ offset, index = left.length + (offset + 1) :=
        ⟨index - left.length - 1, by omega⟩
      have place : (if !stored.isSome then left.length + (offset + 1) - 1 else
          left.length + (offset + 1)) = (left ++ stored.toList).length + offset := by
        cases stored <;> simp
        omega
      have inside : (left ++ stored.toList).length + offset <
          (left ++ stored.toList ++ right).length := by simp only [length_append]; omega
      simp only [here, if_false, after, decide_true, Bool.true_and, place]
      rw [codecCell_treePage born level _ _ inside readable, getElem_append_right (by omega)]
      simp
    · have earlier : index < left.length := by omega
      have inside : index < (left ++ stored.toList ++ right).length := by
        simp only [length_append]
        omega
      simp only [here, if_false, after, decide_false, Bool.false_and, Bool.false_eq_true]
      rw [codecCell_treePage born level _ _ inside readable]
      simp [earlier]

theorem splitIndex_leafEdit (lawful : LawfulCodec codec) (key : Key)
    (reads : Reads codec level record key) (several : 2 ≤ (left ++ record :: right).length) :
    SplitChosen (left ++ record :: right)
      (splitIndex codec (treePage codec born level (left ++ stored.toList ++ right))
        (filledHeader level (left ++ stored.toList ++ right)) (leafEdit left stored record)) := by
  have others := readable
  simp only [Readable, forall_mem_append] at others
  have whole : Readable codec level (left ++ record :: right) :=
    forall_mem_append.mpr ⟨others.1.1, forall_mem_cons.mpr ⟨⟨key, reads⟩, others.2⟩⟩
  unfold splitIndex
  rw [leafEdit_total, filledHeader_level]
  exact splitChosen_of_fetch level lawful whole several _
    (virtualCell_leafEdit born level left right stored record readable)

variable (present : record ≠ [])

include present

theorem buildEdit_leafEdit (page : Page) (middle : Nat)
    (splits : SplitsAt (left ++ record :: right) middle) :
    buildEdit codec (treePage codec born level (left ++ stored.toList ++ right))
        (filledHeader level (left ++ stored.toList ++ right)) (leafEdit left stored record) middle
        (left ++ record :: right).length page =
      .ok () (treePage codec born level ((left ++ record :: right).drop middle)) := by
  have others := readable.present
  simp only [forall_mem_append] at others
  exact buildFrom_treePage born level page (left ++ record :: right) _
    (virtualCell_leafEdit born level left right stored record readable) middle splits
    (forall_mem_append.mpr ⟨others.1.1, forall_mem_cons.mpr ⟨present, others.2⟩⟩)

variable (packed : usedBytes (left ++ stored.toList ++ right) ≤ pageSize)

include packed

theorem editFits_leafEdit :
    editFits codec (treePage codec born level (left ++ stored.toList ++ right))
        (filledHeader level (left ++ stored.toList ++ right)) (leafEdit left stored record) =
      .ok (decide (usedBytes (left ++ record :: right) ≤ pageSize)) := by
  cases stored with
  | none => simpa [leafEdit] using editFits_insert codec born level left right record present
  | some old =>
    simpa [leafEdit] using editFits_replace codec born level left right old record
      (by simpa using readable) present (by simpa using packed)

theorem applyEdit_leafEdit (fits : usedBytes (left ++ record :: right) ≤ pageSize) :
    applyEdit codec (filledHeader level (left ++ stored.toList ++ right))
        (leafEdit left stored record)
        (treePage codec born level (left ++ stored.toList ++ right)) =
      .ok () (treePage codec born level (left ++ record :: right)) := by
  cases stored with
  | none =>
    simpa [leafEdit] using applyEdit_insert codec born level left right record present fits
  | some old =>
    simpa [leafEdit] using applyEdit_replace codec born level left right old record
      (by simpa using readable) present fits (by simpa using packed)

theorem keepLeftRecord_leafEdit (lawful : LawfulCodec codec) (middle : Nat)
    (splits : SplitsAt (left ++ record :: right) middle) :
    keepLeftRecord codec born (filledHeader level (left ++ stored.toList ++ right))
        (leafEdit left stored record) middle
        (treePage codec born level (left ++ stored.toList ++ right)) =
      .ok () (treePage codec born level ((left ++ record :: right).take middle)) := by
  have leftFits := splits.leftFits
  have positive := splits.left
  have bound := splits.right
  have size : stored.toList.length ≤ 1 := by cases stored <;> simp
  simp only [length_append, length_cons] at bound
  unfold leafEdit keepLeftRecord
  by_cases inLeft : left.length < middle
  · obtain ⟨count, rfl⟩ : ∃ count, middle = left.length + (count + 1) :=
      ⟨middle - left.length - 1, by omega⟩
    have target : (left ++ record :: right).take (left.length + (count + 1)) =
        left ++ record :: right.take count := by
      rw [take_length_add_append, take_succ_cons]
    have keep : (left.length + (count + 1) - if !stored.isSome then 1 else 0) =
        (left ++ stored.toList).length + count := by
      cases stored <;> simp
      omega
    have sub : (left ++ stored.toList ++ right.take count).Sublist (left ++ stored.toList ++ right) :=
      List.Sublist.append_left (take_sublist _ _) _
    rw [target] at leftFits ⊢
    simp only [inLeft, decide_true, Bool.true_and, keep, if_true]
    by_cases lone : (left ++ stored.toList).length + count = 0
    · -- the new record is alone on the left page
      simp only [length_append] at lone
      obtain ⟨rfl, rfl⟩ : left = [] ∧ count = 0 := ⟨length_eq_zero_iff.mp (by omega), by omega⟩
      rw [if_pos (by simpa using lone)]
      exact build_filledPage _ _ born level codec.aux [record]
        ⟨by simp, by simpa using present, by simpa using leftFits⟩
    · have cut := truncatePage_treePage born level lawful (Nat.pos_of_ne_zero lone)
        (by simp only [length_append]; omega) readable packed
      rw [take_length_add_append] at cut
      rw [if_neg lone]
      simp only [bind, EStateM.bind, cut]
      exact applyEdit_leafEdit born level left _ stored record (readable.sublist sub) present
        ((usedBytes_sublist sub).trans packed) leftFits
  · have early : middle ≤ left.length := by omega
    have some_ : ¬ middle = 0 := by omega
    have cut := truncatePage_treePage born level lawful positive
      (by simp only [length_append]; omega) readable packed
    have kept : (left ++ stored.toList ++ right).take middle =
        (left ++ record :: right).take middle := by
      rw [append_assoc, take_append_of_le_length early, take_append_of_le_length early]
    simp only [inLeft, decide_false, Bool.false_and, Bool.false_eq_true, if_false,
      Nat.sub_zero, some_, bind, EStateM.bind, cut, kept]
    rfl

end LeafEdit

end IpRange.FixedTree
