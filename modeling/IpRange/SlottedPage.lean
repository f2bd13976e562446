import IpRange.SlottedPageCore

/-!
Slotted-page edits as list edits: every operation that fits takes the canonical
page of one record list to the canonical page of the edited list.
-/

namespace IpRange.SlottedPage

open List hiding get

@[simp] theorem payload_nil : payload [] = 0 := rfl

@[simp] theorem payload_cons (record : Bytes) (cells : List Bytes) :
    payload (record :: cells) = record.length + payload cells := by
  simp [payload]

@[simp] theorem payload_append (left right : List Bytes) :
    payload (left ++ right) = payload left + payload right := by
  simp [payload]

theorem payload_pos (cells : List Bytes) (inhabited : cells ≠ [])
    (records : ∀ record ∈ cells, record ≠ []) : 0 < payload cells := by
  cases cells with
  | nil => exact absurd rfl inhabited
  | cons record rest =>
    have positive := length_pos_iff.mpr (records record (by simp))
    simp only [payload_cons]
    omega

theorem payload_fixed (cells : List Bytes) (cellLen : Nat)
    (lengths : ∀ record ∈ cells, record.length = cellLen) :
    payload cells = cells.length * cellLen := by
  induction cells with
  | nil => simp
  | cons record rest ih =>
    have first := lengths record (by simp)
    have later := ih fun record member => lengths record (by simp [member])
    simp only [payload_cons, length_cons, first, later, Nat.add_mul, Nat.one_mul]
    omega

theorem payload_le_of_forall (cells : List Bytes) (bound : Nat)
    (small : ∀ record ∈ cells, record.length ≤ bound) : payload cells ≤ cells.length * bound := by
  induction cells with
  | nil => simp
  | cons record rest ih =>
    have first := small record (by simp)
    have others := ih fun item member => small item (mem_cons_of_mem _ member)
    rw [payload_cons, length_cons, Nat.succ_mul]
    omega

theorem payload_take_le (cells : List Bytes) (count : Nat) :
    payload (cells.take count) ≤ payload cells := by
  have split := congrArg payload (take_append_drop count cells)
  rw [payload_append] at split
  omega

def usedBytes (cells : List Bytes) : Nat := headerSize + cells.length * 2 + payload cells

def filledPage (pageType bornTxn level aux : Nat) (cells : List Bytes) : Page :=
  { initializePage pageType bornTxn level aux with
    itemCount := cells.length
    lower := headerSize + cells.length * 2
    upper := pageSize - payload cells
    cells }

def filledHeader (level : Nat) (cells : List Bytes) : Header :=
  { itemCount := cells.length
    level
    lower := headerSize + cells.length * 2
    upper := pageSize - payload cells }

section Fields

variable (pageType bornTxn level aux : Nat) (cells : List Bytes)

@[simp] theorem filledPage_cells : (filledPage pageType bornTxn level aux cells).cells = cells := rfl

@[simp] theorem filledPage_ownedBy (txn : Nat) :
    (filledPage pageType bornTxn level aux cells).ownedBy txn = (bornTxn == txn) := by
  simp [Page.ownedBy, Page.hasMagic, filledPage, initializePage]

@[simp] theorem rawHeader_filledPage :
    rawHeader (filledPage pageType bornTxn level aux cells) = filledHeader level cells := rfl

@[simp] theorem filledHeader_itemCount : (filledHeader level cells).itemCount = cells.length := rfl

@[simp] theorem filledHeader_level : (filledHeader level cells).level = level := rfl

end Fields

structure Storable (cells : List Bytes) : Prop where
  inhabited : cells ≠ []
  records : ∀ record ∈ cells, record ≠ []
  fits : usedBytes cells ≤ pageSize

theorem shapeValid_filledHeader (level : Nat) (cells : List Bytes) (storable : Storable cells) :
    shapeValid (filledHeader level cells) = true := by
  have positive := payload_pos cells storable.inhabited storable.records
  have fits := storable.fits
  have count := length_pos_iff.mpr storable.inhabited
  simp only [usedBytes] at fits
  simp only [shapeValid, Bool.and_eq_true, bne_iff_ne, beq_iff_eq, decide_eq_true_eq]
  refine ⟨⟨⟨?_, rfl⟩, ?_⟩, ?_⟩ <;> simp only [filledHeader, pageSize, headerSize] at * <;> omega

theorem parseTree_filledPage (bornTxn level selectedTxn branchType leafType aux : Nat)
    (expectedLevel : Option Nat) (cells : List Bytes) (storable : Storable cells)
    (born : 0 < bornTxn) (selected : bornTxn ≤ selectedTxn) (height : level ≤ maxTreeLevel)
    (expected : ∀ wanted ∈ expectedLevel, wanted = level) :
    parseTree (filledPage (if level = 0 then leafType else branchType) bornTxn level aux cells)
      selectedTxn branchType leafType aux expectedLevel = .ok (filledHeader level cells) := by
  have shape := shapeValid_filledHeader level cells storable
  have levels : expectedLevel.any (· != level) = false := by
    cases expectedLevel with
    | none => rfl
    | some wanted => simp [expected wanted rfl]
  simp only [parseTree, rawHeader_filledPage, filledHeader_level, shape, levels]
  simp [filledPage, initializePage, Page.commonValid, Page.hasMagic, Page.bornValid,
    Page.kindValid, Nat.pos_iff_ne_zero.mp born, selected, Nat.not_lt.mpr height]
  rfl

theorem slotRecord_filledPage (pageType bornTxn level aux : Nat) (cells : List Bytes) (index : Nat)
    (bound : index < cells.length) :
    slotRecord (filledPage pageType bornTxn level aux cells) (filledHeader level cells) index =
      .ok cells[index] := by
  have slot : ¬ headerSize + cells.length * 2 < headerSize + index * 2 + 2 := by omega
  simp [slotRecord, filledHeader, filledPage, bound, Nat.not_le.mpr bound, slot]

def CellLayout.Accepts : CellLayout → Bytes → Prop
  | .fixed length, record => record.length = length
  | .varying minimum maximum, record =>
    leField record 0 2 = record.length ∧ minimum ≤ record.length ∧ record.length ≤ maximum

theorem layoutCell_filledPage (layout : CellLayout) (pageType bornTxn level aux : Nat)
    (cells : List Bytes) (index : Nat) (bound : index < cells.length)
    (accepted : layout.Accepts cells[index]) :
    layoutCell layout (filledPage pageType bornTxn level aux cells) (filledHeader level cells)
      index = .ok cells[index] := by
  have slot := slotRecord_filledPage pageType bornTxn level aux cells index bound
  cases layout with
  | fixed length =>
    have same : cells[index].length = length := accepted
    simp [layoutCell, cell, slot, same, bind, Except.bind]
  | varying minimum maximum =>
    obtain ⟨prefixed, low, high⟩ := accepted
    simp [layoutCell, record, slot, prefixed, Nat.not_lt.mpr low, Nat.not_lt.mpr high, bind,
      Except.bind]

theorem insertFits_filledHeader (level : Nat) (cells : List Bytes) (record : Bytes)
    (present : record ≠ []) :
    insertFits (filledHeader level cells) record.length = true ↔
      usedBytes cells + 2 + record.length ≤ pageSize := by
  have positive := length_pos_iff.mpr present
  simp only [insertFits, Bool.and_eq_true, bne_iff_ne, decide_eq_true_eq]
  simp only [filledHeader, usedBytes, pageSize, headerSize]
  omega

section Edits

variable (pageType bornTxn level aux : Nat)

theorem insert_filledPage (left right : List Bytes) (record : Bytes) (present : record ≠ [])
    (fits : usedBytes (left ++ right) + 2 + record.length ≤ pageSize) :
    insert (filledHeader level (left ++ right)) left.length record
        (filledPage pageType bornTxn level aux (left ++ right)) =
      .ok true (filledPage pageType bornTxn level aux (left ++ record :: right)) := by
  have room := (insertFits_filledHeader level (left ++ right) record present).mpr fits
  have bound : ¬ (filledHeader level (left ++ right)).itemCount < left.length := by simp
  simp only [insert, if_neg bound, room, List.isEmpty_iff, present, if_false, Bool.not_true]
  simp only [Bool.false_eq_true, if_false]
  show EStateM.Result.ok true _ = _
  congr 1
  simp [filledPage, filledHeader]
  simp only [pageSize, headerSize, usedBytes] at *
  omega

theorem replaceFits_filledHeader (left right : List Bytes) (old record : Bytes) (stored : old ≠ [])
    (present : record ≠ []) (fits : usedBytes (left ++ old :: right) ≤ pageSize) :
    replaceFits (filledHeader level (left ++ old :: right)) old.length record.length = true ↔
      usedBytes (left ++ record :: right) ≤ pageSize := by
  have oldPositive := length_pos_iff.mpr stored
  have positive := length_pos_iff.mpr present
  simp only [replaceFits, Bool.and_eq_true, bne_iff_ne, decide_eq_true_eq]
  simp only [filledHeader, usedBytes, pageSize, headerSize, payload_append, payload_cons,
    length_append, length_cons] at *
  omega

theorem replace_filledPage (left right : List Bytes) (old record : Bytes) (stored : old ≠ [])
    (present : record ≠ []) (fits : usedBytes (left ++ record :: right) ≤ pageSize)
    (packed : usedBytes (left ++ old :: right) ≤ pageSize) :
    replace (filledHeader level (left ++ old :: right)) left.length old.length record
        (filledPage pageType bornTxn level aux (left ++ old :: right)) =
      .ok true (filledPage pageType bornTxn level aux (left ++ record :: right)) := by
  have slot := slotRecord_filledPage pageType bornTxn level aux (left ++ old :: right) left.length
    (by simp)
  have guard : ((filledHeader level (left ++ old :: right)).itemCount ≤ left.length ||
      old.length == 0 || record.isEmpty) = false := by
    simp [stored, present]
  have room : (decide (old.length < record.length) &&
      decide ((filledHeader level (left ++ old :: right)).upper - (record.length - old.length) <
        (filledHeader level (left ++ old :: right)).lower)) = false := by
    simp only [Bool.and_eq_false_iff, decide_eq_false_iff_not]
    simp only [filledHeader, usedBytes, pageSize, headerSize, payload_append, payload_cons,
      length_append, length_cons] at *
    omega
  simp only [replace, guard, Bool.false_eq_true, if_false]
  simp only [get_bind_apply, slot, liftResult_bind_apply, room, Bool.false_eq_true, if_false]
  show EStateM.Result.ok true _ = _
  congr 1
  simp only [filledPage, filledHeader, Page.mk.injEq, payload_append, payload_cons,
    length_append, length_cons, usedBytes, pageSize, headerSize] at *
  simp
  omega

theorem remove_filledPage (left right : List Bytes) (old : Bytes) (stored : old ≠ [])
    (several : 0 < (left ++ right).length) (packed : usedBytes (left ++ old :: right) ≤ pageSize) :
    remove (filledHeader level (left ++ old :: right)) left.length old.length
        (filledPage pageType bornTxn level aux (left ++ old :: right)) =
      .ok () (filledPage pageType bornTxn level aux (left ++ right)) := by
  have slot := slotRecord_filledPage pageType bornTxn level aux (left ++ old :: right) left.length
    (by simp)
  have guard : ((filledHeader level (left ++ old :: right)).itemCount ≤ left.length ||
      (filledHeader level (left ++ old :: right)).itemCount ≤ 1 || old.length == 0) = false := by
    simp at several ⊢
    exact ⟨by omega, stored⟩
  simp only [remove, guard, Bool.false_eq_true, if_false]
  simp only [get_bind_apply, slot, liftResult_bind_apply]
  show EStateM.Result.ok () _ = _
  congr 1
  simp only [filledPage, filledHeader, Page.mk.injEq, payload_append, payload_cons,
    length_append, length_cons, usedBytes, pageSize, headerSize] at *
  simp
  omega

theorem requirePacked_filledHeader (cells : List Bytes) (cellLen : Nat) (positive : 0 < cellLen)
    (lengths : ∀ record ∈ cells, record.length = cellLen) (packed : usedBytes cells ≤ pageSize) :
    requirePacked (filledHeader level cells) cellLen = .ok () := by
  have total := payload_fixed cells cellLen lengths
  have whole : pageSize - payload cells + cells.length * cellLen = pageSize := by
    simp only [usedBytes] at packed
    omega
  simp [requirePacked, filledHeader, whole, Nat.pos_iff_ne_zero.mp positive]

theorem removeFixedRange_filledPage (left run right : List Bytes) (cellLen : Nat)
    (positive : 0 < cellLen) (lengths : ∀ record ∈ left ++ run ++ right, record.length = cellLen)
    (removed : run ≠ []) (several : 0 < (left ++ right).length)
    (packed : usedBytes (left ++ run ++ right) ≤ pageSize) :
    removeFixedRange (filledHeader level (left ++ run ++ right)) left.length run.length cellLen
        (filledPage pageType bornTxn level aux (left ++ run ++ right)) =
      .ok (filledHeader level (left ++ right))
        (filledPage pageType bornTxn level aux (left ++ right)) := by
  have pack := requirePacked_filledHeader level (left ++ run ++ right) cellLen positive lengths packed
  have kept : payload (left ++ right) = (left ++ right).length * cellLen :=
    payload_fixed _ cellLen fun record member => lengths record (by
      simp only [mem_append] at member ⊢
      tauto)
  have guard : (run.length == 0 ||
      (filledHeader level (left ++ run ++ right)).itemCount < left.length + run.length ||
      (filledHeader level (left ++ run ++ right)).itemCount ≤ run.length || cellLen == 0) = false := by
    simp at several ⊢
    exact ⟨⟨removed, by omega⟩, by omega⟩
  have count : (filledHeader level (left ++ run ++ right)).itemCount - run.length =
      (left ++ right).length := by simp; omega
  simp only [removeFixedRange, guard, Bool.false_eq_true, if_false]
  simp only [bind, EStateM.bind, liftResult, pack, count]
  show EStateM.Result.ok _ _ = _
  congr 1
  · simp only [filledHeader, kept]
  · simp only [filledPage, kept]
    simp [drop_append]

theorem finishTruncate_filledPage (left right : List Bytes) :
    finishTruncate (filledHeader level (left ++ right)) left.length (pageSize - payload left)
        (filledPage pageType bornTxn level aux (left ++ right)) =
      .ok (filledHeader level left) (filledPage pageType bornTxn level aux left) := by
  show EStateM.Result.ok _ _ = _
  congr 1
  simp [filledPage]

theorem truncate_filledPage (left right : List Bytes) (kept : left ≠ []) :
    truncate (filledHeader level (left ++ right)) left.length
        (filledPage pageType bornTxn level aux (left ++ right)) =
      .ok (filledHeader level left) (filledPage pageType bornTxn level aux left) := by
  have guard : (left.length == 0 ||
      (filledHeader level (left ++ right)).itemCount < left.length) = false := by
    simp [kept]
  simp only [truncate, guard, Bool.false_eq_true, if_false]
  by_cases whole : right = []
  · subst right
    simp [pure, EStateM.pure]
  · have fewer : ¬ left.length = (filledHeader level (left ++ right)).itemCount := by
      simp [whole]
    simp only [if_neg fewer, get_bind_apply, filledPage_cells, take_left]
    exact finishTruncate_filledPage pageType bornTxn level aux left right

theorem truncateFixed_filledPage (left right : List Bytes) (cellLen : Nat) (kept : left ≠ [])
    (positive : 0 < cellLen) (lengths : ∀ record ∈ left ++ right, record.length = cellLen)
    (packed : usedBytes (left ++ right) ≤ pageSize) :
    truncateFixed (filledHeader level (left ++ right)) left.length cellLen
        (filledPage pageType bornTxn level aux (left ++ right)) =
      .ok (filledHeader level left) (filledPage pageType bornTxn level aux left) := by
  have pack := requirePacked_filledHeader level (left ++ right) cellLen positive lengths packed
  have total := payload_fixed left cellLen fun record member => lengths record (by simp [member])
  have guard : (left.length == 0 ||
      (filledHeader level (left ++ right)).itemCount < left.length || cellLen == 0) = false := by
    simp [kept]
    omega
  simp only [truncateFixed, guard, Bool.false_eq_true, if_false]
  by_cases whole : right = []
  · subst right
    simp [pure, EStateM.pure]
  · have fewer : ¬ left.length = (filledHeader level (left ++ right)).itemCount := by
      simp [whole]
    simp only [if_neg fewer, bind, EStateM.bind, liftResult, pack, ← total]
    exact finishTruncate_filledPage pageType bornTxn level aux left right

end Edits

def appenderPage (pageType bornTxn level aux : Nat) (cells : List Bytes) : Page :=
  { initializePage pageType bornTxn level aux with cells }

def appenderFor (cells : List Bytes) : Appender :=
  { itemCount := cells.length, upper := pageSize - payload cells }

theorem tryPush_appenderPage (pageType bornTxn level aux : Nat) (cells : List Bytes)
    (record : Bytes) (present : record ≠ []) (fits : usedBytes (cells ++ [record]) ≤ pageSize) :
    (appenderFor cells).tryPush record (appenderPage pageType bornTxn level aux cells) =
      .ok (some (appenderFor (cells ++ [record])))
        (appenderPage pageType bornTxn level aux (cells ++ [record])) := by
  simp only [usedBytes, length_append, length_singleton, payload_append, payload_cons,
    payload_nil] at fits
  have area : ¬ (appenderFor cells).upper < record.length := by
    simp only [appenderFor]
    omega
  have room : ¬ (appenderFor cells).upper - record.length <
      headerSize + ((appenderFor cells).itemCount + 1) * 2 := by
    simp only [appenderFor]
    omega
  simp only [Appender.tryPush, List.isEmpty_iff, present, if_false, if_neg area, if_neg room]
  show EStateM.Result.ok _ _ = _
  simp only [appenderFor, appenderPage, length_append, length_singleton, payload_append,
    payload_cons, payload_nil, EStateM.Result.ok.injEq, Option.some.injEq, Appender.mk.injEq,
    and_true, true_and]
  omega

theorem pushAll_appenderPage (pageType bornTxn level aux : Nat) (cells rest : List Bytes)
    (storable : Storable (cells ++ rest)) :
    (appenderFor cells).pushAll rest (appenderPage pageType bornTxn level aux cells) =
      .ok () (filledPage pageType bornTxn level aux (cells ++ rest)) := by
  induction rest generalizing cells with
  | nil =>
    have inhabited : ¬ (appenderFor cells).itemCount = 0 := by
      simpa [appenderFor] using storable.inhabited
    simp only [Appender.pushAll, Appender.finish, if_neg inhabited]
    show EStateM.Result.ok () _ = _
    simp [filledPage, appenderPage, appenderFor]
  | cons record rest ih =>
    have present := storable.records record (by simp)
    have regroup : cells ++ record :: rest = (cells ++ [record]) ++ rest := by simp
    rw [regroup] at storable ⊢
    have fits : usedBytes (cells ++ [record]) ≤ pageSize := by
      have whole := storable.fits
      simp only [usedBytes, length_append, payload_append] at whole ⊢
      omega
    have pushed := tryPush_appenderPage pageType bornTxn level aux cells record present fits
    simp only [Appender.pushAll, Appender.push, bind, EStateM.bind, pushed, pure, EStateM.pure]
    exact ih (cells ++ [record]) storable

theorem build_filledPage (page : Page) (pageType bornTxn level aux : Nat) (cells : List Bytes)
    (storable : Storable cells) :
    (do (← Appender.new pageType bornTxn level aux).pushAll cells : EStateM Error Page Unit) page =
      .ok () (filledPage pageType bornTxn level aux cells) :=
  pushAll_appenderPage pageType bornTxn level aux [] cells storable

end IpRange.SlottedPage
