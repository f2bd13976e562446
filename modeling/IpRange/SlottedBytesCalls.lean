import IpRange.SlottedBytesInspect

/-!
Runs of slotted-page edits. A page is initialized, filled through its appender or
left empty, and then edited in place; the same edits of a list say what it holds.
The pages of the tree model go through the same edits and are read alike.
-/

namespace IpRange.SlottedBytes

open List hiding get
open SlottedPage (Header CellLayout insertFits replaceFits payload usedBytes filledHeader)
open MappedPage
open PageHeader

variable {identity : Identity} {page : MappedPage} {fail : Error → MappedPage → Prop}
  {cells : List Bytes}

/-! Filling a new page. -/

theorem slice_written {written : MappedPage} {done new : Bytes} {start : Nat}
    (before : slice 0 start page.bytes = done) (stored : slice start new.length written.bytes = new)
    (outside : Outside start new.length page written) :
    slice 0 (start + new.length) written.bytes = done ++ new := by
  rw [slice_add, outside 0 start (by omega), before, Nat.zero_add, stored]

theorem new_spec (page : MappedPage) :
    Ensures (Appender.new identity.pageType identity.bornTxn identity.level identity.aux) page
      (fun appender next => appender = { itemCount := 0, upper := pageSize } ∧
        Laid identity [] next) fail := by
  have bytes : pageSize = 4096 := rfl
  simp only [Appender.new, initializeHeader, fill, setByte, putU32, putU64, ensures_bind, ensures_pure]
  refine ensures_write _ (by simp) fun page0 filled _ => ?_
  have zeros : ∀ at_ count, at_ + count ≤ pageSize →
      slice at_ count page0.bytes = List.replicate count 0 := by
    intro at_ count inside
    have part := congrArg (slice at_ count) filled
    rwa [length_replicate, slice_slice (by omega), slice_replicate _ inside, Nat.zero_add] at part
  refine ensures_write _ (by simp [magicAt, bytes]) fun page1 magic outside1 => ?_
  refine ensures_write _ (by simp [typeAt, bytes]) fun page2 kind outside2 => ?_
  refine ensures_write _ (by simp [headerBytesAt, bytes]) fun page3 long outside3 => ?_
  refine ensures_write _ (by simp [bornTxnAt, bytes]) fun page4 born outside4 => ?_
  refine ensures_putU16 _ (by decide) (UInt16.toNat_lt _) fun page5 count outside5 => ?_
  refine ensures_putU16 _ (by decide) (UInt16.toNat_lt _) fun page6 level outside6 => ?_
  refine ensures_putU16 _ (by decide) (UInt16.toNat_lt _) fun page7 lower outside7 => ?_
  refine ensures_putU16 _ (by decide) (UInt16.toNat_lt _) fun page8 upper outside8 => ?_
  refine ensures_write _ (by simp [auxAt, bytes]) fun page9 aux outside9 => ?_
  have first : slice 0 4 page1.bytes = toLeBytes 4 pageMagic := magic
  have second : slice 0 5 page2.bytes = _ := slice_written first kind outside2
  -- the byte of the flags is skipped
  have third : slice 0 6 page2.bytes = toLeBytes 4 pageMagic ++ [identity.pageType] ++ [0] := by
    rw [show 6 = 5 + 1 from rfl, slice_add, second, outside2 _ _ (by simp [typeAt]),
      outside1 _ _ (by simp [magicAt]), zeros _ _ (by simp [bytes])]
    rfl
  have fourth := slice_written (slice_written third long outside3) born outside4
  simp only [magicAt, typeAt, headerBytesAt, bornTxnAt, itemCountAt, levelAt, lowerAt, upperAt, auxAt,
    toLeBytes_length, length_singleton] at *
  have untouched : ∀ at_ count, 28 ≤ at_ → at_ + count ≤ pageSize →
      slice at_ count page9.bytes = List.replicate count 0 := by
    intro at_ count low high
    rw [outside9 _ _ (by omega), outside8 _ _ (by omega), outside7 _ _ (by omega),
      outside6 _ _ (by omega), outside5 _ _ (by omega), outside4 _ _ (by omega),
      outside3 _ _ (by omega), outside2 _ _ (by omega), outside1 _ _ (by omega), zeros _ _ high]
  refine ⟨trivial, [], ⟨?_, ?_, ?_⟩, by decide, by simp, by simp, rfl, fun at_ low high => ?_⟩
  · rw [itemCountAt, outside9 _ _ (by omega), outside8 _ _ (by omega), outside7 _ _ (by omega),
      outside6 _ _ (by omega), outside5 _ _ (by omega)]
    exact fourth
  · simp only [rawHeader, itemCountAt, levelAt, lowerAt, upperAt]
    rw [outside9.u16 (by omega), outside8.u16 (by omega), outside7.u16 (by omega),
      outside6.u16 (by omega), count, outside9.u16 (by omega), outside8.u16 (by omega),
      outside7.u16 (by omega), level, outside9.u16 (by omega), outside8.u16 (by omega), lower,
      outside9.u16 (by omega), upper]
    rfl
  · rw [auxAt, show 8 = 4 + 4 from rfl, slice_add, aux, untouched _ _ (by omega) (by omega)]
    rfl
  · exact untouched at_ 1 (by simp [headerSize] at low; omega) (by simp at high; omega)

section Push

variable {cell : Bytes}

def appenderOf (cells : List Bytes) : Appender :=
  { itemCount := cells.length, upper := pageSize - payload cells }

def Filling (identity : Identity) (cells : List Bytes) (page : MappedPage) : Prop :=
  ∃ physical, Arranged identity (identity.header []) cells physical page

theorem tryPush_spec (filling : Filling identity cells page) (inhabited : cell ≠ [])
    (fits : usedBytes (cells ++ [cell]) ≤ pageSize) :
    Ensures ((appenderOf cells).tryPush cell) page (fun pushed next =>
      pushed = some (appenderOf (cells ++ [cell])) ∧ Filling identity (cells ++ [cell]) next) fail := by
  obtain ⟨physical, arranged⟩ := filling
  have bytes : pageSize = 4096 := rfl
  simp only [usedBytes, length_append, length_singleton, SlottedPage.payload_append,
    SlottedPage.payload_cons, SlottedPage.payload_nil] at fits
  unfold Appender.tryPush
  rw [if_neg (by simpa using inhabited), if_neg (by simp only [appenderOf]; omega),
    if_neg (by simp only [appenderOf]; omega)]
  simp only [ensures_bind, ensures_pure, appenderOf]
  refine ensures_write _ (by omega) fun page1 stored outside1 => ?_
  refine ensures_putSlot _ (by omega) (by omega) fun page2 slotted outside2 => ⟨?_, ?_⟩
  · simp only [length_append, length_singleton, SlottedPage.payload_append, SlottedPage.payload_cons,
      SlottedPage.payload_nil]
    congr 2
    omega
  · have result := arranged.insert
      ((arranged.headed.keep outside1 (by omega)).keep outside2 (by omega)) (le_refl cells.length)
      inhabited
      (by simp only [usedBytes]; omega) (fun slot below => by
        rw [opened, if_pos below, outside2.slot (by omega), outside1.slot (by omega)]) slotted
      (by rw [outside2 _ _ (by omega), stored]) fun at_ count low apart => by
        rw [outside2 _ _ (by omega), outside1 _ _ (by omega)]
    rw [take_length, drop_length] at result
    exact ⟨_, result⟩

theorem appender_finish_spec (filling : Filling identity cells page) (inhabited : cells ≠ []) :
    Ensures (appenderOf cells).finish page (fun _ next => Laid identity cells next) fail := by
  obtain ⟨physical, arranged⟩ := filling
  have bytes : pageSize = 4096 := rfl
  have room := arranged.room
  have counted := length_pos_iff.mpr inhabited
  simp only [usedBytes] at room
  unfold Appender.finish
  rw [if_neg (by simp only [appenderOf]; omega)]
  simp only [ensures_bind, appenderOf]
  refine ensures_putFields _ arranged.headed (by omega) (by omega) (by omega) fun last headed outside =>
    ⟨physical, headed, arranged.room, arranged.filled, arranged.placed, arranged.chain.shift
      (fun placed member => by rw [outside.slot (by omega)]) (outside.moved (by omega))
      (Nat.add_comm _ _), fun at_ low high => ?_⟩
  rw [outside at_ 1 (by omega)]
  exact arranged.cleared at_ low high

end Push

/-! Runs of edits. -/

inductive Edit where
  | insert (index : Nat) (cell : Bytes)
  | replace (index oldLen : Nat) (cell : Bytes)
  | remove (index cellLen : Nat)
  | removeFixedRange (start count cellLen : Nat)
  | truncate (keep : Nat)
  | truncateFixed (keep cellLen : Nat)
deriving DecidableEq, Repr

/-- The edits of a slotted page, which both its models have. -/
class PageEdits (P : Type) where
  rawHeader : P → Header
  insert : Header → Nat → Bytes → EStateM Error P Bool
  replace : Header → Nat → Nat → Bytes → EStateM Error P Bool
  remove : Header → Nat → Nat → EStateM Error P Unit
  removeFixedRange : Header → Nat → Nat → Nat → EStateM Error P Header
  truncate : Header → Nat → EStateM Error P Header
  truncateFixed : Header → Nat → Nat → EStateM Error P Header

instance : PageEdits MappedPage :=
  ⟨rawHeader, insert, replace, remove, removeFixedRange, truncate, truncateFixed⟩

instance : PageEdits Page :=
  ⟨SlottedPage.rawHeader, SlottedPage.insert, SlottedPage.replace, SlottedPage.remove,
    SlottedPage.removeFixedRange, SlottedPage.truncate, SlottedPage.truncateFixed⟩

/-- An edit as its callers make it: with the stored header. -/
def perform {P : Type} [PageEdits P] (edit : Edit) : EStateM Error P Bool := do
  let page ← get
  let header := PageEdits.rawHeader page
  match edit with
  | .insert index cell => PageEdits.insert header index cell
  | .replace index oldLen cell => PageEdits.replace header index oldLen cell
  | .remove index cellLen => do
    PageEdits.remove header index cellLen
    pure true
  | .removeFixedRange start count cellLen => do
    let _ ← PageEdits.removeFixedRange header start count cellLen
    pure true
  | .truncate keep => do
    let _ ← PageEdits.truncate header keep
    pure true
  | .truncateFixed keep cellLen => do
    let _ ← PageEdits.truncateFixed header keep cellLen
    pure true

def performAll {P : Type} [PageEdits P] : List Edit → EStateM Error P Bool
  | [] => pure true
  | edit :: rest => do
    let done ← perform edit
    if done then performAll rest else pure false

def Appender.pushAll (appender : Appender) : List Bytes → EStateM Error MappedPage (Option Appender)
  | [] => pure (some appender)
  | cell :: rest => do
    match ← appender.tryPush cell with
    | some next => next.pushAll rest
    | none => pure none

def Appender.complete (appender : Appender) : EStateM Error MappedPage Unit :=
  if appender.itemCount = 0 then pure () else appender.finish

def produce (identity : Identity) (pushes : List Bytes) (edits : List Edit) :
    EStateM Error MappedPage Bool := do
  let appender ← Appender.new identity.pageType identity.bornTxn identity.level identity.aux
  match ← appender.pushAll pushes with
  | none => pure false
  | some filled => do
    filled.complete
    performAll edits

def Edit.apply (cells : List Bytes) : Edit → List Bytes
  | .insert index cell => cells.take index ++ cell :: cells.drop index
  | .replace index _ cell => cells.take index ++ cell :: cells.drop (index + 1)
  | .remove index _ => cells.take index ++ cells.drop (index + 1)
  | .removeFixedRange start count _ => cells.take start ++ cells.drop (start + count)
  | .truncate keep => cells.take keep
  | .truncateFixed keep _ => cells.take keep

def Edit.Accepted (cells : List Bytes) : Edit → Prop
  | .insert index cell => index ≤ cells.length ∧ cell ≠ [] ∧
      insertFits (filledHeader 0 cells) cell.length = true
  | .replace index oldLen cell => cell ≠ [] ∧ (∃ old, cells[index]? = some old ∧ old.length = oldLen) ∧
      replaceFits (filledHeader 0 cells) oldLen cell.length = true
  | .remove index cellLen => 1 < cells.length ∧ ∃ old, cells[index]? = some old ∧ old.length = cellLen
  | .removeFixedRange start count cellLen => 0 < count ∧ start + count ≤ cells.length ∧
      count < cells.length ∧ 0 < cellLen ∧ ∀ cell ∈ cells, cell.length = cellLen
  | .truncate keep => 0 < keep ∧ keep ≤ cells.length
  | .truncateFixed keep cellLen => 0 < keep ∧ keep ≤ cells.length ∧ 0 < cellLen ∧
      ∀ cell ∈ cells, cell.length = cellLen

def applyAll (cells : List Bytes) : List Edit → List Bytes
  | [] => cells
  | edit :: rest => applyAll (edit.apply cells) rest

def AcceptedAll (cells : List Bytes) : List Edit → Prop
  | [] => True
  | edit :: rest => edit.Accepted cells ∧ AcceptedAll (edit.apply cells) rest

section Runs

variable {edit : Edit}

theorem apply_ne_nil (accepted : edit.Accepted cells) : edit.apply cells ≠ [] := by
  intro empty
  have none := congrArg List.length empty
  cases edit with
  | insert index cell => simp [Edit.apply] at none
  | replace index oldLen cell => simp [Edit.apply] at none
  | remove index cellLen =>
    obtain ⟨several, _⟩ := accepted
    simp only [Edit.apply, length_append, length_take, length_drop, length_nil] at none
    omega
  | removeFixedRange start count cellLen =>
    obtain ⟨some_, inside, several, _⟩ := accepted
    simp only [Edit.apply, length_append, length_take, length_drop, length_nil] at none
    omega
  | truncate keep =>
    obtain ⟨some_, inside⟩ := accepted
    simp only [Edit.apply, length_take, length_nil] at none
    omega
  | truncateFixed keep cellLen =>
    obtain ⟨some_, inside, _⟩ := accepted
    simp only [Edit.apply, length_take, length_nil] at none
    omega

theorem perform_spec (laid : Laid identity cells page) (accepted : edit.Accepted cells) :
    Ensures (perform edit) page
      (fun done next => done = true ∧ Laid identity (edit.apply cells) next) fail := by
  have header : PageEdits.rawHeader page = identity.header cells := laid.rawHeader
  simp only [perform, ensures_bind, ensures_get, header]
  cases edit with
  | insert index cell =>
    obtain ⟨inside, inhabited, fits⟩ := accepted
    exact insert_spec laid inside inhabited fits
  | replace index oldLen cell =>
    obtain ⟨inhabited, ⟨old, held, rfl⟩, fits⟩ := accepted
    exact replace_spec laid held inhabited fits
  | remove index cellLen =>
    obtain ⟨several, old, held, rfl⟩ := accepted
    rw [ensures_bind]
    exact (remove_spec laid held several).imp fun _ next result => ⟨rfl, result⟩
  | removeFixedRange start count cellLen =>
    obtain ⟨some_, inside, several, positive, lengths⟩ := accepted
    rw [ensures_bind]
    exact (removeFixedRange_spec laid lengths positive some_ inside several).imp
      fun _ next result => ⟨rfl, result.2⟩
  | truncate keep =>
    obtain ⟨some_, inside⟩ := accepted
    rw [ensures_bind]
    exact (truncate_spec laid some_ inside).imp fun _ next result => ⟨rfl, result.2⟩
  | truncateFixed keep cellLen =>
    obtain ⟨some_, inside, positive, lengths⟩ := accepted
    rw [ensures_bind]
    exact (truncateFixed_spec laid lengths positive some_ inside).imp
      fun _ next result => ⟨rfl, result.2⟩

/-- The page of the tree model with these records. -/
def listed (identity : Identity) (cells : List Bytes) : Page :=
  SlottedPage.filledPage identity.pageType.toNat identity.bornTxn.toNat identity.level.toNat
    identity.aux.toNat cells

theorem exists_halves {index : Nat} (inside : index ≤ cells.length) :
    ∃ left right, cells = left ++ right ∧ left.length = index :=
  ⟨cells.take index, cells.drop index, (take_append_drop index cells).symm, by simp [inside]⟩

theorem exists_around {index : Nat} {old : Bytes} (held : cells[index]? = some old) :
    ∃ left right, cells = left ++ old :: right ∧ left.length = index := by
  obtain ⟨inside, rfl⟩ := List.getElem?_eq_some_iff.mp held
  exact ⟨cells.take index, cells.drop (index + 1), by simp, by simp [inside.le]⟩

theorem perform_listed (laid : Laid identity cells page) (accepted : edit.Accepted cells) :
    perform edit (listed identity cells) = .ok true (listed identity (edit.apply cells)) := by
  obtain ⟨physical, arranged⟩ := laid
  have room := arranged.room
  have filled := arranged.filled
  simp only [perform, get_bind_apply]
  cases edit with
  | insert index cell =>
    obtain ⟨inside, inhabited, fits⟩ := accepted
    obtain ⟨left, right, rfl, rfl⟩ := exists_halves inside
    simp only [Edit.apply, take_left, drop_left]
    exact SlottedPage.insert_filledPage _ _ _ _ left right cell inhabited
      ((SlottedPage.insertFits_filledHeader 0 _ cell inhabited).mp fits)
  | replace index oldLen cell =>
    obtain ⟨inhabited, ⟨old, held, rfl⟩, fits⟩ := accepted
    obtain ⟨left, right, rfl, rfl⟩ := exists_around held
    have stored := filled old (by simp)
    simp only [Edit.apply, take_left, drop_length_add_append]
    exact SlottedPage.replace_filledPage _ _ _ _ left right old cell stored inhabited
      ((SlottedPage.replaceFits_filledHeader 0 left right old cell stored inhabited room).mp fits) room
  | remove index cellLen =>
    obtain ⟨several, old, held, rfl⟩ := accepted
    obtain ⟨left, right, rfl, rfl⟩ := exists_around held
    simp only [Edit.apply, take_left, drop_length_add_append]
    simp only [length_append, length_cons] at several
    exact bind_apply_of_ok (SlottedPage.remove_filledPage _ _ _ _ left right old (filled old (by simp))
      (by rw [length_append]; omega) room)
  | removeFixedRange start count cellLen =>
    obtain ⟨some_, inside, several, positive, lengths⟩ := accepted
    obtain ⟨front, right, rfl, total⟩ := exists_halves inside
    obtain ⟨left, run, rfl, rfl⟩ := exists_halves (show start ≤ front.length by omega)
    obtain rfl : run.length = count := by simpa using total
    have applied : (Edit.removeFixedRange left.length run.length cellLen).apply
        (left ++ run ++ right) = left ++ right := by simp [Edit.apply, drop_append]
    rw [applied]
    simp only [length_append] at several
    exact bind_apply_of_ok (SlottedPage.removeFixedRange_filledPage _ _ _ _ left run right cellLen
      positive lengths (length_pos_iff.mp some_) (by rw [length_append]; omega) room)
  | truncate keep =>
    obtain ⟨some_, inside⟩ := accepted
    obtain ⟨left, right, rfl, rfl⟩ := exists_halves inside
    simp only [Edit.apply, take_left]
    exact bind_apply_of_ok (SlottedPage.truncate_filledPage _ _ _ _ left right (length_pos_iff.mp some_))
  | truncateFixed keep cellLen =>
    obtain ⟨some_, inside, positive, lengths⟩ := accepted
    obtain ⟨left, right, rfl, rfl⟩ := exists_halves inside
    simp only [Edit.apply, take_left]
    exact bind_apply_of_ok (SlottedPage.truncateFixed_filledPage _ _ _ _ left right cellLen
      (length_pos_iff.mp some_) positive lengths room)

variable {edits : List Edit} {pushes : List Bytes}

theorem performAll_spec (laid : Laid identity cells page) (accepted : AcceptedAll cells edits) :
    Ensures (performAll edits) page (fun done next => done = true ∧
      Laid identity (applyAll cells edits) next ∧
      performAll edits (listed identity cells) = .ok true (listed identity (applyAll cells edits)))
      fail := by
  -- both models run at once: each edit of the tree page rests on what the bytes are laid out as
  induction edits generalizing cells page with
  | nil => exact ⟨rfl, laid, rfl⟩
  | cons edit rest ih =>
    have first := perform_listed laid accepted.1
    simp only [performAll, ensures_bind, applyAll]
    refine (perform_spec laid accepted.1).imp ?_
    rintro done next ⟨rfl, result⟩
    refine (ih result accepted.2).imp ?_
    rintro done last ⟨all, lastLaid, listedRun⟩
    exact ⟨all, lastLaid, (bind_apply_of_ok first).trans listedRun⟩

theorem applyAll_ne_nil (accepted : AcceptedAll cells edits) (some_ : cells ≠ [] ∨ edits ≠ []) :
    applyAll cells edits ≠ [] := by
  induction edits generalizing cells with
  | nil => exact some_.elim id fun none => absurd rfl none
  | cons edit rest ih => exact ih accepted.2 (Or.inl (apply_ne_nil accepted.1))

theorem usedBytes_le_append (left right : List Bytes) : usedBytes left ≤ usedBytes (left ++ right) := by
  simp only [usedBytes, length_append, SlottedPage.payload_append]
  omega

theorem pushAll_spec (filling : Filling identity cells page)
    (inhabited : ∀ cell ∈ pushes, cell ≠ []) (fits : usedBytes (cells ++ pushes) ≤ pageSize) :
    Ensures ((appenderOf cells).pushAll pushes) page (fun filled next =>
      filled = some (appenderOf (cells ++ pushes)) ∧ Filling identity (cells ++ pushes) next) fail := by
  induction pushes generalizing cells page with
  | nil =>
    rw [append_nil]
    exact ⟨rfl, filling⟩
  | cons cell rest ih =>
    have split : cells ++ cell :: rest = (cells ++ [cell]) ++ rest := by simp
    rw [split] at fits ⊢
    have first := le_trans (usedBytes_le_append (cells ++ [cell]) rest) fits
    simp only [Appender.pushAll, ensures_bind]
    refine (tryPush_spec filling (inhabited cell (by simp)) first).imp ?_
    rintro pushed next ⟨rfl, result⟩
    exact ih result (fun other member => inhabited other (by simp [member])) fits

theorem produce_spec (inhabited : ∀ cell ∈ pushes, cell ≠ [])
    (fits : usedBytes pushes ≤ pageSize) (accepted : AcceptedAll pushes edits) (page : MappedPage) :
    Ensures (produce identity pushes edits) page (fun done last => done = true ∧
      Laid identity (applyAll pushes edits) last ∧
      performAll edits (listed identity pushes) = .ok true (listed identity (applyAll pushes edits)))
      fail := by
  simp only [produce, ensures_bind]
  refine (new_spec page).imp ?_
  rintro _ fresh ⟨rfl, laid⟩
  have empty : Filling identity [] fresh := laid
  refine (pushAll_spec empty inhabited fits).imp ?_
  rintro _ filled ⟨rfl, filling⟩
  rw [nil_append] at filling ⊢
  simp only [ensures_bind]
  have complete : Ensures (appenderOf pushes).complete filled
      (fun _ next => Laid identity pushes next) fail := by
    unfold Appender.complete
    split
    · next none =>
        obtain rfl : pushes = [] := eq_nil_of_length_eq_zero none
        exact filling
    · next some_ =>
        refine appender_finish_spec filling fun nothing => some_ ?_
        rw [nothing]
        rfl
  exact complete.imp fun _ next whole => performAll_spec whole accepted

theorem layoutCell_listed {layout : CellLayout} (laid : Laid identity cells page)
    (conforms : ∀ cell ∈ cells, Conforms layout cell) (index : Nat) :
    (layoutCell layout page (rawHeader page) index).map (·.read page) =
      SlottedPage.layoutCell layout (listed identity cells) (identity.header cells) index := by
  rw [laid.rawHeader]
  obtain ⟨physical, arranged⟩ := laid
  by_cases inside : index < cells.length
  · have held := List.getElem?_eq_getElem inside
    have fits := conforms _ (mem_of_getElem? held)
    rw [layoutCell_eq arranged held fits, listed, SlottedPage.layoutCell_filledPage _ _ _ _ _ _ _ inside]
    · exact congrArg Except.ok (arranged.stored held).2.2
    · cases layout with
      | fixed length => exact fits.2
      | varying minimum maximum => exact fits.2
  · have beyond := Nat.not_lt.mp inside
    cases layout <;> simp [layoutCell, SlottedPage.layoutCell, cell, SlottedPage.cell, record,
      SlottedPage.record, slotStart, SlottedPage.slotRecord, beyond] <;> rfl

/-- A page that is initialized, filled through its appender and edited by calls whose checks
hold denotes the list the same edits make: its records lie packed against the page end in some
order, its slots point at them, and all bytes in between are zero. Once it holds a record, the
inspection by any layout its records conform to accepts it and yields the list. -/
theorem edits_denote_list_edits (identity : Identity) (pushes : List Bytes) (edits : List Edit)
    (page : MappedPage) (inhabited : ∀ cell ∈ pushes, cell ≠ [])
    (fits : usedBytes pushes ≤ pageSize) (accepted : AcceptedAll pushes edits) :
    ∃ last, produce identity pushes edits page = .ok true last ∧
      rawHeader last = filledHeader identity.level.toNat (applyAll pushes edits) ∧
      Laid identity (applyAll pushes edits) last ∧
      ∀ layout, (pushes ≠ [] ∨ edits ≠ []) →
        (∀ cell ∈ applyAll pushes edits, Conforms layout cell) → ∃ inspection,
          inspectLayout last (rawHeader last) layout = some inspection ∧
          inspection.reservedNonzero = false ∧
          (inspection.cells last).map (·.read last) = applyAll pushes edits := by
  obtain ⟨_, last, outcome, rfl, laid, _⟩ := (produce_spec inhabited fits accepted page).total
  refine ⟨last, outcome, laid.rawHeader, laid, ?_⟩
  intro layout some_ conforms
  exact inspectLayout_spec laid (applyAll_ne_nil accepted some_) conforms

/-- The pages on which the trees are modelled, which keep the records of a page and not their
places, stand for the byte pages: filled with the same records and edited by the same calls, both
go through, have equal headers, and every cell read from them is the same. -/
theorem byte_pages_refine_tree_pages (identity : Identity) (pushes : List Bytes) (edits : List Edit)
    (page : MappedPage) (treePage : Page) (storable : SlottedPage.Storable pushes)
    (accepted : AcceptedAll pushes edits) :
    ∃ last treeLast, produce identity pushes edits page = .ok true last ∧
      (do
        let appender ← SlottedPage.Appender.new identity.pageType.toNat identity.bornTxn.toNat
          identity.level.toNat identity.aux.toNat
        appender.pushAll pushes
        performAll edits : EStateM Error Page Bool) treePage = .ok true treeLast ∧
      rawHeader last = SlottedPage.rawHeader treeLast ∧
      ∀ layout, (∀ cell ∈ treeLast.cells, Conforms layout cell) → ∀ index,
        (layoutCell layout last (rawHeader last) index).map (·.read last) =
          SlottedPage.layoutCell layout treeLast (SlottedPage.rawHeader treeLast) index := by
  obtain ⟨_, last, outcome, rfl, laid, treeRun⟩ :=
    (produce_spec storable.records storable.fits accepted page).total
  have built := SlottedPage.build_filledPage treePage identity.pageType.toNat
    identity.bornTxn.toNat identity.level.toNat identity.aux.toNat pushes storable
  exact ⟨last, _, outcome, (bind_apply_of_ok built).trans treeRun, laid.rawHeader,
    fun layout conforms => layoutCell_listed laid conforms⟩

def sampleIdentity : Identity := { pageType := 3, bornTxn := 7, level := 0, aux := 0 }

def samplePage : MappedPage := ⟨List.replicate pageSize 0, length_replicate⟩

def sampleEdits : List Edit :=
  [.insert 1 [5, 6, 7], .remove 0 1, .replace 0 3 [7, 8], .truncateFixed 1 2]

theorem edits_denote_list_edits_sample : ∃ last,
    produce sampleIdentity [[1], [3, 4]] sampleEdits samplePage = .ok true last ∧
    Laid sampleIdentity [[7, 8]] last ∧ ∃ inspection,
      inspectLayout last (rawHeader last) (.fixed 2) = some inspection ∧
      inspection.reservedNonzero = false ∧ (inspection.cells last).map (·.read last) = [[7, 8]] := by
  obtain ⟨last, run, _, laid, inspected⟩ := edits_denote_list_edits sampleIdentity
    [[1], [3, 4]] sampleEdits samplePage (by decide) (by decide)
    ⟨⟨by decide, by decide, by decide⟩, ⟨by decide, [1], by decide, by decide⟩,
      ⟨by decide, ⟨[5, 6, 7], by decide, by decide⟩, by decide⟩,
      ⟨by decide, by decide, by decide, by decide⟩, trivial⟩
  exact ⟨last, run, laid, inspected (.fixed 2) (Or.inl (by decide)) (by decide)⟩

theorem empty_page_refused : ∃ last, produce sampleIdentity [] [] samplePage = .ok true last ∧
    Laid sampleIdentity [] last ∧ ∀ layout, inspectLayout last (rawHeader last) layout = none := by
  obtain ⟨_, last, outcome, rfl, laid, _⟩ := (produce_spec (by simp) (by decide)
    (show AcceptedAll [] [] from trivial) samplePage).total
  refine ⟨last, outcome, laid, fun layout => ?_⟩
  rw [laid.rawHeader]
  rfl

end Runs

end IpRange.SlottedBytes
