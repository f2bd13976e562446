import IpRange.Library.Overwrite
import IpRange.SlottedPageCore

/-!
Executable model of a slotted page as the bytes it is stored in: the mapped page
and its writes, the slot array, the edits that move records inside the record
area, the appender, and the inspection of a page's layout.
-/

namespace IpRange

structure MappedPage where
  bytes : Bytes
  size : bytes.length = pageSize
deriving DecidableEq

namespace MappedPage

def checkedSubrange (start len : Nat) : Except Error Unit :=
  if start + len ≤ pageSize then .ok () else .error (.arithmeticOverflow "mapped byte range")

/-- `write` and `write_source`: the bytes land at `start`, or nothing is written. -/
@[irreducible] def write (start : Nat) (bytes : Bytes) : EStateM Error MappedPage Unit := fun page =>
  if fits : start + bytes.length ≤ pageSize then
    .ok () ⟨overwrite start bytes page.bytes,
      (length_overwrite (by rw [page.size]; exact fits)).trans page.size⟩
  else .error (.arithmeticOverflow "mapped byte range") page

def zero (start len : Nat) : EStateM Error MappedPage Unit := write start (List.replicate len 0)

def fill (value : UInt8) : EStateM Error MappedPage Unit := write 0 (List.replicate pageSize value)

def copyWithin (sourceAt destinationAt len : Nat) : EStateM Error MappedPage Unit := do
  liftResult (checkedSubrange sourceAt len)
  liftResult (checkedSubrange destinationAt len)
  let page ← get
  write destinationAt (slice sourceAt len page.bytes)

def setByte (start : Nat) (value : UInt8) : EStateM Error MappedPage Unit := write start [value]

def putU16 (start value : Nat) : EStateM Error MappedPage Unit := write start (toLeBytes 2 value)

def putU32 (start value : Nat) : EStateM Error MappedPage Unit := write start (toLeBytes 4 value)

def putU64 (start value : Nat) : EStateM Error MappedPage Unit := write start (toLeBytes 8 value)

def u16 (page : MappedPage) (start : Nat) : Nat := leField page.bytes start 2

/-- Where the record of a slot starts. -/
def slot (page : MappedPage) (index : Nat) : Nat := page.u16 (headerSize + index * 2)

def allZero (page : MappedPage) (start len : Nat) : Bool :=
  start + len ≤ pageSize && (slice start len page.bytes).all (· == 0)

end MappedPage

namespace PageHeader

def magicAt : Nat := 0
def typeAt : Nat := 4
def headerBytesAt : Nat := 6
def bornTxnAt : Nat := 8
def itemCountAt : Nat := 16
def levelAt : Nat := 18
def lowerAt : Nat := 20
def upperAt : Nat := 22
def auxAt : Nat := 24

structure Fields where
  pageType : UInt8
  bornTxn : UInt64
  itemCount : UInt16
  level : UInt16
  lower : UInt16
  upper : UInt16
  aux : UInt32
deriving DecidableEq, Repr

def initializeHeader (fields : Fields) : EStateM Error MappedPage Unit := do
  MappedPage.fill 0
  MappedPage.write magicAt (toLeBytes 4 pageMagic)
  MappedPage.setByte typeAt fields.pageType
  MappedPage.putU16 headerBytesAt headerSize
  MappedPage.putU64 bornTxnAt fields.bornTxn.toNat
  MappedPage.putU16 itemCountAt fields.itemCount.toNat
  MappedPage.putU16 levelAt fields.level.toNat
  MappedPage.putU16 lowerAt fields.lower.toNat
  MappedPage.putU16 upperAt fields.upper.toNat
  MappedPage.putU32 auxAt fields.aux.toNat

end PageHeader

structure ByteRange where
  start : Nat
  length : Nat
deriving DecidableEq, Repr

namespace ByteRange

def new (start length : Nat) : Option ByteRange :=
  if start + length ≤ pageSize then some { start, length } else none

def read (range : ByteRange) (page : MappedPage) : Bytes := slice range.start range.length page.bytes

end ByteRange

namespace SlottedBytes

open SlottedPage (Header CellLayout shapeValid insertFits replaceFits)
open MappedPage (write zero copyWithin putU16)
open PageHeader

def maxSlotCount : Nat := (pageSize - headerSize) / 2

def rawHeader (page : MappedPage) : Header :=
  { itemCount := page.u16 itemCountAt
    level := page.u16 levelAt
    lower := page.u16 lowerAt
    upper := page.u16 upperAt }

def slotStart (page : MappedPage) (header : Header) (index : Nat) : Except Error Nat :=
  if header.itemCount ≤ index then .error (.corrupt "slotted-page slot index is invalid")
  else if header.lower < headerSize + index * 2 + 2 then
    .error (.corrupt "slotted-page slot is outside the array")
  else .ok (page.slot index)

/-- `Option::ok_or_else` with a corruption. -/
def orCorrupt {α : Type} (value : Option α) (detail : String) : Except Error α :=
  match value with
  | some value => .ok value
  | none => .error (.corrupt detail)

def cell (page : MappedPage) (header : Header) (index cellLen : Nat) : Except Error ByteRange := do
  let start ← slotStart page header index
  if start < header.upper || pageSize < start + cellLen then
    .error (.corrupt "slotted-page cell is outside the record area")
  else orCorrupt (ByteRange.new start cellLen) "slotted-page cell is outside the record area"

def record (page : MappedPage) (header : Header) (index minimumLen maximumLen : Nat) :
    Except Error ByteRange := do
  let start ← slotStart page header index
  if start < header.upper || pageSize < start + 2 then
    .error (.corrupt "slotted-page record is outside the record area")
  else
    let recordLen := page.u16 start
    if recordLen < minimumLen || maximumLen < recordLen then
      .error (.corrupt "slotted-page record length is invalid")
    else if pageSize < start + recordLen then
      .error (.corrupt "slotted-page record is outside the record area")
    else orCorrupt (ByteRange.new start recordLen) "slotted-page record is outside the record area"

def layoutCell (layout : CellLayout) (page : MappedPage) (header : Header) (index : Nat) :
    Except Error ByteRange :=
  match layout with
  | .fixed length => cell page header index length
  | .varying minimum maximum => record page header index minimum maximum

/-! Edits in place. -/

def openSlot (header : Header) (slot : Nat) : EStateM Error MappedPage Unit :=
  if slot = header.lower then pure () else copyWithin slot (slot + 2) (header.lower - slot)

def insert (header : Header) (index : Nat) (cell : Bytes) : EStateM Error MappedPage Bool :=
  if header.itemCount < index then throw (.corrupt "slotted-page insertion index is invalid")
  else if cell.isEmpty then throw (.invalidArgument "slotted-page record is empty")
  else if !insertFits header cell.length then pure false
  else do
    let upper := header.upper - cell.length
    let lower := header.lower + 2
    let slot := headerSize + index * 2
    openSlot header slot
    write upper cell
    putU16 slot upper
    putU16 itemCountAt (header.itemCount + 1)
    putU16 lowerAt lower
    putU16 upperAt upper
    pure true

def recordStart (page : MappedPage) (header : Header) (index cellLen : Nat) : Except Error Nat := do
  let start ← slotStart page header index
  if start < header.upper || pageSize < start + cellLen then
    .error (.corrupt "slotted-page record extent is invalid")
  else .ok start

def adjusted (add : Bool) (amount old : Nat) : Except Error Nat :=
  if !add && old < amount then .error (.corrupt "slotted-page slot adjustment overflows")
  else
    let moved := if add then old + amount else old - amount
    if pageSize ≤ moved then .error (.corrupt "slotted-page slot adjustment is invalid")
    else .ok moved

def adjustSlot (target before : Nat) (add : Bool) (amount index : Nat) :
    EStateM Error MappedPage Unit :=
  if index = target then pure ()
  else do
    let page ← get
    let old := page.slot index
    if before ≤ old then pure ()
    else do
      let moved ← liftResult (adjusted add amount old)
      putU16 (headerSize + index * 2) moved

/-- The loop of `adjust_slots_before` from `index` on, over `left` slots. -/
def adjustSlots (target before : Nat) (add : Bool) (amount : Nat) :
    Nat → Nat → EStateM Error MappedPage Unit
  | _, 0 => pure ()
  | index, left + 1 => do
    adjustSlot target before add amount index
    adjustSlots target before add amount (index + 1) left

section

variable (header : Header)

def adjustSlotsBefore (target before : Nat) (add : Bool) (amount : Nat) :
    EStateM Error MappedPage Unit :=
  adjustSlots target before add amount 0 header.itemCount

def grow (index start growth : Nat) (cell : Bytes) : EStateM Error MappedPage Bool :=
  if header.upper - growth < header.lower then pure false
  else do
    copyWithin header.upper (header.upper - growth) (start - header.upper)
    adjustSlotsBefore header index start false growth
    let newStart := start - growth
    write newStart cell
    putU16 (headerSize + index * 2) newStart
    putU16 upperAt (header.upper - growth)
    pure true

def closeUp (index start shrink : Nat) : EStateM Error MappedPage Unit := do
  copyWithin header.upper (header.upper + shrink) (start - header.upper)
  zero header.upper shrink
  adjustSlotsBefore header index start true shrink

def closeUpBy (index start shrink : Nat) : EStateM Error MappedPage Unit :=
  if shrink = 0 then pure () else closeUp header index start shrink

def shrinkTo (index start shrink : Nat) (cell : Bytes) : EStateM Error MappedPage Bool := do
  closeUpBy header index start shrink
  let newStart := start + shrink
  write newStart cell
  putU16 (headerSize + index * 2) newStart
  putU16 upperAt (header.upper + shrink)
  pure true

def replace (index oldLen : Nat) (cell : Bytes) : EStateM Error MappedPage Bool :=
  if header.itemCount ≤ index || oldLen == 0 || cell.isEmpty then
    throw (.corrupt "slotted-page replacement is invalid")
  else do
    let start ← liftResult (recordStart (← get) header index oldLen)
    if oldLen < cell.length then grow header index start (cell.length - oldLen) cell
    else shrinkTo header index start (oldLen - cell.length) cell

def remove (index oldLen : Nat) : EStateM Error MappedPage Unit :=
  if header.itemCount ≤ index || header.itemCount ≤ 1 || oldLen == 0 then
    throw (.corrupt "slotted-page removal is invalid")
  else do
    let start ← liftResult (recordStart (← get) header index oldLen)
    closeUp header index start oldLen
    let slot := headerSize + index * 2
    copyWithin (slot + 2) slot (header.lower - slot - 2)
    putU16 (header.lower - 2) 0
    putU16 itemCountAt (header.itemCount - 1)
    putU16 lowerAt (header.lower - 2)
    putU16 upperAt (header.upper + oldLen)

end

/-! Compaction: the kept records are moved against the page end, last one first. -/

def compactRecord (output : Option Nat) (start len destination : Nat) :
    EStateM Error MappedPage Nat :=
  match output with
  | none => pure destination
  | some slot => do
    copyWithin start (destination - len) len
    putU16 (headerSize + slot * 2) (destination - len)
    pure (destination - len)

def finishTruncate (header : Header) (keep upper : Nat) : EStateM Error MappedPage Header := do
  let lower := headerSize + keep * 2
  zero lower (header.lower - lower)
  zero header.upper (upper - header.upper)
  putU16 itemCountAt keep
  putU16 lowerAt lower
  putU16 upperAt upper
  pure { itemCount := keep, level := header.level, lower, upper }

/-- `u16::MAX`, the mark of a physical position no slot has claimed. -/
def unclaimed : Nat := 65535

section

variable (page : MappedPage) (header : Header)

def placeLogical (cellLen logical : Nat) (positions : List Nat) : Except Error (List Nat) := do
  let start ← slotStart page header logical
  if start < header.upper then .error (.corrupt "fixed slotted-page record is outside payload")
  else if (start - header.upper) % cellLen != 0 then
    .error (.corrupt "fixed slotted-page record is misaligned")
  else
    match positions[(start - header.upper) / cellLen]? with
    | none => .error (.corrupt "fixed slotted-page record is outside payload")
    | some taken =>
      if taken != unclaimed then .error (.corrupt "fixed slotted-page records overlap")
      else .ok (positions.set ((start - header.upper) / cellLen) logical)

def placeAll (cellLen : Nat) :
    Nat → Nat → List Nat → Except Error (List Nat)
  | _, 0, positions => .ok positions
  | logical, left + 1, positions => do
    let positions ← placeLogical page header cellLen logical positions
    placeAll cellLen (logical + 1) left positions

def fixedPositions (cellLen : Nat) : Except Error (List Nat) :=
  if cellLen == 0 || header.upper + header.itemCount * cellLen != pageSize then
    .error (.corrupt "fixed slotted-page payload is not packed")
  else if maxSlotCount < header.itemCount then
    .error (.corrupt "slotted-page slot count is invalid")
  else do
    let positions ← placeAll page header cellLen 0 header.itemCount
      (List.replicate header.itemCount unclaimed)
    if positions.contains unclaimed then .error (.corrupt "fixed slotted-page payload has a gap")
    else .ok positions

end

/-- The loop over physical positions; the recursion handles the later ones first. -/
def compactFixed (output : Nat → Option Nat) (cellLen : Nat) :
    Nat → List Nat → EStateM Error MappedPage Nat
  | _, [] => pure pageSize
  | start, logical :: rest => do
    let destination ← compactFixed output cellLen (start + cellLen) rest
    compactRecord (output logical) start cellLen destination

def afterRemoval (start end_ logical : Nat) : Option Nat :=
  if logical < start then some logical
  else if end_ ≤ logical then some (logical - (end_ - start))
  else none

def removeFixedRange (header : Header) (start count cellLen : Nat) :
    EStateM Error MappedPage Header :=
  if count == 0 || header.itemCount < start + count || header.itemCount ≤ count ||
      cellLen == 0 then
    throw (.corrupt "slotted-page removal range is invalid")
  else do
    let positions ← liftResult (fixedPositions (← get) header cellLen)
    let destination ← compactFixed (afterRemoval start (start + count)) cellLen header.upper positions
    finishTruncate header (header.itemCount - count) destination

def keptSlot (keep logical : Nat) : Option Nat := if logical < keep then some logical else none

def truncateFixed (header : Header) (keep cellLen : Nat) : EStateM Error MappedPage Header :=
  if keep == 0 || header.itemCount < keep || cellLen == 0 then
    throw (.corrupt "fixed slotted-page truncation is invalid")
  else if keep = header.itemCount then pure header
  else do
    let positions ← liftResult (fixedPositions (← get) header cellLen)
    let destination ← compactFixed (keptSlot keep) cellLen header.upper positions
    finishTruncate header keep destination

structure PhysicalRecord where
  start : Nat
  index : Nat
deriving DecidableEq, Repr

def physicalRecord (page : MappedPage) (header : Header) (index : Nat) :
    Except Error PhysicalRecord := do
  let start ← slotStart page header index
  if start < header.upper || pageSize ≤ start then
    .error (.corrupt "slotted-page record offset is invalid")
  else .ok { start, index }

def startsDiffer : List PhysicalRecord → Bool
  | first :: second :: rest => first.start != second.start && startsDiffer (second :: rest)
  | _ => true

def checkStarts (header : Header) (records : List PhysicalRecord) : Except Error Unit :=
  if (records.head?.map (·.start)) != some header.upper || !startsDiffer records then
    .error (.corrupt "slotted-page record offsets are invalid")
  else .ok ()

def endBefore : List PhysicalRecord → Nat
  | [] => pageSize
  | next :: _ => next.start

def compactVarying (keep : Nat) : List PhysicalRecord → EStateM Error MappedPage Nat
  | [] => pure pageSize
  | record :: rest => do
    let destination ← compactVarying keep rest
    compactRecord (keptSlot keep record.index) record.start (endBefore rest - record.start)
      destination

def truncate (header : Header) (keep : Nat) : EStateM Error MappedPage Header :=
  if keep == 0 || header.itemCount < keep then
    throw (.corrupt "slotted-page truncation is invalid")
  else if keep = header.itemCount then pure header
  else if maxSlotCount < header.itemCount then throw (.corrupt "slotted-page slot count is invalid")
  else do
    let page ← get
    let stored ← liftResult ((List.range header.itemCount).mapM (physicalRecord page header))
    let records := stored.mergeSort fun first second => first.start ≤ second.start
    liftResult (checkStarts header records)
    let destination ← compactVarying keep records
    finishTruncate header keep destination

/-! Filling a page from its first slot. -/

structure Appender where
  itemCount : Nat
  upper : Nat
deriving DecidableEq, Repr

namespace Appender

def new (pageType : UInt8) (bornTxn : UInt64) (level : UInt16) (aux : UInt32) :
    EStateM Error MappedPage Appender := do
  PageHeader.initializeHeader
    { pageType, bornTxn, itemCount := 0, level, lower := UInt16.ofNat headerSize,
      upper := UInt16.ofNat pageSize, aux }
  pure { itemCount := 0, upper := pageSize }

def tryPush (appender : Appender) (cell : Bytes) : EStateM Error MappedPage (Option Appender) :=
  if cell.isEmpty then throw (.invalidArgument "slotted-page record is empty")
  else if appender.upper < cell.length then throw (.corrupt "slotted-page record area overflows")
  else if appender.upper - cell.length < headerSize + (appender.itemCount + 1) * 2 then pure none
  else do
    write (appender.upper - cell.length) cell
    putU16 (headerSize + appender.itemCount * 2) (appender.upper - cell.length)
    pure (some { itemCount := appender.itemCount + 1, upper := appender.upper - cell.length })

def finish (appender : Appender) : EStateM Error MappedPage Unit :=
  if appender.itemCount = 0 then throw (.invalidArgument "reachable slotted page cannot be empty")
  else do
    putU16 itemCountAt appender.itemCount
    putU16 lowerAt (headerSize + appender.itemCount * 2)
    putU16 upperAt appender.upper

end Appender

/-! Inspection of a stored layout. -/

abbrev UsedBits := List (BitVec 64)

def endMask (bit : Nat) : BitVec 64 :=
  if bit = 0 then BitVec.allOnes 64 else (1#64 <<< bit) - 1#64

def markWord (mask : BitVec 64) (index : Nat) (used : UsedBits) : Option UsedBits :=
  match used[index]? with
  | none => none
  | some word => if word &&& mask = 0#64 then some (used.set index (word ||| mask)) else none

def markWords : Nat → Nat → UsedBits → Option UsedBits
  | _, 0, used => some used
  | index, left + 1, used => do
    let used ← markWord (BitVec.allOnes 64) index used
    markWords (index + 1) left used

def markExtent (used : UsedBits) (start end_ : Nat) : Option UsedBits :=
  if end_ ≤ start || pageSize < end_ then none
  else
    let first := start / 64
    let last := (end_ - 1) / 64
    if first = last then
      markWord ((BitVec.allOnes 64 <<< (start % 64)) &&& endMask (end_ % 64)) first used
    else do
      let used ← markWord (BitVec.allOnes 64 <<< (start % 64)) first used
      let used ← markWords (first + 1) (last - (first + 1)) used
      markWord (endMask (end_ % 64)) last used

def fixedExtent (page : MappedPage) (header : Header) (length index : Nat) : Option ByteRange :=
  let start := page.slot index
  if start < header.upper || pageSize - length < start then none else some { start, length }

def extentOf (layout : CellLayout) (page : MappedPage) (header : Header) (index : Nat) :
    Option ByteRange :=
  match layout with
  | .fixed length => fixedExtent page header length index
  | .varying minimum maximum => (record page header index minimum maximum).toOption

def inspectExtents (layout : CellLayout) (page : MappedPage) (header : Header) :
    Nat → Nat → UsedBits → Nat → Option (UsedBits × Nat)
  | _, 0, used, minimum => some (used, minimum)
  | index, left + 1, used, minimum => do
    let extent ← extentOf layout page header index
    let used ← markExtent used extent.start (extent.start + extent.length)
    inspectExtents layout page header (index + 1) left used (min minimum extent.start)

/-- The runs of set bits of `unmarked`, lowest first; every turn clears one run. -/
def nonzeroRun (page : MappedPage) (base : Nat) : Nat → BitVec 64 → Bool
  | 0, _ => false
  | turns + 1, unmarked =>
    if unmarked = 0#64 then false
    else
      let bit := unmarked.ctz.toNat
      let length := (~~~(unmarked >>> bit)).ctz.toNat
      if !page.allZero (base + bit) length then true
      else
        let mask := if length = 64 then BitVec.allOnes 64 else ((1#64 <<< length) - 1#64) <<< bit
        nonzeroRun page base turns (unmarked &&& ~~~mask)

def unmarkedNonzero (page : MappedPage) (used : UsedBits) (start : Nat) : Bool :=
  (used.zipIdx.drop (start / 64)).any fun (marked, wordIndex) =>
    let base := wordIndex * 64
    let inRange := if base < start then BitVec.allOnes 64 <<< (start - base) else BitVec.allOnes 64
    nonzeroRun page base 65 (~~~marked &&& inRange)

structure LayoutInspection where
  reservedNonzero : Bool
  header : Header
  layout : CellLayout

/-- A fixed cell longer than the page fails the inspection before any slot is read. -/
def layoutPossible : CellLayout → Bool
  | .fixed length => length ≤ pageSize
  | .varying _ _ => true

def inspectLayout (page : MappedPage) (header : Header) (layout : CellLayout) :
    Option LayoutInspection :=
  if !shapeValid header || !layoutPossible layout then none
  else do
    let (used, minimum) ← inspectExtents layout page header 0 header.itemCount
      (List.replicate (pageSize / 64) 0#64) pageSize
    if minimum != header.upper then none
    else
      some { reservedNonzero := !page.allZero header.lower (header.upper - header.lower) ||
               unmarkedNonzero page used header.upper
             header
             layout }

def LayoutInspection.cell (inspection : LayoutInspection) (page : MappedPage) (index : Nat) :
    ByteRange :=
  let start := page.slot index
  match inspection.layout with
  | .fixed length => { start, length }
  | .varying _ _ => { start, length := page.u16 start }

def LayoutInspection.cells (inspection : LayoutInspection) (page : MappedPage) : List ByteRange :=
  (List.range inspection.header.itemCount).map (inspection.cell page)

end SlottedBytes

end IpRange
