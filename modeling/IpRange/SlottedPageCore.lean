import IpRange.Contract

/-!
Executable model of the common page header and of slotted pages. A page keeps
its stored header fields and the list of its records in slot order; where each
record lies inside the record area is not represented; `SlottedBytesCalls` ties it to
the bytes.
-/

namespace IpRange

structure Page where
  magic : Nat
  pageType : Nat
  flags : Nat
  headerBytes : Nat
  bornTxn : Nat
  itemCount : Nat
  level : Nat
  lower : Nat
  upper : Nat
  aux : Nat
  cells : List Bytes
deriving DecidableEq, Repr, Inhabited

namespace Page

def hasMagic (page : Page) : Bool := page.magic == pageMagic

def commonValid (page : Page) : Bool :=
  page.hasMagic && page.flags == 0 && page.headerBytes == headerSize

def ownedBy (page : Page) (txn : Nat) : Bool := page.hasMagic && page.bornTxn == txn

def bornValid (page : Page) (selectedTxn : Nat) : Bool :=
  page.bornTxn != 0 && page.bornTxn ≤ selectedTxn

def kindValid (page : Page) (pageType aux : Nat) : Bool :=
  page.pageType == pageType && page.aux == aux

end Page

/-- `page_header::initialize`: the page is zeroed before its fields are written. -/
def initializePage (pageType bornTxn level aux : Nat) : Page :=
  { magic := pageMagic, pageType, flags := 0, headerBytes := headerSize, bornTxn,
    itemCount := 0, level, lower := headerSize, upper := pageSize, aux, cells := [] }

namespace SlottedPage

structure Header where
  itemCount : Nat
  level : Nat
  lower : Nat
  upper : Nat
deriving DecidableEq, Repr

inductive CellLayout where
  | fixed (length : Nat)
  | varying (minimum maximum : Nat)
deriving DecidableEq, Repr

def rawHeader (page : Page) : Header :=
  { itemCount := page.itemCount, level := page.level, lower := page.lower, upper := page.upper }

def shapeValid (header : Header) : Bool :=
  header.itemCount != 0 && headerSize + header.itemCount * 2 == header.lower &&
    header.lower ≤ header.upper && header.upper < pageSize

def parseTree (page : Page) (selectedTxn branchType leafType aux : Nat)
    (expectedLevel : Option Nat) : Except Error Header :=
  let header := rawHeader page
  if !page.commonValid then .error (.corrupt "slotted-page header is invalid")
  else if !page.bornValid selectedTxn then .error (.corrupt "slotted-page transaction is invalid")
  else if !page.kindValid (if header.level = 0 then leafType else branchType) aux then
    .error (.corrupt "slotted-page type or discriminator is invalid")
  else if header.level > maxTreeLevel || expectedLevel.any (· != header.level) then
    .error (.corrupt "slotted-page child level is invalid")
  else if !shapeValid header then .error (.corrupt "slotted-page bounds are invalid")
  else .ok header

/-- The record a slot points at, after the checks of `slot_start`. -/
def slotRecord (page : Page) (header : Header) (index : Nat) : Except Error Bytes :=
  if header.itemCount ≤ index then .error (.corrupt "slotted-page slot index is invalid")
  else if header.lower < headerSize + index * 2 + 2 then
    .error (.corrupt "slotted-page slot is outside the array")
  else
    match page.cells[index]? with
    | some stored => .ok stored
    | none => .error (.corrupt "slotted-page record is outside the record area")

def cell (page : Page) (header : Header) (index cellLen : Nat) : Except Error Bytes := do
  let stored ← slotRecord page header index
  if stored.length = cellLen then .ok stored
  else .error (.corrupt "slotted-page cell is outside the record area")

def record (page : Page) (header : Header) (index minimumLen maximumLen : Nat) :
    Except Error Bytes := do
  let stored ← slotRecord page header index
  let recordLen := leField stored 0 2
  if recordLen < minimumLen || maximumLen < recordLen then
    .error (.corrupt "slotted-page record length is invalid")
  else if stored.length = recordLen then .ok stored
  else .error (.corrupt "slotted-page record is outside the record area")

def layoutCell (layout : CellLayout) (page : Page) (header : Header) (index : Nat) :
    Except Error Bytes :=
  match layout with
  | .fixed length => cell page header index length
  | .varying minimum maximum => record page header index minimum maximum

def insertFits (header : Header) (cellLen : Nat) : Bool :=
  cellLen != 0 && cellLen ≤ header.upper && header.lower + 2 ≤ header.upper - cellLen

def replaceFits (header : Header) (oldLen newLen : Nat) : Bool :=
  oldLen != 0 && newLen != 0 && newLen ≤ oldLen + (header.upper - header.lower)

def payload (cells : List Bytes) : Nat := (cells.map List.length).sum

section

variable (header : Header)

def insert (index : Nat) (record : Bytes) : EStateM Error Page Bool :=
  if header.itemCount < index then throw (.corrupt "slotted-page insertion index is invalid")
  else if record.isEmpty then throw (.invalidArgument "slotted-page record is empty")
  else if !insertFits header record.length then pure false
  else do
    modify fun page => { page with
      cells := page.cells.take index ++ record :: page.cells.drop index
      itemCount := header.itemCount + 1
      lower := header.lower + 2
      upper := header.upper - record.length }
    pure true

def replace (index oldLen : Nat) (record : Bytes) : EStateM Error Page Bool :=
  if header.itemCount ≤ index || oldLen == 0 || record.isEmpty then
    throw (.corrupt "slotted-page replacement is invalid")
  else do
    let _ ← liftResult (slotRecord (← get) header index)
    -- a growing record moves the records below it down and needs the gap
    if oldLen < record.length && header.upper - (record.length - oldLen) < header.lower then
      pure false
    else do
      modify fun page => { page with
        cells := page.cells.take index ++ record :: page.cells.drop (index + 1)
        upper := header.upper + oldLen - record.length }
      pure true

def remove (index oldLen : Nat) : EStateM Error Page Unit :=
  if header.itemCount ≤ index || header.itemCount ≤ 1 || oldLen == 0 then
    throw (.corrupt "slotted-page removal is invalid")
  else do
    let _ ← liftResult (slotRecord (← get) header index)
    modify fun page => { page with
      cells := page.cells.take index ++ page.cells.drop (index + 1)
      itemCount := header.itemCount - 1
      lower := header.lower - 2
      upper := header.upper + oldLen }

/-- The packing check of `fixed_positions`. -/
def requirePacked (cellLen : Nat) : Except Error Unit :=
  if cellLen == 0 || header.upper + header.itemCount * cellLen != pageSize then
    .error (.corrupt "fixed slotted-page payload is not packed")
  else .ok ()

def removeFixedRange (start count cellLen : Nat) : EStateM Error Page Header :=
  if count == 0 || header.itemCount < start + count || header.itemCount ≤ count ||
      cellLen == 0 then
    throw (.corrupt "slotted-page removal range is invalid")
  else do
    liftResult (requirePacked header cellLen)
    let remaining := header.itemCount - count
    let lower := headerSize + remaining * 2
    let upper := pageSize - remaining * cellLen
    modify fun page => { page with
      cells := page.cells.take start ++ page.cells.drop (start + count)
      itemCount := remaining
      lower
      upper }
    pure { itemCount := remaining, level := header.level, lower, upper }

def finishTruncate (keep upper : Nat) : EStateM Error Page Header := do
  let lower := headerSize + keep * 2
  modify fun page => { page with cells := page.cells.take keep, itemCount := keep, lower, upper }
  pure { itemCount := keep, level := header.level, lower, upper }

def truncate (keep : Nat) : EStateM Error Page Header :=
  if keep == 0 || header.itemCount < keep then
    throw (.corrupt "slotted-page truncation is invalid")
  else if keep = header.itemCount then pure header
  else do
    let page ← get
    finishTruncate header keep (pageSize - payload (page.cells.take keep))

def truncateFixed (keep cellLen : Nat) : EStateM Error Page Header :=
  if keep == 0 || header.itemCount < keep || cellLen == 0 then
    throw (.corrupt "fixed slotted-page truncation is invalid")
  else if keep = header.itemCount then pure header
  else do
    liftResult (requirePacked header cellLen)
    finishTruncate header keep (pageSize - keep * cellLen)

end

structure Appender where
  itemCount : Nat
  upper : Nat
deriving DecidableEq, Repr

namespace Appender

def new (pageType bornTxn level aux : Nat) : EStateM Error Page Appender := do
  set (initializePage pageType bornTxn level aux)
  pure { itemCount := 0, upper := pageSize }

def tryPush (appender : Appender) (record : Bytes) : EStateM Error Page (Option Appender) :=
  if record.isEmpty then throw (.invalidArgument "slotted-page record is empty")
  else if appender.upper < record.length then
    throw (.corrupt "slotted-page record area overflows")
  else if appender.upper - record.length < headerSize + (appender.itemCount + 1) * 2 then pure none
  else do
    modify fun page => { page with cells := page.cells ++ [record] }
    pure (some { itemCount := appender.itemCount + 1, upper := appender.upper - record.length })

def finish (appender : Appender) : EStateM Error Page Unit :=
  if appender.itemCount = 0 then throw (.invalidArgument "reachable slotted page cannot be empty")
  else modify fun page => { page with
    itemCount := appender.itemCount
    lower := headerSize + appender.itemCount * 2
    upper := appender.upper }

def push (appender : Appender) (record : Bytes) : EStateM Error Page Appender := do
  match ← appender.tryPush record with
  | some next => pure next
  | none => throw (.invalidArgument "slotted page is full")

def pushAll (appender : Appender) : List Bytes → EStateM Error Page Unit
  | [] => appender.finish
  | record :: rest => do
    let next ← appender.push record
    next.pushAll rest

end Appender

end SlottedPage

end IpRange
