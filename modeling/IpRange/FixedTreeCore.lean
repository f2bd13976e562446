import IpRange.SlottedPageCore

/-!
Executable model of the copy-on-write B+tree: the codec and store interfaces,
page search and split choice, the descent that makes a path private, and the
insertion, replacement and deletion that run on it.
-/

namespace IpRange

open SlottedPage

/-- What a tree knows about its records. A layout stands for the `leaf_cell` or
`branch_cell` method a codec picks. -/
structure Codec (Key Leaf : Type) where
  branchType : Nat
  leafType : Nat
  aux : Nat
  keySize : Nat
  leafSize : Nat
  maxBranchSize : Nat
  maxLeafSize : Nat
  leafLayout : CellLayout
  branchLayout : CellLayout
  readKey : Bytes → Nat → Except Error Key
  readLeaf : Bytes → Except Error Leaf
  writeBranch : Key → Nat → Except Error Bytes
  readBranchChild : Bytes → Except Error Nat

class Store (σ : Type) where
  targetTxn : σ → Nat
  pageLimit : σ → Nat
  inspectPage : σ → Nat → Except Error Page
  allocate : EStateM Error σ Nat
  updatePage {α : Type} : Nat → EStateM Error Page α → EStateM Error σ α
  copyPage : Nat → Nat → (Page → EStateM Error Page Unit) → EStateM Error σ Unit
  discardPrivate : Nat → EStateM Error σ Unit

class PageSource (σ : Type) where
  selectedTxn : σ → Nat
  selectedPageLimit : σ → Nat
  viewPage : σ → Nat → Except Error Page

instance {σ : Type} [Store σ] : PageSource σ where
  selectedTxn := Store.targetTxn
  selectedPageLimit := Store.pageLimit
  viewPage := Store.inspectPage

structure Frame where
  pageNumber : Nat
  index : Nat
  itemCount : Nat
deriving DecidableEq, Repr

namespace FixedTree

variable {Key Leaf σ : Type}

def maxTreeCell : Nat := 512

def viewPage [Store σ] {α : Type} (pageNumber : Nat) (inspect : Page → Except Error α) :
    EStateM Error σ α := do
  let page ← liftResult (Store.inspectPage (← get) pageNumber)
  liftResult (inspect page)

def copyForCow [Store σ] (source destination : Nat) : EStateM Error σ Unit := do
  let targetTxn := Store.targetTxn (← get)
  Store.copyPage source destination fun page => set { page with bornTxn := targetTxn }

/-- `RetiredPages::push`, whose array holds one page more than a path. -/
def pushRetired (retired : List Nat) (pageNumber : Nat) : Except Error (List Nat) :=
  if retired.length < maxPath + 1 then .ok (retired ++ [pageNumber])
  else .error (.corrupt "COW path exceeds the maximum tree height")

section Pages

variable (codec : Codec Key Leaf)

def pageTypeAt (level : Nat) : Nat := if level = 0 then codec.leafType else codec.branchType

def fixedCellSize (level : Nat) : Option Nat :=
  if level = 0 then
    if codec.leafSize = 0 then none else some codec.leafSize
  else if codec.keySize ≠ 0 ∧ codec.maxBranchSize = codec.keySize + 4 then some (codec.keySize + 4)
  else none

def parse (page : Page) (selectedTxn : Nat) (expectedLevel : Option Nat) : Except Error Header :=
  parseTree page selectedTxn codec.branchType codec.leafType codec.aux expectedLevel

def codecCell (page : Page) (header : Header) (index : Nat) : Except Error Bytes :=
  layoutCell (if header.level = 0 then codec.leafLayout else codec.branchLayout) page header index

def keyAt (page : Page) (header : Header) (index : Nat) : Except Error Key := do
  codec.readKey (← codecCell codec page header index) header.level

/-- The halving loop of `lower_bound_by`; `last` is the most recent probe. -/
def lowerBoundLoop [LinearOrder Key] (key : Key) (keyAt : Nat → Except Error Key) :
    Nat → Nat → Nat → Option (Nat × Key) → Except Error (Nat × Option (Nat × Key))
  | 0, lower, _, last => .ok (lower, last)
  | fuel + 1, lower, upper, last =>
    if lower < upper then do
      let middle := lower + (upper - lower) / 2
      let current ← keyAt middle
      if current < key then
        lowerBoundLoop key keyAt fuel (middle + 1) upper (some (middle, current))
      else lowerBoundLoop key keyAt fuel lower middle (some (middle, current))
    else .ok (lower, last)

def probedKey (keyAt : Nat → Except Error Key) (lower : Nat) :
    Option (Nat × Key) → Except Error Key
  | some (index, current) => if index = lower then .ok current else keyAt lower
  | none => keyAt lower

def lowerBoundBy [LinearOrder Key] (itemCount : Nat) (key : Key) (insertion : Bool)
    (keyAt : Nat → Except Error Key) : Except Error (Nat × Bool) := do
  let (lower, last) ← lowerBoundLoop key keyAt itemCount 0 itemCount none
  let found ←
    if itemCount ≤ lower then .ok false
    else (fun current => decide (current = key)) <$> probedKey keyAt lower last
  if insertion || found || lower == 0 then .ok (lower, found)
  else .ok (lower - 1, false)

def lowerBound [LinearOrder Key] (page : Page) (header : Header) (key : Key) (insertion : Bool) :
    Except Error (Nat × Bool) :=
  match fixedCellSize codec header.level with
  | some cellLen =>
    if !shapeValid header || cellLen == 0 || pageSize < cellLen then
      .error (.corrupt "fixed slotted-page search shape is invalid")
    else
      lowerBoundBy header.itemCount key insertion fun index => do
        codec.readKey (← cell page header index cellLen) header.level
  | none => lowerBoundBy header.itemCount key insertion (keyAt codec page header)

def requireChild (cell : Bytes) (pageLimit : Nat) : Except Error Nat := do
  let child ← codec.readBranchChild cell
  if child < 2 || pageLimit ≤ child then .error (.corrupt "B+tree child page is invalid")
  else .ok child

def branchChild (page : Page) (header : Header) (index pageLimit : Nat) : Except Error Nat := do
  requireChild codec (← layoutCell codec.branchLayout page header index) pageLimit

/-- `CellBuf::branch`. -/
def branchCellBuf (key : Key) (child : Nat) : Except Error Bytes := do
  let cell ← codec.writeBranch key child
  if cell.length = 0 || codec.maxBranchSize < cell.length then
    .error (.unsupported "B+tree branch encoding is invalid")
  else .ok cell

def requireCodec : Except Error Unit :=
  if codec.maxBranchSize = 0 || codec.maxLeafSize = 0 ||
      pageSize < codec.maxBranchSize + 2 + headerSize ||
      pageSize < codec.maxLeafSize + 2 + headerSize || maxTreeCell < codec.maxBranchSize then
    .error (.unsupported "invalid B+tree codec")
  else .ok ()

structure Edit where
  index : Nat
  replace : Bool
  cell : Bytes

def Edit.total (edit : Edit) (sourceCount : Nat) : Nat :=
  sourceCount + if edit.replace then 0 else 1

structure Replacement where
  index : Nat
  cells : List Bytes

def Replacement.total (edit : Replacement) (sourceCount : Nat) : Nat :=
  sourceCount + edit.cells.length - 1

def virtualCell (source : Page) (header : Header) (edit : Edit) (virtualIndex : Nat) :
    Except Error Bytes :=
  if virtualIndex = edit.index then .ok edit.cell
  else
    codecCell codec source header
      (if edit.index < virtualIndex && !edit.replace then virtualIndex - 1 else virtualIndex)

def replacementCell (source : Page) (header : Header) (edit : Replacement) (index : Nat) :
    Except Error Bytes :=
  match (if edit.index ≤ index then edit.cells[index - edit.index]? else none) with
  | some cell => .ok cell
  | none =>
    codecCell codec source header
      (if edit.index + edit.cells.length ≤ index then index - edit.cells.length + 1 else index)

def buildFrom (fetch : Nat → Except Error Bytes) :
    Appender → Nat → Nat → EStateM Error Page Unit
  | appender, 0, _ => appender.finish
  | appender, count + 1, index => do
    let cell ← liftResult (fetch index)
    let next ← appender.push cell
    buildFrom fetch next count (index + 1)

section

variable (source : Page) (header : Header)

def buildEdit (edit : Edit) (start stop : Nat) : EStateM Error Page Unit := do
  let appender ←
    Appender.new (pageTypeAt codec header.level) source.bornTxn header.level codec.aux
  buildFrom (virtualCell codec source header edit) appender (stop - start) start

def buildReplacement (edit : Replacement) (start stop : Nat) : EStateM Error Page Unit := do
  let appender ←
    Appender.new (pageTypeAt codec header.level) source.bornTxn header.level codec.aux
  buildFrom (replacementCell codec source header edit) appender (stop - start) start

def editFits (edit : Edit) : Except Error Bool :=
  if edit.replace then
    if header.itemCount ≤ edit.index then .error (.corrupt "B+tree replacement index is invalid")
    else do
      let old ← codecCell codec source header edit.index
      .ok (replaceFits header old.length edit.cell.length)
  else if header.itemCount < edit.index then
    .error (.corrupt "B+tree insertion index is invalid")
  else .ok (insertFits header edit.cell.length)

def replacementFits (edit : Replacement) : Except Error Bool :=
  if header.itemCount ≤ edit.index || edit.cells.isEmpty then
    .error (.corrupt "B+tree replacement is invalid")
  else do
    let old ← codecCell codec source header edit.index
    let available := old.length + (header.upper - header.lower)
    .ok (decide (payload edit.cells + (edit.cells.length - 1) * 2 ≤ available))

end

def pageBytes (count payload : Nat) : Nat := count * 2 + headerSize + payload

def fixedSplitIndex (total cellLen : Nat) : Except Error Nat :=
  if total < 2 then .error (.corrupt "B+tree split has fewer than two records")
  else
    let middle := total / 2
    if pageSize < pageBytes middle (middle * cellLen) ||
        pageSize < pageBytes (total - middle) ((total - middle) * cellLen) then
      .error (.invalidArgument "B+tree record cannot be split")
    else .ok middle

def payloadSize (cellLen : Nat → Except Error Nat) : Nat → Nat → Except Error Nat
  | 0, _ => .ok 0
  | count + 1, index => do
    let first ← cellLen index
    let rest ← payloadSize cellLen count (index + 1)
    .ok (first + rest)

def splitDifference (total middle payload leftPayload : Nat) : Except Error (Option Nat) :=
  if payload < leftPayload then .error (.corrupt "B+tree split size changed")
  else
    let left := pageBytes middle leftPayload
    let right := pageBytes (total - middle) (payload - leftPayload)
    if pageSize < left || pageSize < right then .ok none
    else .ok (some ((left - right) + (right - left)))

/-- The loop of `choose_split` over the remaining split points. -/
def chooseSplit (total payload : Nat) (cellLen : Nat → Except Error Nat) :
    Nat → Nat → Nat → Option (Nat × Nat) → Except Error (Option (Nat × Nat))
  | 0, _, _, best => .ok best
  | count + 1, middle, leftPayload, best => do
    let leftPayload := leftPayload + (← cellLen (middle - 1))
    match ← splitDifference total middle payload leftPayload with
    | none => chooseSplit total payload cellLen count (middle + 1) leftPayload best
    | some difference =>
      let better :=
        match best with
        | none => true
        | some (_, prior) => decide (difference < prior)
      chooseSplit total payload cellLen count (middle + 1) leftPayload
        (if better then some (middle, difference) else best)

def splitBySize (total : Nat) (cellLen : Nat → Except Error Nat) : Except Error Nat :=
  if total < 2 then .error (.corrupt "B+tree split has fewer than two records")
  else do
    let payload ← payloadSize cellLen total 0
    match ← chooseSplit total payload cellLen (total - 1) 1 0 none with
    | some (middle, _) => .ok middle
    | none => .error (.invalidArgument "B+tree record cannot be split")

def splitIndex (source : Page) (header : Header) (edit : Edit) : Except Error Nat :=
  let total := edit.total header.itemCount
  match fixedCellSize codec header.level with
  | some cellLen => fixedSplitIndex total cellLen
  | none => splitBySize total fun index => List.length <$> virtualCell codec source header edit index

def replacementSplitIndex (source : Page) (header : Header) (edit : Replacement) :
    Except Error Nat :=
  let total := edit.total header.itemCount
  match fixedCellSize codec header.level with
  | some cellLen => fixedSplitIndex total cellLen
  | none =>
    splitBySize total fun index => List.length <$> replacementCell codec source header edit index

def truncatePage (header : Header) (keep : Nat) : EStateM Error Page Header :=
  match fixedCellSize codec header.level with
  | some cellLen => truncateFixed header keep cellLen
  | none => truncate header keep

end Pages

end FixedTree

end IpRange
