import IpRange.FixedTreeCore

/-!
Executable model of the ordered cursor over a fixed tree: positioning by key or
at an edge and stepping in either direction. How pages are reached is a parameter,
so that a traversal may give up each page it has passed.
-/

namespace IpRange.FixedTree

open SlottedPage

inductive Direction where
  | forward
  | backward
deriving DecidableEq, Repr

def Direction.edge (direction : Direction) (count : Nat) : Nat :=
  match direction with
  | .forward => 0
  | .backward => count - 1

def Direction.step (direction : Direction) (index count : Nat) : Option Nat :=
  match direction with
  | .forward => if index + 1 < count then some (index + 1) else none
  | .backward => if 0 < index then some (index - 1) else none

inductive SeekPosition where
  | index (position : Nat)
  | nextLeaf
  | finished
deriving DecidableEq, Repr

structure CursorFrame where
  pageNumber : Nat
  index : Nat
  itemCount : Nat
  level : Nat
deriving DecidableEq, Repr

/-- The nearest branch stands first in `path`. -/
structure Cursor where
  selectedTxn : Nat
  pageLimit : Nat
  root : Nat
  direction : Direction
  path : List CursorFrame
  leaf : Option (Nat × Header)
  index : Nat
  needsAdvance : Bool
  finished : Bool
deriving DecidableEq, Repr

/-- How a cursor reaches its pages; `discard` gives up a page it has passed. -/
structure Access (σ : Type) where
  selectedTxn : σ → Nat
  pageLimit : σ → Nat
  consumedTxn : Option Nat
  discard : Nat → EStateM Error σ Unit

variable {Key Leaf σ α : Type}

def Access.shared [PageSource σ] : Access σ where
  selectedTxn := PageSource.selectedTxn
  pageLimit := PageSource.selectedPageLimit
  consumedTxn := none
  discard _ := pure ()

def readPage [PageSource σ] (pageNumber : Nat) (inspect : Page → Except Error α) :
    EStateM Error σ α := do
  let page ← liftResult (PageSource.viewPage (← get) pageNumber)
  liftResult (inspect page)

namespace Cursor

def setLeaf (cursor : Cursor) (pageNumber : Nat) (header : Header) (index : Nat) : Cursor :=
  { cursor with leaf := some (pageNumber, header), index, needsAdvance := false, finished := false }

def room (cursor : Cursor) : Nat := maxTreeLevel - cursor.path.length

def unpositioned (access : Access σ) (state : σ) (root : Nat) (direction : Direction) :
    Except Error Cursor :=
  if root ≠ 0 ∧ (root < 2 ∨ access.pageLimit state ≤ root) then
    .error (.corrupt "B+tree root is outside page bounds")
  else
    .ok { selectedTxn := access.selectedTxn state, pageLimit := access.pageLimit state, root,
          direction, path := [], leaf := none, index := 0, needsAdvance := false,
          finished := decide (root = 0) }

def requireAccess (cursor : Cursor) (access : Access σ) (state : σ) : Except Error Unit :=
  if access.selectedTxn state ≠ cursor.selectedTxn ∨ access.pageLimit state ≠ cursor.pageLimit then
    .error (.corrupt "B+tree cursor source changed")
  else .ok ()

variable (codec : Codec Key Leaf)

def edgeChild (cursor : Cursor) (consumedTxn expectedLevel : Option Nat) (page : Page) :
    Except Error (Header × Option Nat) := do
  let header ← parse codec page cursor.selectedTxn expectedLevel
  if consumedTxn.any (page.bornTxn ≠ ·) then
    .error (.corrupt "consumed B+tree contains a committed page")
  else if header.level = 0 then .ok (header, none)
  else do
    let child ← branchChild codec page header (cursor.direction.edge header.itemCount)
      cursor.pageLimit
    .ok (header, some child)

section Traversal

variable [PageSource σ] (access : Access σ)

/-- The loop of `descend_edge`; `push` fails once the path array is full. -/
def descendEdge : Nat → Cursor → Nat → Option Nat → EStateM Error σ Cursor
  | room, cursor, pageNumber, expectedLevel => do
    let (header, child) ← readPage pageNumber
      (edgeChild codec cursor access.consumedTxn expectedLevel)
    let index := cursor.direction.edge header.itemCount
    match child with
    | none => pure (cursor.setLeaf pageNumber header index)
    | some child =>
      let frame : CursorFrame :=
        { pageNumber, index, itemCount := header.itemCount, level := header.level }
      match room with
      | 0 => throw (.corrupt "B+tree exceeds its maximum height")
      | room + 1 =>
        descendEdge room { cursor with path := frame :: cursor.path } child
          (some (header.level - 1))

def siblingChild (cursor : Cursor) (frame : CursorFrame) (page : Page) : Except Error Nat := do
  let header ← parse codec page cursor.selectedTxn (some frame.level)
  if header.itemCount ≠ frame.itemCount then
    .error (.corrupt "B+tree branch changed during traversal")
  else branchChild codec page header frame.index cursor.pageLimit

def advanceLeaf (cursor : Cursor) : List CursorFrame → EStateM Error σ Cursor
  | [] => pure { cursor with path := [], leaf := none, needsAdvance := false, finished := true }
  | frame :: rest =>
    match cursor.direction.step frame.index frame.itemCount with
    | none => do
      access.discard frame.pageNumber
      advanceLeaf cursor rest
    | some index => do
      let moved := { frame with index }
      let child ← readPage frame.pageNumber (siblingChild codec cursor moved)
      let next := { cursor with path := moved :: rest, leaf := none }
      descendEdge codec access next.room next child (some (frame.level - 1))

def advance (cursor : Cursor) : EStateM Error σ Cursor :=
  match cursor.leaf with
  | none => throw (.corrupt "active B+tree cursor has a leaf")
  | some (pageNumber, header) =>
    match cursor.direction.step cursor.index header.itemCount with
    | some index => pure { cursor with index, needsAdvance := false }
    | none => do
      access.discard pageNumber
      advanceLeaf codec access cursor cursor.path

def openAt (root : Nat) (direction : Direction) : EStateM Error σ Cursor := do
  let cursor ← liftResult (unpositioned access (← get) root direction)
  if cursor.finished then pure cursor
  else descendEdge codec access cursor.room cursor root none

end Traversal

def readCurrent [PageSource σ] (cursor : Cursor)
    (item : Page → Header → Nat → Nat → Except Error α) : EStateM Error σ (Option α) :=
  if cursor.finished then pure none
  else
    match cursor.leaf with
    | none => throw (.corrupt "active B+tree cursor has a leaf")
    | some (pageNumber, header) =>
      some <$> readPage pageNumber fun page => item page header pageNumber cursor.index

section

variable (access : Access σ) (item : Page → Header → Nat → Nat → Except Error α)
  (eagerAdvance : Bool) (cursor : Cursor)

/-- The end of `next_inner`, once the cursor stands on the record to yield. -/
def yieldCurrent [PageSource σ] : EStateM Error σ (Option α × Cursor) := do
  match ← cursor.readCurrent item with
  | none => pure (none, cursor)
  | some result =>
    let cursor := { cursor with needsAdvance := true }
    if eagerAdvance then do
      let cursor ← advance codec access cursor
      pure (some result, cursor)
    else pure (some result, cursor)

def nextInner [PageSource σ] : EStateM Error σ (Option α × Cursor) := do
  liftResult (cursor.requireAccess access (← get))
  if cursor.finished then pure (none, cursor)
  else if cursor.needsAdvance then do
    let cursor ← advance codec access cursor
    yieldCurrent codec access item eagerAdvance cursor
  else yieldCurrent codec access item eagerAdvance cursor

end

section Seek

variable [LinearOrder Key] (policy : Page → Header → Nat → Bool → Direction →
  Except Error SeekPosition) (item : Page → Header → Nat → Nat → Except Error α)

inductive SeekStep (α : Type) where
  | finished
  | leaf (header : Header) (selected : SeekPosition) (output : Option α)
  | branch (header : Header) (index child : Nat)

def seekIndex (direction : Direction) (position : Nat) (exact_ : Bool) : Option Nat :=
  if exact_ then some position
  else if 0 < position then some (position - 1)
  else
    match direction with
    | .forward => some 0
    | .backward => none

def seekOutput (pageNumber : Nat) (page : Page) (header : Header) :
    SeekPosition → Except Error (Option α)
  | .index index =>
    if header.itemCount ≤ index then .error (.corrupt "B+tree seek index is invalid")
    else some <$> item page header pageNumber index
  | .nextLeaf => .ok none
  | .finished => .ok none

def seekStep (cursor : Cursor) (key : Key) (pageNumber : Nat) (expectedLevel : Option Nat)
    (page : Page) : Except Error (SeekStep α) := do
  let header ← parse codec page cursor.selectedTxn expectedLevel
  let (position, exact_) ← lowerBound codec page header key true
  if header.level = 0 then do
    let selected ← policy page header position exact_ cursor.direction
    let output ← seekOutput item pageNumber page header selected
    .ok (.leaf header selected output)
  else
    match seekIndex cursor.direction position exact_ with
    | none => .ok .finished
    | some index => do
      let child ← branchChild codec page header index cursor.pageLimit
      .ok (.branch header index child)

variable [PageSource σ] (access : Access σ)

def seekLeaf (cursor : Cursor) (pageNumber : Nat) (header : Header) (output : Option α) :
    SeekPosition → EStateM Error σ (Option α × Cursor)
  | .index index => pure (output, cursor.setLeaf pageNumber header index)
  | .nextLeaf => do
    let cursor := cursor.setLeaf pageNumber header (header.itemCount - 1)
    let cursor ← advanceLeaf codec access cursor cursor.path
    let output ← cursor.readCurrent item
    pure (output, cursor)
  | .finished => pure (none, { cursor with finished := true })

/-- The loop of `seek_read_inner` below the root. -/
def seekFrom (key : Key) :
    Nat → Cursor → Nat → Option Nat → EStateM Error σ (Option α × Cursor)
  | room, cursor, pageNumber, expectedLevel => do
    let step ← readPage pageNumber (seekStep codec policy item cursor key pageNumber expectedLevel)
    match step with
    | .finished => pure (none, { cursor with finished := true })
    | .leaf header selected output =>
      seekLeaf codec item access cursor pageNumber header output selected
    | .branch header index child =>
      let frame : CursorFrame :=
        { pageNumber, index, itemCount := header.itemCount, level := header.level }
      match room with
      | 0 => throw (.corrupt "B+tree exceeds its maximum height")
      | room + 1 =>
        seekFrom key room { cursor with path := frame :: cursor.path } child
          (some (header.level - 1))

def seekReadInner (key : Key) (cursor : Cursor) : EStateM Error σ (Option α × Cursor) := do
  liftResult (cursor.requireAccess access (← get))
  let cursor := { cursor with path := [], leaf := none, needsAdvance := false,
                              finished := decide (cursor.root = 0) }
  if cursor.finished then pure (none, cursor)
  else seekFrom codec policy item access key cursor.room cursor cursor.root none

end Seek

end Cursor

section Queries

variable (codec : Codec Key Leaf)

/-- `ReadLeaf`. -/
def readLeafItem (page : Page) (header : Header) (_pageNumber index : Nat) : Except Error Leaf := do
  codec.readLeaf (← layoutCell codec.leafLayout page header index)

/-- `Previous`. -/
def seekPrevious (_page : Page) (_header : Header) (position : Nat) (exact_ : Bool)
    (_direction : Direction) : Except Error SeekPosition :=
  if exact_ then .ok (.index position)
  else if 0 < position then .ok (.index (position - 1))
  else .ok .finished

/-- `CurrentOrNext`. -/
def seekCurrentOrNext (_page : Page) (header : Header) (position : Nat) (_exact : Bool)
    (_direction : Direction) : Except Error SeekPosition :=
  if position < header.itemCount then .ok (.index position) else .ok .nextLeaf

variable [LinearOrder Key] [PageSource σ]

/-- `Cursor::lookup`. -/
def lookup (root : Nat) (direction : Direction)
    (policy : Page → Header → Nat → Bool → Direction → Except Error SeekPosition)
    (item : Page → Header → Nat → Nat → Except Error α) (key : Key) :
    EStateM Error σ (Option α) := do
  let cursor ← liftResult (Cursor.unpositioned Access.shared (← get) root direction)
  let (output, _) ← Cursor.seekReadInner codec policy item Access.shared key cursor
  pure output

def predecessor (root : Nat) (key : Key) : EStateM Error σ (Option Leaf) :=
  lookup codec root .backward seekPrevious (readLeafItem codec) key

def atOrAfter (root : Nat) (key : Key) : EStateM Error σ (Option Leaf) :=
  lookup codec root .forward seekCurrentOrNext (readLeafItem codec) key

end Queries

end IpRange.FixedTree
