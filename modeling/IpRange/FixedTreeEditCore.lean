import IpRange.FixedTreeCore

/-!
Executable model of the tree mutations: the private descent, insertion with
split and first-key propagation, replacement of one leaf by several, deletion
of one leaf and removal of a run inside one leaf page. A root passed by
reference is returned; a path lists its frames from the leaf upwards.
-/

namespace IpRange.FixedTree

open SlottedPage

variable {Key Leaf σ τ : Type}

structure PrivateLeaf (τ : Type) where
  path : List Frame
  pageNumber : Nat
  header : Header
  selection : τ

structure LeafTarget where
  path : List Frame
  pageNumber : Nat
  header : Header
  index : Nat
  found : Bool

structure BranchSplit (Key : Type) where
  rightPage : Nat
  rightFirst : Key
  leftFirst : Key
  level : Nat

structure Mutated (α : Type) where
  value : α
  root : Nat
  retired : List Nat

inductive Inspected (τ : Type) where
  | leaf (header : Header) (isPrivate : Bool) (selection : τ)
  | branch (header : Header) (isPrivate : Bool) (index child : Nat)

variable (codec : Codec Key Leaf) [Store σ]

def firstKey (pageNumber level : Nat) : EStateM Error σ Key := do
  let targetTxn := Store.targetTxn (← get)
  viewPage pageNumber fun page => do
    let header ← parse codec page targetTxn (some level)
    keyAt codec page header 0

def touch (pageNumber : Nat) (retired : List Nat) : EStateM Error σ (Nat × List Nat) := do
  let privatePage ← Store.allocate
  copyForCow pageNumber privatePage
  let retired ← liftResult (pushRetired retired pageNumber)
  pure (privatePage, retired)

def replaceBranchChild (pageNumber index child : Nat) : EStateM Error σ Unit := do
  let targetTxn := Store.targetTxn (← get)
  let pageLimit := Store.pageLimit (← get)
  let (header, key, oldLen) ← viewPage pageNumber fun page => do
    let header ← parse codec page targetTxn none
    let key ← keyAt codec page header index
    let old ← layoutCell codec.branchLayout page header index
    let _ ← branchChild codec page header index pageLimit
    .ok (header, key, old.length)
  let replacement ← liftResult (branchCellBuf codec key child)
  if replacement.length ≠ oldLen then
    throw (.corrupt "B+tree child replacement changed key size")
  else
    Store.updatePage pageNumber do
      if ← SlottedPage.replace header index oldLen replacement then pure ()
      else throw (.corrupt "B+tree child replacement no longer fits")

section Descent

variable [LinearOrder Key] (key : Key) (select : Page → Header → List Frame → Except Error τ)

def inspect (targetTxn pageLimit : Nat) (expectedLevel : Option Nat) (path : List Frame)
    (page : Page) : Except Error (Inspected τ) := do
  let header ← parse codec page targetTxn expectedLevel
  let isPrivate := page.bornTxn == targetTxn
  if header.level = 0 then
    .ok (.leaf header isPrivate (← select page header path))
  else do
    let (index, _) ← lowerBound codec page header key false
    .ok (.branch header isPrivate index (← branchChild codec page header index pageLimit))

/-- Makes the page private: a committed one is copied, its parent (or the root) pointed at the
copy and the original retired. -/
def activate (isPrivate : Bool) (pageNumber root : Nat) (parent : Option (Nat × Nat))
    (retired : List Nat) : EStateM Error σ (Nat × Nat × List Nat) :=
  if isPrivate then pure (pageNumber, root, retired)
  else do
    let (copied, retired) ← touch pageNumber retired
    match parent with
    | some (parentPage, parentIndex) =>
      replaceBranchChild codec parentPage parentIndex copied
      pure (copied, root, retired)
    | none => pure (copied, copied, retired)

def descend : Nat → List Frame → Nat → Option Nat → Option (Nat × Nat) → Nat → List Nat →
    EStateM Error σ (Mutated (PrivateLeaf τ))
  | room, path, pageNumber, expectedLevel, parent, root, retired => do
    let targetTxn := Store.targetTxn (← get)
    let pageLimit := Store.pageLimit (← get)
    let inspected ← viewPage pageNumber
      (inspect codec key select targetTxn pageLimit expectedLevel path)
    match inspected with
    | .leaf header isPrivate selection =>
      let (active, root, retired) ← activate codec isPrivate pageNumber root parent retired
      pure { value := { path, pageNumber := active, header, selection }, root, retired }
    | .branch header isPrivate index child =>
      let (active, root, retired) ← activate codec isPrivate pageNumber root parent retired
      match room with
      | 0 => throw (.corrupt "B+tree exceeds its maximum height")
      | room + 1 =>
        descend room ({ pageNumber := active, index, itemCount := header.itemCount } :: path)
          child (some (header.level - 1)) (some (active, index)) root retired

def privatePathSelect (root : Nat) (retired : List Nat) :
    EStateM Error σ (Mutated (PrivateLeaf τ)) :=
  descend codec key select maxPath [] root none none root retired

def privatePath (root : Nat) (retired : List Nat) :
    EStateM Error σ (Mutated (PrivateLeaf (Nat × Bool))) :=
  privatePathSelect codec key (fun page header _ => lowerBound codec page header key true)
    root retired

end Descent

def applyEdit (header : Header) (edit : Edit) : EStateM Error Page Unit := do
  let changed ←
    if edit.replace then do
      let old ← liftResult (codecCell codec (← get) header edit.index)
      SlottedPage.replace header edit.index old.length edit.cell
    else SlottedPage.insert header edit.index edit.cell
  if changed then pure ()
  else throw (.corrupt "B+tree edit no longer fits")

/-- The insertions of `apply_cells` after its first replacement. -/
def insertCells (level : Nat) : Nat → List Bytes → EStateM Error Page Unit
  | _, [] => pure ()
  | index, cell :: rest => do
    let current ← liftResult (parse codec (← get) (2 ^ 64 - 1) (some level))
    if ← SlottedPage.insert current index cell then insertCells level (index + 1) rest
    else throw (.corrupt "B+tree replacement insertion no longer fits")

def applyCells (header : Header) (index : Nat) : List Bytes → EStateM Error Page Unit
  | [] => pure ()
  | first :: rest => do
    let old ← liftResult (codecCell codec (← get) header index)
    if ← SlottedPage.replace header index old.length first then
      insertCells codec header.level (index + 1) rest
    else throw (.corrupt "B+tree replacement no longer fits")

def newLeaf (cell : Bytes) : EStateM Error σ Nat := do
  let pageNumber ← Store.allocate
  let txn := Store.targetTxn (← get)
  Store.updatePage pageNumber do
    (← Appender.new codec.leafType txn 0 codec.aux).pushAll [cell]
  pure pageNumber

def newRoot (leftPage : Nat) (leftFirst : Key) (rightPage : Nat) (rightFirst : Key)
    (level : Nat) : EStateM Error σ Nat :=
  if maxTreeLevel < level then throw (.invalidArgument "B+tree height limit reached")
  else do
    let pageNumber ← Store.allocate
    let left ← liftResult (branchCellBuf codec leftFirst leftPage)
    let right ← liftResult (branchCellBuf codec rightFirst rightPage)
    let txn := Store.targetTxn (← get)
    Store.updatePage pageNumber do
      (← Appender.new codec.branchType txn level codec.aux).pushAll [left, right]
    pure pageNumber

def keepLeftCells (header : Header) (edit : Replacement) (middle : Nat) : EStateM Error Page Unit :=
  if middle ≤ edit.index then do
    let _ ← truncatePage codec header middle
    pure ()
  else if middle < edit.index + edit.cells.length then do
    let left ← truncatePage codec header (edit.index + 1)
    applyCells codec left edit.index (edit.cells.take (middle - edit.index))
  else do
    let left ← truncatePage codec header (middle - (edit.cells.length - 1))
    applyCells codec left edit.index edit.cells

section

variable (pageNumber : Nat) (header : Header) (edit : Replacement)

def keepLeftReplacement (middle : Nat) : EStateM Error σ Unit :=
  Store.updatePage pageNumber (keepLeftCells codec header edit middle)

def splitReplacement : EStateM Error σ (Option (BranchSplit Key)) := do
  let total := edit.total header.itemCount
  let middle ← viewPage pageNumber fun source => replacementSplitIndex codec source header edit
  let rightPage ← Store.allocate
  Store.copyPage pageNumber rightPage fun source =>
    buildReplacement codec source header edit middle total
  keepLeftReplacement codec pageNumber header edit middle
  let rightFirst ← firstKey codec rightPage header.level
  let leftFirst ← firstKey codec pageNumber header.level
  pure (some { rightPage, rightFirst, leftFirst, level := header.level })

def applyReplacement : EStateM Error σ (Option (BranchSplit Key)) := do
  let fits ← viewPage pageNumber fun source => replacementFits codec source header edit
  if fits then do
    Store.updatePage pageNumber (applyCells codec header edit.index edit.cells)
    pure none
  else splitReplacement codec pageNumber header edit

end

def branchAt (frame : Frame) : EStateM Error σ (Header × Nat) := do
  let targetTxn := Store.targetTxn (← get)
  let pageLimit := Store.pageLimit (← get)
  viewPage frame.pageNumber fun source => do
    let header ← parse codec source targetTxn none
    let child ← branchChild codec source header frame.index pageLimit
    .ok (header, child)

def insertBranch (frame : Frame) (leftFirst : Key) (rightPage : Nat) (rightFirst : Key) :
    EStateM Error σ (Option (BranchSplit Key)) := do
  let (header, leftChild) ← branchAt codec frame
  let left ← liftResult (branchCellBuf codec leftFirst leftChild)
  let right ← liftResult (branchCellBuf codec rightFirst rightPage)
  applyReplacement codec frame.pageNumber header { index := frame.index, cells := [left, right] }

def replaceFirstBranch (frame : Frame) (key : Key) :
    EStateM Error σ (Option (BranchSplit Key)) := do
  let (header, child) ← branchAt codec frame
  let replacement ← liftResult (branchCellBuf codec key child)
  applyReplacement codec frame.pageNumber header { index := frame.index, cells := [replacement] }

mutual

/-- `propagate_split_from`, over the frames above the split page; returns the root. -/
def propagateSplit (root : Nat) : List Frame → Nat → Key → Nat → Key → Nat → EStateM Error σ Nat
  | [], leftPage, leftFirst, rightPage, rightFirst, childLevel =>
    newRoot codec leftPage leftFirst rightPage rightFirst (childLevel + 1)
  | frame :: rest, _, leftFirst, rightPage, rightFirst, _ => do
    match ← insertBranch codec frame leftFirst rightPage rightFirst with
    | none => if frame.index = 0 then propagateFirst root rest leftFirst else pure root
    | some split =>
      propagateSplit root rest frame.pageNumber split.leftFirst split.rightPage
        split.rightFirst split.level

/-- `propagate_first_from`, over the frames above a page whose first key changed. -/
def propagateFirst (root : Nat) : List Frame → Key → EStateM Error σ Nat
  | [], _ => pure root
  | frame :: rest, key => do
    match ← replaceFirstBranch codec frame key with
    | some split =>
      propagateSplit root rest frame.pageNumber split.leftFirst split.rightPage
        split.rightFirst split.level
    | none => if frame.index ≠ 0 then pure root else propagateFirst root rest key

end

/-- What stays on the left leaf; a lone new record rebuilds the page. -/
def keepLeftRecord (txn : Nat) (header : Header) (edit : Edit) (middle : Nat) :
    EStateM Error Page Unit :=
  let editInLeft := decide (edit.index < middle)
  let keep := middle - if editInLeft && !edit.replace then 1 else 0
  if keep = 0 then do
    (← Appender.new (pageTypeAt codec header.level) txn header.level codec.aux).pushAll [edit.cell]
  else do
    let left ← truncatePage codec header keep
    if editInLeft then applyEdit codec left edit else pure ()

def keepLeftEdit (pageNumber : Nat) (header : Header) (edit : Edit) (middle : Nat) :
    EStateM Error σ Unit := do
  let txn := Store.targetTxn (← get)
  Store.updatePage pageNumber (keepLeftRecord codec txn header edit middle)

def splitLeafAt (root : Nat) (target : LeafTarget) (edit : Edit) (middle total : Nat) :
    EStateM Error σ Nat := do
  let rightPage ← Store.allocate
  Store.copyPage target.pageNumber rightPage fun source =>
    buildEdit codec source target.header edit middle total
  keepLeftEdit codec target.pageNumber target.header edit middle
  let leftFirst ← firstKey codec target.pageNumber 0
  let rightFirst ← firstKey codec rightPage 0
  propagateSplit codec root target.path target.pageNumber leftFirst rightPage rightFirst 0

def splitLeaf (root : Nat) (target : LeafTarget) (edit : Edit) : EStateM Error σ Nat := do
  let total := edit.total target.header.itemCount
  let middle ← viewPage target.pageNumber fun source =>
    splitIndex codec source target.header edit
  splitLeafAt codec root target edit middle total

inductive Edge where
  | first
  | last
deriving DecidableEq, Repr

/-- The edit of `split_leaf_at_edge` and where it cuts. -/
def edgeEdit (leafCell : Bytes) (itemCount : Nat) : Edge → Edit × Nat
  | .first => ({ index := 0, replace := false, cell := leafCell }, 1)
  | .last => ({ index := itemCount, replace := false, cell := leafCell }, itemCount)

/-- Returns whether a record was added, and the root. A split reports an
addition whether the record was inserted or replaced. -/
def editLeaf (root : Nat) (leafCell : Bytes) (target : LeafTarget) :
    EStateM Error σ (Bool × Nat) := do
  let edit : Edit := { index := target.index, replace := target.found, cell := leafCell }
  let fits ← viewPage target.pageNumber fun page => editFits codec page target.header edit
  if !fits then do
    let root ← splitLeaf codec root target edit
    pure (true, root)
  else do
    Store.updatePage target.pageNumber (applyEdit codec target.header edit)
    if target.index = 0 then do
      let key ← liftResult (codec.readKey edit.cell 0)
      let root ← propagateFirst codec root target.path key
      pure (!target.found, root)
    else pure (!target.found, root)

def requireLeaf (leafCell : Bytes) : Except Error Unit := do
  requireCodec codec
  if leafCell.isEmpty || codec.maxLeafSize < leafCell.length then
    .error (.invalidArgument "wrong B+tree leaf size")
  else do
    let _ ← codec.readLeaf leafCell
    .ok ()

section Mutations

variable [LinearOrder Key]

def insert (root : Nat) (leafCell : Bytes) (retired : List Nat) :
    EStateM Error σ (Mutated Bool) := do
  liftResult (requireLeaf codec leafCell)
  if root = 0 then do
    let root ← newLeaf codec leafCell
    pure { value := true, root, retired }
  else do
    let key ← liftResult (codec.readKey leafCell 0)
    let leaf ← privatePath codec key root retired
    let target : LeafTarget :=
      { path := leaf.value.path, pageNumber := leaf.value.pageNumber, header := leaf.value.header,
        index := leaf.value.selection.1, found := leaf.value.selection.2 }
    let (added, root) ← editLeaf codec leaf.root leafCell target
    pure { value := added, root, retired := leaf.retired }

/-- The loop of `require_replacement` over the new cells. -/
def requireIncreasing (previous : Option Key) : List Bytes → Except Error Unit
  | [] => .ok ()
  | cell :: rest => do
    requireLeaf codec cell
    let current ← codec.readKey cell 0
    if previous.any (current ≤ ·) then
      .error (.invalidArgument "B+tree replacement keys are not increasing")
    else requireIncreasing (some current) rest

def requireReplacement (key : Key) (cells : List Bytes) : Except Error Unit :=
  if cells.length < 2 || 3 < cells.length then
    .error (.invalidArgument "B+tree leaf replacement requires two or three cells")
  else do
    requireIncreasing codec none cells
    let first ← codec.readKey (cells.headD []) 0
    if first ≠ key then .error (.invalidArgument "B+tree replacement changed its first key")
    else .ok ()

def replaceTarget (root : Nat) (target : LeafTarget) (cells : List Bytes) :
    EStateM Error σ Nat := do
  match ← applyReplacement codec target.pageNumber target.header
      { index := target.index, cells } with
  | none => pure root
  | some split =>
    if split.level ≠ 0 then throw (.corrupt "B+tree leaf replacement changed level")
    else
      propagateSplit codec root target.path target.pageNumber split.leftFirst split.rightPage
        split.rightFirst 0

def replaceLeafWith (root : Nat) (key : Key) (cells : List Bytes) (retired : List Nat) :
    EStateM Error σ (Mutated Unit) := do
  liftResult (requireReplacement codec key cells)
  let leaf ← privatePath codec key root retired
  if !leaf.value.selection.2 then throw (.corrupt "B+tree replacement key is missing")
  else do
    let target : LeafTarget :=
      { path := leaf.value.path, pageNumber := leaf.value.pageNumber, header := leaf.value.header,
        index := leaf.value.selection.1, found := leaf.value.selection.2 }
    let root ← replaceTarget codec leaf.root target cells
    pure { value := (), root, retired := leaf.retired }

def removeAt (header : Header) (index : Nat) : EStateM Error Page Unit := do
  let old ← liftResult (codecCell codec (← get) header index)
  SlottedPage.remove header index old.length

def collapseRoot (pageNumber level : Nat) : EStateM Error σ Nat := do
  let targetTxn := Store.targetTxn (← get)
  let pageLimit := Store.pageLimit (← get)
  let child ← viewPage pageNumber fun page => do
    let output ← parse codec page targetTxn (some level)
    branchChild codec page output 0 pageLimit
  Store.discardPrivate pageNumber
  pure child

def removeEmptyChild (root : Nat) : List Frame → EStateM Error σ Nat
  | [] => pure 0
  | frame :: rest => do
    let targetTxn := Store.targetTxn (← get)
    let header ← viewPage frame.pageNumber fun page => parse codec page targetTxn none
    if header.itemCount = 1 then do
      Store.discardPrivate frame.pageNumber
      removeEmptyChild root rest
    else do
      Store.updatePage frame.pageNumber (removeAt codec header frame.index)
      if rest.isEmpty && header.itemCount - 1 == 1 then
        collapseRoot codec frame.pageNumber header.level
      else if frame.index = 0 then do
        let first ← firstKey codec frame.pageNumber header.level
        propagateFirst codec root rest first
      else pure root

def deleteTarget (root : Nat) (path : List Frame) (pageNumber : Nat) (header : Header)
    (index : Nat) : EStateM Error σ Nat :=
  if 1 < header.itemCount then do
    Store.updatePage pageNumber (removeAt codec header index)
    if index ≠ 0 then pure root
    else do
      let first ← firstKey codec pageNumber 0
      propagateFirst codec root path first
  else do
    Store.discardPrivate pageNumber
    removeEmptyChild codec root path

def deleteExisting (root : Nat) (key : Key) (retired : List Nat) :
    EStateM Error σ (Mutated Unit) := do
  let leaf ← privatePath codec key root retired
  if !leaf.value.selection.2 then throw (.corrupt "B+tree key disappeared during deletion")
  else do
    let root ← deleteTarget codec leaf.root leaf.value.path leaf.value.pageNumber
      leaf.value.header leaf.value.selection.1
    pure { value := (), root, retired := leaf.retired }

inductive Adjacent where
  | before
  | after
deriving DecidableEq, Repr

def Adjacent.edgeIndex (direction : Adjacent) (itemCount : Nat) : Nat :=
  match direction with
  | .before => itemCount - 1
  | .after => 0

def edgeStep (direction : Adjacent) (targetTxn pageLimit level : Nat) (page : Page) :
    Except Error ((Key × Leaf) ⊕ Nat) := do
  let header ← parse codec page targetTxn (some level)
  let index := direction.edgeIndex header.itemCount
  let cell ← codecCell codec page header index
  if header.level = 0 then
    .ok (Sum.inl (← codec.readKey cell 0, ← codec.readLeaf cell))
  else .ok (Sum.inr (← branchChild codec page header index pageLimit))

def adjacentEdge (direction : Adjacent) (targetTxn pageLimit : Nat) :
    Nat → Nat → EStateM Error σ (Option (Key × Leaf))
  | level, pageNumber => do
    match ← viewPage pageNumber (edgeStep codec direction targetTxn pageLimit level) with
    | .inl leaf => pure (some leaf)
    | .inr child =>
      match level with
      | 0 => throw (.corrupt "slotted-page child level is invalid")
      | level + 1 => adjacentEdge direction targetTxn pageLimit level child

def Adjacent.siblingIndex (direction : Adjacent) (frame : Frame) : Option Nat :=
  match direction with
  | .before => if frame.index = 0 then none else some (frame.index - 1)
  | .after => if frame.index + 1 < frame.itemCount then some (frame.index + 1) else none

def adjacentLeaf (direction : Adjacent) : List Frame → EStateM Error σ (Option (Key × Leaf))
  | [] => pure none
  | frame :: rest =>
    match direction.siblingIndex frame with
    | none => adjacentLeaf direction rest
    | some sibling => do
      let targetTxn := Store.targetTxn (← get)
      let pageLimit := Store.pageLimit (← get)
      let (child, level) ← viewPage frame.pageNumber fun page => do
        let header ← parse codec page targetTxn none
        if header.itemCount ≠ frame.itemCount || header.level = 0 then
          .error (.corrupt "B+tree path changed during adjacent-leaf traversal")
        else .ok (← branchChild codec page header sibling pageLimit, header.level - 1)
      adjacentEdge codec direction targetTxn pageLimit level child

structure RemovedRun (Key Leaf : Type) where
  removed : Nat
  following : Option (Key × Leaf)

/-- The scan of one leaf page for the end of the run. The callback keeps its own
state, as a closure does. -/
def scanRun (step : Leaf → τ → Except Error (Bool × τ)) (page : Page) (header : Header) :
    Nat → Nat → τ → Except Error (Nat × Option (Key × Leaf) × τ)
  | 0, stop, memory => .ok (stop, none, memory)
  | count + 1, stop, memory => do
    let cell ← codecCell codec page header stop
    let item ← codec.readLeaf cell
    let (included, memory) ← step item memory
    if included then scanRun step page header count (stop + 1) memory
    else .ok (stop, some (← codec.readKey cell 0, item), memory)

def dropRun (root : Nat) (path : List Frame) (pageNumber : Nat) (header : Header)
    (index count : Nat) : EStateM Error σ Nat :=
  if count = header.itemCount then do
    Store.discardPrivate pageNumber
    removeEmptyChild codec root path
  else
    match fixedCellSize codec 0 with
    | none => throw (.unsupported "B+tree run removal requires fixed leaf cells")
    | some cellLen => do
      Store.updatePage pageNumber do
        let _ ← removeFixedRange header index count cellLen
        pure ()
      if index = 0 then do
        let first ← firstKey codec pageNumber 0
        propagateFirst codec root path first
      else pure root

def followingLeaf (path : List Frame) : Option (Key × Leaf) → EStateM Error σ (Option (Key × Leaf))
  | some next => pure (some next)
  | none => adjacentLeaf codec .after path

def finishRun (root : Nat) (path : List Frame) (pageNumber : Nat) (header : Header)
    (index stop : Nat) (following : Option (Key × Leaf)) :
    EStateM Error σ (RemovedRun Key Leaf × Nat) :=
  if stop = index then pure ({ removed := 0, following }, root)
  else do
    let following ← followingLeaf codec path following
    let root ← dropRun codec root path pageNumber header index (stop - index)
    pure ({ removed := stop - index, following }, root)

def removeLeafRun (root : Nat) (key : Key) (step : Leaf → τ → Except Error (Bool × τ))
    (memory : τ) : EStateM Error σ (RemovedRun Key Leaf × τ × Nat) := do
  let leaf ← privatePath codec key root []
  if leaf.retired ≠ [] then throw (.corrupt "private B+tree run retired a page")
  else if !leaf.value.selection.2 then throw (.corrupt "B+tree run start key is missing")
  else do
    let header := leaf.value.header
    let index := leaf.value.selection.1
    let (stop, following, memory) ← viewPage leaf.value.pageNumber fun page =>
      scanRun codec step page header (header.itemCount - index) index memory
    let (run, root) ← finishRun codec leaf.root leaf.value.path leaf.value.pageNumber header index
      stop following
    pure (run, memory, root)

end Mutations

end IpRange.FixedTree
