import IpRange.RangeTree

/-!
Executable model of the bulk builder: an ordered stream of ranges goes straight
into mapped pages, one open page per tree level.
-/

namespace IpRange.RangeBulk

open SlottedPage FixedTree

structure Node (K : Type) where
  first : K
  pageNumber : Nat

structure PackedPage (K : Type) where
  appender : Option Appender
  first : Option K
  pageNumber : Option Nat

/-- What one branch level holds back. A first child waits for a second one before a
page is opened for them. -/
structure BranchLevel (K : Type) where
  page : PackedPage K
  onlyChild : Option (Node K)
  emitted : Bool

inductive FinishedLevel (K : Type) where
  | root (page : Nat)
  | parent (node : Node K)

structure Builder (K : Type) where
  bornTxn : Nat
  valueKind : ValueKind
  leaf : PackedPage K
  branches : List (BranchLevel K)
  previous : Option (Record K)
  recordCount : Nat

def branchLevels : Nat := 6

variable {K σ : Type} [IpKey K] [Store σ]

namespace PackedPage

def empty : PackedPage K := { appender := none, first := none, pageNumber := none }

def active (page : PackedPage K) : Bool := page.appender.isSome

variable (K) in
def start (bornTxn level : Nat) : EStateM Error σ (PackedPage K) := do
  let pageNumber ← Store.allocate
  let appender ← Store.updatePage pageNumber
    (Appender.new (pageTypeAt (rangeCodec K) level) bornTxn level (IpKey.family K))
  pure { appender := some appender, first := none, pageNumber := some pageNumber }

def push (page : PackedPage K) (first : K) (cell : Bytes) : EStateM Error σ (Bool × PackedPage K) :=
  match page.pageNumber, page.appender with
  | none, _ => throw (.corrupt "ordered range page has no output page")
  | some _, none => throw (.corrupt "ordered range page is not active")
  | some pageNumber, some appender => do
    match ← Store.updatePage pageNumber (appender.tryPush cell) with
    | none => pure (false, page)
    | some next =>
      pure (true, { page with appender := some next, first := some (page.first.getD first) })

def finish (page : PackedPage K) : EStateM Error σ (Node K × PackedPage K) :=
  match page.appender, page.pageNumber with
  | none, _ => throw (.corrupt "ordered range page is not active")
  | some _, none => throw (.corrupt "ordered range page has no output page")
  | some appender, some pageNumber => do
    Store.updatePage pageNumber appender.finish
    match page.first with
    | none => throw (.corrupt "ordered range page has no first key")
    | some first => pure ({ first, pageNumber }, empty)

end PackedPage

namespace BranchLevel

def empty : BranchLevel K := { page := PackedPage.empty, onlyChild := none, emitted := false }

def pushCell (page : PackedPage K) (node : Node K) : EStateM Error σ (Bool × PackedPage K) := do
  let cell ← liftResult ((rangeCodec K).writeBranch node.first node.pageNumber)
  page.push node.first cell

def startWith (bornTxn level : Nat) (first : Node K) : EStateM Error σ (PackedPage K) := do
  let page ← PackedPage.start K bornTxn (level + 1)
  let (fits, page) ← pushCell page first
  if fits then pure page else throw (.corrupt "range branch cell does not fit")

def openPage (bornTxn level : Nat) (branch : BranchLevel K) : EStateM Error σ (Option (PackedPage K)) :=
  if branch.page.active then pure (some branch.page)
  else
    match branch.onlyChild with
    | none => pure none
    | some first => some <$> startWith bornTxn level first

end BranchLevel

open BranchLevel in
/-- `push_node`; the list starts with the branch level above the node. -/
def pushNode (bornTxn : Nat) : Nat → List (BranchLevel K) → Node K →
    EStateM Error σ (List (BranchLevel K))
  | _, [], _ => throw .pageSpaceExhausted
  | level, branch :: above, node => do
    match ← openPage bornTxn level branch with
    | none => pure ({ branch with onlyChild := some node } :: above)
    | some page => do
      let (fits, page) ← pushCell page node
      if fits then pure ({ branch with page, onlyChild := none } :: above)
      else do
        let (parent, page) ← page.finish
        let above ← pushNode bornTxn (level + 1) above parent
        pure ({ page, onlyChild := some node, emitted := true } :: above)

open BranchLevel in
def finishLevel (bornTxn level : Nat) (branch : BranchLevel K) :
    EStateM Error σ (Option (FinishedLevel K)) :=
  if branch.page.active then do
    let (node, _) ← branch.page.finish
    pure (some (if branch.emitted then .parent node else .root node.pageNumber))
  else
    match branch.onlyChild with
    | none => pure none
    | some child =>
      if branch.emitted then do
        let page ← startWith bornTxn level child
        let (node, _) ← page.finish
        pure (some (.parent node))
      else pure (some (.root child.pageNumber))

def finishLevels (bornTxn : Nat) : Nat → Nat → List (BranchLevel K) → EStateM Error σ Nat
  | 0, _, _ => throw .pageSpaceExhausted
  | _ + 1, _, [] => throw .pageSpaceExhausted
  | turns + 1, level, branch :: above => do
    match ← finishLevel bornTxn level branch with
    | none => finishLevels bornTxn turns (level + 1) above
    | some (.root page) => pure page
    | some (.parent node) => do
      let above ← pushNode bornTxn (level + 1) above node
      finishLevels bornTxn turns (level + 1) above

namespace Builder

def new (bornTxn : Nat) (valueKind : ValueKind) : Builder K where
  bornTxn
  valueKind
  leaf := PackedPage.empty
  branches := List.replicate branchLevels BranchLevel.empty
  previous := none
  recordCount := 0

section

variable (builder : Builder K)

def canAppend (record : Record K) : Except Error Bool :=
  if record.to_ < record.from_ then .error (.invalidArgument "range start is after its end")
  else if builder.valueKind ≠ .direct ∧ record.value = 0 then
    .error (.corrupt "indirect range value is zero")
  else
    match builder.previous with
    | none => .ok true
    | some previous =>
      .ok (!(decide (record.from_ ≤ previous.to_) ||
        (decide (previous.value = record.value) &&
          decide (IpKey.checkedNext previous.to_ = some record.from_))))

def openLeaf : EStateM Error σ (PackedPage K) :=
  if builder.leaf.active then pure builder.leaf else PackedPage.start K builder.bornTxn 0

def pushLeafCell (first : K) (cell : Bytes) : EStateM Error σ (Builder K) := do
  let leaf ← builder.openLeaf
  let (fits, leaf) ← leaf.push first cell
  if fits then pure { builder with leaf }
  else do
    let (node, _) ← leaf.finish
    let branches ← pushNode builder.bornTxn 0 builder.branches node
    let leaf ← PackedPage.start K builder.bornTxn 0
    let (fits, leaf) ← leaf.push first cell
    if fits then pure { builder with leaf, branches }
    else throw (.corrupt "range record does not fit an empty leaf")

def tryPush (record : Record K) : EStateM Error σ (Bool × Builder K) := do
  if ← liftResult (builder.canAppend record) then
    if builder.recordCount + 1 < 2 ^ 64 then do
      let cell ← liftResult (encodeRecord record)
      let builder ← builder.pushLeafCell record.from_ cell
      pure (true, { builder with
        previous := some record, recordCount := builder.recordCount + 1 })
    else throw (.arithmeticOverflow "range record count")
  else pure (false, builder)

def push (record : Record K) : EStateM Error σ (Builder K) := do
  let (pushed, builder) ← builder.tryPush record
  if pushed then pure builder
  else throw (.invalidArgument "ordered output ranges are not canonical")

def finish : EStateM Error σ (Nat × Nat) :=
  if builder.recordCount = 0 then pure (0, 0)
  else do
    let (leaf, _) ← builder.leaf.finish
    let branches ← pushNode builder.bornTxn 0 builder.branches leaf
    let root ← finishLevels builder.bornTxn branchLevels 0 branches
    pure (root, builder.recordCount)

end

end Builder

end IpRange.RangeBulk
