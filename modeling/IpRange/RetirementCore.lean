import Mathlib.Data.Prod.Lex
import IpRange.RangeTree
import IpRange.FixedTreeCursorCore

/-!
Executable model of the retirement tree: extents of pages that left the committed
roots, keyed by the transaction that retired them and their first page. A page joins
the extents it is adjacent to; the pages that the tree's own copy-on-write replaces
are fed back into it.
-/

namespace IpRange.Retirement

open SlottedPage FixedTree

@[ext] structure Key where
  txn : Nat
  first : Nat
deriving DecidableEq, Repr

def Key.fields (key : Key) : ℕ ×ₗ ℕ := toLex (key.txn, key.first)

theorem Key.fields_injective : Function.Injective Key.fields := by
  intro left right same
  have pairs := congrArg ofLex same
  exact Key.ext (congrArg Prod.fst pairs) (congrArg Prod.snd pairs)

instance : LinearOrder Key where
  __ := LinearOrder.lift' Key.fields Key.fields_injective
  toDecidableEq := instDecidableEqKey
  compare_eq_compareOfLessAndEq left right := by
    rw [LinearOrder.compare_eq_compareOfLessAndEq]
    congr

@[ext] structure Extent where
  key : Key
  count : Nat
deriving DecidableEq, Repr

def Extent.past (extent : Extent) : Nat := extent.key.first + extent.count

def keySize : Nat := 12
def cellSize : Nat := 16

def decodeKeyRaw (cell : Bytes) : Option Key :=
  if keySize ≤ cell.length then some { txn := leField cell 0 8, first := leField cell 8 4 } else none

def decodeRaw (cell : Bytes) : Option Extent :=
  if cell.length ≠ cellSize then none
  else (decodeKeyRaw cell).map fun key => { key, count := leField cell 12 4 }

def decodeKey (cell : Bytes) : Except Error Key :=
  match decodeKeyRaw cell with
  | some key => .ok key
  | none => .error (.corrupt "retirement key is truncated")

def decodeSlice (cell : Bytes) : Except Error Extent :=
  match decodeRaw cell with
  | some extent => .ok extent
  | none => .error (.corrupt "retirement leaf has the wrong record size")

def requireExtent (extent : Extent) : Except Error Extent :=
  if extent.key.txn ≤ 1 || extent.key.first < 2 || extent.count = 0 then
    .error (.corrupt "retirement extent has invalid fields")
  else if 2 ^ 32 < extent.past then .error (.corrupt "retirement extent endpoint overflow")
  else .ok extent

def readLeaf (cell : Bytes) : Except Error Extent := do
  requireExtent (← decodeSlice cell)

def encodeKey (key : Key) : Bytes := toLeBytes 8 key.txn ++ toLeBytes 4 key.first

/-- `Encoded::new`. -/
@[irreducible] def encode (extent : Extent) : Bytes := encodeKey extent.key ++ toLeBytes 4 extent.count

def retirementCodec : Codec Key Extent where
  branchType := 16
  leafType := 17
  aux := 0
  keySize := keySize
  leafSize := cellSize
  maxBranchSize := keySize + 4
  maxLeafSize := cellSize
  leafLayout := .fixed cellSize
  branchLayout := .fixed (keySize + 4)
  readKey cell _ := decodeKey cell
  readLeaf := readLeaf
  writeBranch := writeFixedBranch encodeKey
  readBranchChild := readFixedChild keySize

structure Tree where
  root : Nat
  extentCount : Nat
deriving DecidableEq, Repr

inductive Neighbors where
  | neither
  | previous (extent : Extent)
  | next (extent : Extent)
  | both (previous next : Extent)
deriving DecidableEq, Repr

def checkedSucc (first : Nat) : Option Nat := if first + 1 < 2 ^ 32 then some (first + 1) else none

def classifyNeighbors (key : Key) (previous next : Option Extent) : Except Error Neighbors :=
  if next.any (fun extent => extent.key = key) ||
      previous.any (fun extent => extent.key.txn = key.txn && key.first < extent.past) then
    .error (.corrupt "page is already retired")
  else
    let joinsPrevious :=
      previous.any fun extent => extent.key.txn = key.txn && extent.past = key.first
    let joinsNext := next.any fun extent =>
      extent.key.txn = key.txn && checkedSucc key.first = some extent.key.first
    match previous, next, joinsPrevious, joinsNext with
    | _, _, false, false => .ok .neither
    | some previous, _, true, false => .ok (.previous previous)
    | _, some next, false, true => .ok (.next next)
    | some previous, some next, true, true => .ok (.both previous next)
    | _, _, _, _ => .error (.corrupt "retirement neighbor classification failed")

def grow (count by_ : Nat) : Except Error Nat :=
  if count + by_ < 2 ^ 32 then .ok (count + by_)
  else .error (.arithmeticOverflow "retirement extent length")

def extendRetired (retired pages : List Nat) : Except Error (List Nat) :=
  pages.foldlM pushRetired retired

def countUp (extentCount : Nat) : Except Error Nat :=
  if extentCount + 1 < 2 ^ 64 then .ok (extentCount + 1)
  else .error (.arithmeticOverflow "retirement extent count")

def countDown (extentCount : Nat) : Except Error Nat :=
  if extentCount = 0 then .error (.arithmeticOverflow "retirement extent count")
  else .ok (extentCount - 1)

section Mutation

variable {σ : Type} [Store σ]

section

variable (tree : Tree)

/-- `insert`; like the calls below it returns the tree and the retired pages it was given
by reference. -/
def insert (extent : Extent) (retired : List Nat) : EStateM Error σ (Tree × List Nat) := do
  let inserted ← FixedTree.insert retirementCodec tree.root (encode extent) retired
  if inserted.value then
    let extentCount ← liftResult (countUp tree.extentCount)
    pure ({ root := inserted.root, extentCount }, inserted.retired)
  else pure ({ tree with root := inserted.root }, inserted.retired)

def remove (key : Key) (retired : List Nat) : EStateM Error σ (Tree × List Nat) := do
  let removed ← deleteExisting retirementCodec tree.root key []
  let retired ← liftResult (extendRetired retired removed.retired)
  let extentCount ← liftResult (countDown tree.extentCount)
  pure ({ root := removed.root, extentCount }, retired)

def insertSingle (key : Key) (retired : List Nat) : EStateM Error σ (Tree × List Nat) :=
  insert tree { key, count := 1 } retired

def extendPrevious (previous : Extent) (retired : List Nat) :
    EStateM Error σ (Tree × List Nat) := do
  let count ← liftResult (grow previous.count 1)
  insert tree { key := previous.key, count } retired

def extendNext (key : Key) (next : Extent) (retired : List Nat) :
    EStateM Error σ (Tree × List Nat) := do
  let (tree, retired) ← remove tree next.key retired
  let count ← liftResult (grow next.count 1)
  insert tree { key, count } retired

def bridge (previous next : Extent) (retired : List Nat) : EStateM Error σ (Tree × List Nat) := do
  let (tree, retired) ← remove tree previous.key retired
  let (tree, retired) ← remove tree next.key retired
  let joined ← liftResult (grow previous.count 1)
  let count ← liftResult (grow joined next.count)
  insert tree { key := previous.key, count } retired

def applyPage (key : Key) : Neighbors → EStateM Error σ (Tree × List Nat)
  | .neither => insertSingle tree key []
  | .previous previous => extendPrevious tree previous []
  | .next next => extendNext tree key next []
  | .both previous next => bridge tree previous next []

def addPage (txn pageNumber : Nat) : EStateM Error σ (Tree × List Nat) := do
  if txn ≤ 1 then
    throw (.invalidArgument "retirement transaction must be above creation")
  else if pageNumber < 2 then throw (.corrupt "a meta page cannot be retired")
  else
    let key : Key := { txn, first := pageNumber }
    let previous ← predecessor retirementCodec tree.root key
    let next ← atOrAfter retirementCodec tree.root key
    let neighbors ← liftResult (classifyNeighbors key previous next)
    applyPage tree key neighbors

end

/-- Calls of `add_page` one after the other, with all the pages they retire. -/
def addPages (txn : Nat) : List Nat → Tree → EStateM Error σ (Tree × List Nat)
  | [], tree => pure (tree, [])
  | pageNumber :: rest, tree => do
    let (tree, retired) ← addPage tree txn pageNumber
    let (tree, later) ← addPages txn rest tree
    pure (tree, retired ++ later)

def retireGenerated (txn : Nat) : List Nat → Tree → EStateM Error σ Tree
  | [], tree => pure tree
  | pageNumber :: rest, tree => do
    let (tree, nested) ← addPage tree txn pageNumber
    if nested ≠ [] then throw (.corrupt "retirement COW path did not become private")
    else retireGenerated txn rest tree

/-- `retire_one` of the draft store, without its work counters. -/
def retireOne (tree : Tree) (pageNumber : Nat) : EStateM Error σ Tree := do
  let txn := Store.targetTxn (← get)
  let (tree, generated) ← addPage tree txn pageNumber
  retireGenerated txn generated tree

def retireEach : List Nat → Tree → EStateM Error σ Tree
  | [], tree => pure tree
  | pageNumber :: rest, tree => do
    let tree ← retireOne tree pageNumber
    retireEach rest tree

end Mutation

end IpRange.Retirement
