import Mathlib.Data.Prod.Lex
import Mathlib.Data.List.Lex
import IpRange.FixedTreeQuery
import IpRange.RangeTree
import IpRange.RetiringStore

/-!
Feed names, the records of the feed catalog and its two trees: one ordered by
name, one by feed index, both storing the same records.
-/

namespace IpRange

open SlottedPage

abbrev FeedIndex := Fin (2 ^ 32)

def maxFeedName : Nat := 255

def alphanumeric (byte : UInt8) : Bool :=
  (97 ≤ byte && byte ≤ 122) || (48 ≤ byte && byte ≤ 57)

def allowed (byte : UInt8) : Bool :=
  alphanumeric byte || byte == 95 || byte == 45 || byte == 46

/-- The `valid` of feed.rs. -/
def validName : Bytes → Bool
  | [] => false
  | first :: rest =>
    if maxFeedName < rest.length + 1 || !alphanumeric first then false
    else
      match rest.getLast? with
      | none => true
      | some last => alphanumeric last && rest.dropLast.all allowed

/-- One validated feed name. The source keeps its bytes in an array padded with zeros. -/
structure FeedName where
  asBytes : Bytes
  valid : validName asBytes = true
deriving DecidableEq

namespace FeedName

/-- What the derived order of the source compares: the padded array, then the length. -/
def fields (name : FeedName) : List Nat ×ₗ Nat :=
  toLex ((name.asBytes ++ List.replicate (maxFeedName - name.asBytes.length) 0).map UInt8.toNat,
    name.asBytes.length)

theorem fields_injective : Function.Injective fields := by
  intro left right same
  obtain ⟨padded, length⟩ := Prod.ext_iff.mp (toLex.injective same)
  have bytes := List.map_injective_iff.mpr (fun _ _ => UInt8.toNat_inj.mp) padded
  obtain ⟨leftBytes, _⟩ := left
  obtain ⟨rightBytes, _⟩ := right
  congr
  exact (List.append_inj bytes length).1

instance : LinearOrder FeedName where
  __ := LinearOrder.lift' fields fields_injective
  toDecidableEq := instDecidableEqFeedName
  compare_eq_compareOfLessAndEq left right := by
    rw [LinearOrder.compare_eq_compareOfLessAndEq]
    congr

def fromStored (name : Bytes) : Option FeedName :=
  if valid : validName name = true then some ⟨name, valid⟩ else none

/-- `from_source`: the name in `len` bytes from `start`. The source checks the first and the
last byte before the others, which comes to the same grammar. -/
def fromSource (source : Bytes) (start len : Nat) : Option FeedName :=
  if len = 0 || maxFeedName < len || source.length < start + len then none
  else fromStored ((source.drop start).take len)

end FeedName

structure FeedEntry where
  name : FeedName
  index : FeedIndex
deriving DecidableEq

namespace FeedCatalog

def nameRecordBase : Nat := 12
def minNameRecord : Nat := nameRecordBase + 1
def maxNameRecord : Nat := nameRecordBase + maxFeedName

/-- The bytes `encode` leaves in its buffer, which every caller makes large enough. -/
def encode (name : FeedName) (value : Nat) : Bytes :=
  toLeBytes 2 (nameRecordBase + name.asBytes.length) ++ [0, 0] ++ toLeBytes 4 value ++
    [UInt8.ofNat name.asBytes.length, 0, 0, 0] ++ name.asBytes

def decodeEntry (record : Bytes) : Except Error FeedEntry :=
  match record[8]? with
  | none => .error (.corrupt "feed catalog record is malformed")
  | some nameLen =>
    if leField record 0 2 ≠ nameRecordBase + nameLen.toNat || leField record 2 2 ≠ 0 ||
        (record.drop 9).take 3 ≠ [0, 0, 0] then
      .error (.corrupt "feed catalog record is malformed")
    else
      match FeedName.fromSource record nameRecordBase nameLen.toNat with
      | none => .error (.corrupt "feed catalog name is invalid")
      | some name => .ok { name, index := Fin.ofNat _ (leField record 4 4) }

def nameCodec : Codec FeedName FeedEntry where
  branchType := 3
  leafType := 4
  aux := 0
  keySize := 0
  leafSize := 0
  maxBranchSize := maxNameRecord
  maxLeafSize := maxNameRecord
  leafLayout := .varying minNameRecord maxNameRecord
  branchLayout := .varying minNameRecord maxNameRecord
  readKey cell _ := FeedEntry.name <$> decodeEntry cell
  readLeaf := decodeEntry
  writeBranch key child := .ok (encode key child)
  readBranchChild cell := (fun entry => entry.index.val) <$> decodeEntry cell

def indexCodec : Codec FeedIndex FeedEntry where
  branchType := 5
  leafType := 6
  aux := 0
  keySize := 4
  leafSize := 0
  maxBranchSize := 8
  maxLeafSize := maxNameRecord
  leafLayout := .varying minNameRecord maxNameRecord
  branchLayout := .fixed 8
  readKey cell level := .ok (Fin.ofNat _ (leField cell (if level = 0 then 4 else 0) 4))
  readLeaf := decodeEntry
  writeBranch := writeFixedBranch fun key => toLeBytes 4 key.val
  readBranchChild := readFixedChild 4

structure Roots where
  name : Nat
  index : Nat
deriving DecidableEq, Repr

section Mutation

variable {σ : Type} [RetiringStore σ]

open FixedTree (insertRetiring deleteRetiring)

def rename (roots : Roots) (old : FeedEntry) (newName : FeedName) : EStateM Error σ Roots := do
  let name ← deleteRetiring nameCodec roots.name old.name
  let renamed : FeedEntry := { name := newName, index := old.index }
  let record := encode renamed.name renamed.index
  let (added, name) ← insertRetiring nameCodec name record
  if !added then throw (.corrupt "renamed feed name already exists")
  let (added, index) ← insertRetiring indexCodec roots.index record
  if added then throw (.corrupt "renamed feed index was missing")
  pure { name, index }

end Mutation

def decodeLeaf (layout : CellLayout) (feedIndexLimit : Nat) (page : Page) (header : Header)
    (position : Nat) : Except Error FeedEntry := do
  let entry ← decodeEntry (← layoutCell layout page header position)
  if feedIndexLimit ≤ entry.index.val then
    .error (.corrupt "feed index is outside the declared limit")
  else .ok entry

/-- `FeedLookup`. -/
def inspectFeed (feedIndexLimit : Nat) (page : Page) (header : Header) (_pageNumber position : Nat)
    (exact_ : Bool) : Except Error (Option FeedEntry) :=
  if !exact_ then .ok none
  else some <$> decodeLeaf nameCodec.leafLayout feedIndexLimit page header position

def lookup {σ : Type} [PageSource σ] (state : σ) (roots : Roots) (feedIndexLimit : Nat)
    (name : FeedName) : Except Error (Option FeedEntry) :=
  FixedTree.query nameCodec state name (inspectFeed feedIndexLimit) roots.name

structure Draft (σ : Type) where
  store : σ
  roots : Roots
  feedIndexLimit : Nat
  changed : Bool

section Draft

variable {σ α : Type} [RetiringStore σ]

def onStore : EStateM Error σ α → EStateM Error (Draft σ) α :=
  onPart Draft.store fun draft store => { draft with store }

def renameCurrentFeedKnownAvailable (entry : FeedEntry) (new : FeedName) :
    EStateM Error (Draft σ) FeedEntry := do
  let draft ← get
  let roots ← onStore (rename draft.roots entry new)
  modify fun draft => { draft with roots, changed := true }
  pure { name := new, index := entry.index }

def renameCurrentFeed (entry : FeedEntry) (new : FeedName) : EStateM Error (Draft σ) FeedEntry := do
  let draft ← get
  let found ← liftResult (lookup draft.store draft.roots draft.feedIndexLimit new)
  if found.isSome then throw .nameExists
  renameCurrentFeedKnownAvailable entry new

end Draft

end FeedCatalog

end IpRange
