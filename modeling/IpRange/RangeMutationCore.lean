import IpRange.RangeStore

/-!
Executable model of range assignment over the copy-on-write tree: trimming what
a new range overlaps, splitting a record around it, coalescing equal neighbours,
and the transformation of a range segment by segment.
-/

namespace IpRange

structure RangeRoot where
  root : Nat
  recordCount : Nat
deriving DecidableEq, Repr

namespace RangeMutation

open FixedTree

variable {K σ : Type} [IpKey K] [RangeStore σ]

def checkedAdd (count more : Nat) : Except Error Nat :=
  if count + more < 2 ^ 64 then .ok (count + more)
  else .error (.arithmeticOverflow "range record count")

def checkedSub (count fewer : Nat) : Except Error Nat :=
  if fewer ≤ count then .ok (count - fewer)
  else .error (.arithmeticOverflow "range record count")

/-- `Option::expect`; the failure stands for the panic. -/
def expect {α : Type} (value : Option α) (message : String) : Except Error α :=
  match value with
  | some value => .ok value
  | none => .error (.corrupt message)

section

variable (map : RangeRoot)

def readPredecessor (key : K) : EStateM Error σ (Option (Record K)) :=
  predecessor (rangeCodec K) map.root key

def readAtOrAfter (key : K) : EStateM Error σ (Option (Record K)) :=
  atOrAfter (rangeCodec K) map.root key

def insert (range : Record K) : EStateM Error σ RangeRoot := do
  let encoded ← liftResult (encodeRecord range)
  let (inserted, root) ← insertRetiring (rangeCodec K) map.root encoded
  if inserted then do
    let recordCount ← liftResult (checkedAdd map.recordCount 1)
    RangeStore.rangeRecordAdded range.value
    pure { root, recordCount }
  else pure { map with root }

def remove (range : Record K) : EStateM Error σ RangeRoot := do
  let root ← deleteRetiring (rangeCodec K) map.root range.from_
  let recordCount ← liftResult (checkedSub map.recordCount 1)
  RangeStore.rangeRecordRemoved range.value
  pure { root, recordCount }

def mergePrevious (range : Record K) : EStateM Error σ (RangeRoot × Record K) := do
  match ← readPredecessor map range.from_ with
  | none => pure (map, range)
  | some previous =>
    if previous.value = range.value ∧ IpKey.checkedNext previous.to_ = some range.from_ then do
      let map ← remove map previous
      pure (map, { range with from_ := previous.from_ })
    else pure (map, range)

def mergeNext (range : Record K) : EStateM Error σ (RangeRoot × Record K) := do
  match ← readAtOrAfter map range.from_ with
  | none => pure (map, range)
  | some next =>
    if next.value = range.value ∧ IpKey.checkedNext range.to_ = some next.from_ then do
      let map ← remove map next
      pure (map, { range with to_ := next.to_ })
    else pure (map, range)

def insertCoalesced (range : Record K) : EStateM Error σ RangeRoot := do
  let (map, range) ← mergePrevious map range
  let (map, range) ← mergeNext map range
  insert map range

end

structure Rewrite (K : Type) where
  left : Option (Record K)
  right : Option (Record K)
  changed : Bool

def leftPart (old : Record K) (from_ : K) : Except Error (Record K) := do
  let last ← expect (IpKey.checkedPrevious from_) "from is above old.from"
  .ok { from_ := old.from_, to_ := last, value := old.value }

def rightPart (old : Record K) (to_ : K) : Except Error (Record K) := do
  let first ← expect (IpKey.checkedNext to_) "to is below old.to"
  .ok { from_ := first, to_ := old.to_, value := old.value }

def trimLeft (old : Record K) (from_ : K) : Except Error (Option (Record K)) :=
  if old.from_ < from_ then some <$> leftPart old from_ else .ok none

def trimRight (old : Record K) (to_ : K) : Except Error (Option (Record K)) :=
  if to_ < old.to_ then some <$> rightPart old to_ else .ok none

def trimPredecessor (map : RangeRoot) (predecessor : Option (Record K)) (from_ to_ : K) :
    EStateM Error σ (RangeRoot × Rewrite K) :=
  match predecessor.filter fun old => decide (from_ ≤ old.to_) with
  | none => pure (map, { left := none, right := none, changed := false })
  | some old => do
    let map ← remove map old
    let left ← liftResult (trimLeft old from_)
    let right ← liftResult (trimRight old to_)
    pure (map, { left, right, changed := true })

/-- The loop of `trim_following`. Every turn but the last removes a record, so the
record count bounds it; the error stands for a loop that goes on. -/
def trimFollowing (from_ to_ : K) :
    Nat → RangeRoot → Rewrite K → EStateM Error σ (RangeRoot × Rewrite K)
  | 0, _, _ => throw (.corrupt "range trimming does not end")
  | turns + 1, map, rewrite => do
    match ← readAtOrAfter map from_ with
    | none => pure (map, rewrite)
    | some old =>
      if to_ < old.from_ then pure (map, rewrite)
      else do
        let map ← remove map old
        if to_ < old.to_ then do
          let right ← liftResult (rightPart old to_)
          pure (map, { rewrite with right := some right, changed := true })
        else trimFollowing from_ to_ turns map { rewrite with changed := true }

section

variable (map : RangeRoot)

def insertPending : Option (Record K) → EStateM Error σ RangeRoot
  | none => pure map
  | some range => insertCoalesced map range

def writeReplacement (from_ to_ : K) (value : Option UInt32)
    (rewrite : Rewrite K) : EStateM Error σ (Bool × RangeRoot) := do
  let map ← insertPending map rewrite.left
  let map ← insertPending map (value.map fun value => { from_, to_, value })
  let map ← insertPending map rewrite.right
  pure (rewrite.changed || value.isSome, map)

def replaceStrictlyInside (old : Record K) (from_ to_ : K)
    (value : Option UInt32) : EStateM Error σ (Bool × RangeRoot) := do
  let left ← liftResult (leftPart old from_ >>= encodeRecord)
  let right ← liftResult (rightPart old to_ >>= encodeRecord)
  let middle ← liftResult (value.mapM fun value => encodeRecord { from_, to_, value })
  let replaced ← replaceLeafWith (rangeCodec K) map.root old.from_
    ([left] ++ middle.toList ++ [right]) []
  RetiringStore.retirePages replaced.retired
  let recordCount ← liftResult (checkedAdd map.recordCount (if middle.isSome then 2 else 1))
  RangeStore.rangeRecordAdded (value.getD old.value)
  if middle.isSome then do
    RangeStore.rangeRecordAdded old.value
    pure (true, { root := replaced.root, recordCount })
  else pure (true, { root := replaced.root, recordCount })

def replace (from_ to_ : K) (value : Option UInt32) : EStateM Error σ (Bool × RangeRoot) :=
  if to_ < from_ then throw (.invalidArgument "range start is after its end")
  else do
    let predecessor ← readPredecessor map from_
    if value.isSome && predecessor.any fun old =>
        decide (to_ ≤ old.to_) && decide (value = some old.value) then pure (false, map)
    else
      match predecessor.filter fun old => decide (old.from_ < from_ ∧ to_ < old.to_) with
      | some old => replaceStrictlyInside map old from_ to_ value
      | none => do
        let (map, rewrite) ← trimPredecessor map predecessor from_ to_
        let (map, rewrite) ← trimFollowing from_ to_ (map.recordCount + 1) map rewrite
        writeReplacement map from_ to_ value rewrite

def assign (from_ to_ : K) (value : UInt32) : EStateM Error σ (Bool × RangeRoot) :=
  replace map from_ to_ (some value)

def clear (from_ to_ : K) : EStateM Error σ (Bool × RangeRoot) :=
  replace map from_ to_ none

structure Segment (K : Type) where
  to_ : K
  value : Option UInt32

def gapAt (from_ to_ : K) : EStateM Error σ (Segment K) := do
  match ← readAtOrAfter map from_ with
  | none => pure { to_, value := none }
  | some next =>
    if next.from_ ≤ to_ then
      match IpKey.checkedPrevious next.from_ with
      | none => throw (.corrupt "range gap does not advance")
      | some last => pure { to_ := last, value := none }
    else pure { to_, value := none }

def segmentAt (from_ to_ : K) : EStateM Error σ (Segment K) := do
  match ← readPredecessor map from_ with
  | none => gapAt map from_ to_
  | some range =>
    if from_ ≤ range.to_ then pure { to_ := min range.to_ to_, value := some range.value }
    else gapAt map from_ to_

def applyValue (cursor : K) (segment : Segment K) (value : Option UInt32)
    (changed : Bool) : EStateM Error σ (Bool × RangeRoot) :=
  if value ≠ segment.value then do
    let (_, map) ← replace map cursor segment.to_ value
    pure (true, map)
  else pure (changed, map)

end

section Transform

variable {μ : Type} (operation : μ → Option UInt32 → EStateM Error σ (Option UInt32 × μ)) (to_ : K)

/-- The loop of `transform`, with what the closure captured. Each turn passes a stretch of one
value: at most two for each record and one besides. -/
def transformFrom : Nat → RangeRoot → K → Bool → μ → EStateM Error σ (Bool × RangeRoot × μ)
  | 0, _, _, _, _ => throw (.arithmeticOverflow "membership range cursor")
  | turns + 1, map, cursor, changed, captured => do
    let segment ← segmentAt map cursor to_
    let (value, captured) ← operation captured segment.value
    let (changed, map) ← applyValue map cursor segment value changed
    if segment.to_ = to_ then pure (changed, map, captured)
    else
      match IpKey.checkedNext segment.to_ with
      | none => throw (.arithmeticOverflow "membership range cursor")
      | some cursor => transformFrom turns map cursor changed captured

def transform (map : RangeRoot) (from_ : K) (captured : μ) :
    EStateM Error σ (Bool × RangeRoot × μ) :=
  if to_ < from_ then throw (.invalidArgument "range start is after its end")
  else transformFrom operation to_ (2 * map.recordCount + 1) map from_ false captured

end Transform

end RangeMutation

end IpRange
