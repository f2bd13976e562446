import IpRange.RangeStore
import IpRange.RangeBulkCore

/-!
Executable model of the ordered merge: one sweep over the stored ranges of the
base and an ordered stream of incoming ranges, whose output goes straight into
new pages.
-/

namespace IpRange

class MergeStore (σ : Type) extends RangeStore σ where
  trackMembershipRefcount : UInt32 → Int → EStateM Error σ Unit

structure Selected (σ : Type) where
  store : σ
  txnId : Nat
  pageCount : Nat

instance {σ : Type} [Store σ] : PageSource (Selected σ) where
  selectedTxn := Selected.txnId
  selectedPageLimit := Selected.pageCount
  viewPage selected page :=
    if page < 2 ∨ selected.pageCount ≤ page then
      .error (.corrupt "stored range page is outside its source")
    else Store.inspectPage selected.store page

/-- Runs a reader of the selected generation on the store itself. -/
def Selected.run {σ α : Type} (txnId pageCount : Nat) (program : EStateM Error (Selected σ) α) :
    EStateM Error σ α := fun store =>
  match program { store, txnId, pageCount } with
  | .ok value selected => .ok value selected.store
  | .error error selected => .error error selected.store

namespace RangeMerge

open FixedTree RangeBulk

structure Base where
  txnId : Nat
  pageCount : Nat
  valueKind : ValueKind
  rangeRoot : Nat
  rangeRecordCount : Nat
deriving DecidableEq, Repr

abbrev Incoming (K V : Type) := Span K V

/-- `π` is the state of the policy itself. -/
structure Policy (K V σ π : Type) where
  preserveWithoutInput : Bool
  transform : Option UInt32 → Option V → π → EStateM Error σ (Option UInt32 × π)
  observe : K → K → Option UInt32 → Option V → Option UInt32 → π → Except Error π

structure RefcountRun where
  current : Option (UInt32 × Nat)
deriving DecidableEq, Repr

variable {K V σ π : Type} [IpKey K] [MergeStore σ]

namespace RefcountRun

def flush (run : RefcountRun) (sign : Int) : EStateM Error σ RefcountRun :=
  match run.current with
  | none => pure run
  | some (id, count) =>
    if count < 2 ^ 63 then do
      MergeStore.trackMembershipRefcount id (count * sign)
      pure { current := none }
    else throw (.arithmeticOverflow "membership refcount run")

def add (run : RefcountRun) (id : UInt32) (sign : Int) : EStateM Error σ RefcountRun :=
  match run.current with
  | none => pure { current := some (id, 1) }
  | some (current, count) =>
    if current = id then
      if count + 1 < 2 ^ 64 then pure { current := some (id, count + 1) }
      else throw (.arithmeticOverflow "membership refcount run")
    else do
      let _ ← run.flush sign
      pure { current := some (id, 1) }

/-- Counting is off for values that are not membership ids. -/
def addTo (run : Option RefcountRun) (id : UInt32) (sign : Int) :
    EStateM Error σ (Option RefcountRun) :=
  match run with
  | none => pure none
  | some run => some <$> run.add id sign

def flushAll (run : Option RefcountRun) (sign : Int) : EStateM Error σ (Option RefcountRun) :=
  match run with
  | none => pure none
  | some run => some <$> run.flush sign

def for_ (valueKind : ValueKind) : Option RefcountRun :=
  if valueKind = .membership then some { current := none } else none

end RefcountRun

structure Output (K : Type) where
  builder : Builder K
  pending : Option (Record K)
  refcounts : Option RefcountRun

namespace Output

def new (transaction : Nat) (valueKind : ValueKind) : Output K where
  builder := Builder.new transaction valueKind
  pending := none
  refcounts := RefcountRun.for_ valueKind

def push (output : Output K) (record : Record K) : EStateM Error σ (Output K) := do
  let refcounts ← RefcountRun.addTo output.refcounts record.value 1
  let builder ← output.builder.push record
  pure { output with builder, refcounts }

def emit (output : Output K) (record : Record K) : EStateM Error σ (Output K) :=
  match output.pending with
  | none => pure { output with pending := some record }
  | some pending =>
    if pending.value = record.value ∧ IpKey.checkedNext pending.to_ = some record.from_ then
      pure { output with pending := some { pending with to_ := record.to_ } }
    else do
      let output ← output.push pending
      pure { output with pending := some record }

def finish (output : Output K) : EStateM Error σ (Nat × Nat) :=
  match output.pending with
  | none => do
    let _ ← RefcountRun.flushAll output.refcounts 1
    output.builder.finish
  | some pending => do
    let output ← output.push pending
    let _ ← RefcountRun.flushAll output.refcounts 1
    output.builder.finish

end Output

structure OrderedMerge (K π : Type) where
  oldCursor : Cursor
  old : Option (Record K)
  oldAccounted : Bool
  previousInputEnd : Option K
  output : Output K
  policy : π
  inputSeen : Bool
  oldRefcounts : Option RefcountRun

structure Finished (π : Type) where
  rangeRoot : Nat
  rangeRecordCount : Nat
  baseRangeTreeRetired : Bool
  policy : π

def previous (key : K) (context : String) : Except Error K :=
  match IpKey.checkedPrevious key with
  | some key => .ok key
  | none => .error (.arithmeticOverflow context)

def next (key : K) (context : String) : Except Error K :=
  match IpKey.checkedNext key with
  | some key => .ok key
  | none => .error (.arithmeticOverflow context)

def readNext (base : Base) (cursor : Cursor) : EStateM Error σ (Option (Record K) × Cursor) :=
  Selected.run base.txnId base.pageCount
    (cursor.nextInner (rangeCodec K) Access.shared (readLeafItem (rangeCodec K)) false)

namespace OrderedMerge

def new (base : Base) (policy : π) : EStateM Error σ (OrderedMerge K π) := do
  let cursor ← Selected.run base.txnId base.pageCount
    (Cursor.openAt (rangeCodec K) Access.shared base.rangeRoot .forward)
  let (old, cursor) ← readNext base cursor
  let state ← get
  pure { oldCursor := cursor, old, oldAccounted := false, previousInputEnd := none
         output := Output.new (Store.targetTxn state) base.valueKind, policy, inputSeen := false
         oldRefcounts := RefcountRun.for_ base.valueKind }

def requireInput (merge : OrderedMerge K π) (incoming : Incoming K V) : Except Error Unit :=
  if incoming.to_ < incoming.from_ then .error (.corrupt "ordered merge input range is reversed")
  else if merge.previousInputEnd.any fun previous => decide (incoming.from_ ≤ previous) then
    .error (.corrupt "ordered merge input ranges overlap or are out of order")
  else .ok ()

def accountOld (merge : OrderedMerge K π) (old : Record K) : EStateM Error σ (OrderedMerge K π) :=
  if merge.oldAccounted then pure merge
  else do
    let oldRefcounts ← RefcountRun.addTo merge.oldRefcounts old.value (-1)
    pure { merge with oldRefcounts, oldAccounted := true }

def advanceOld (base : Base) (merge : OrderedMerge K π) : EStateM Error σ (OrderedMerge K π) := do
  let (old, oldCursor) ← readNext base merge.oldCursor
  pure { merge with oldCursor, old, oldAccounted := false }

def place (merge : OrderedMerge K π) (from_ to_ : K) (new : Option UInt32) :
    EStateM Error σ (OrderedMerge K π) :=
  match new with
  | none => pure merge
  | some value => do
    let output ← merge.output.emit { from_, to_, value }
    pure { merge with output }

def emit (policy : Policy K V σ π) (merge : OrderedMerge K π) (from_ to_ : K) (old : Option UInt32)
    (incoming : Option V) : EStateM Error σ (OrderedMerge K π) := do
  let (new, state) ← policy.transform old incoming merge.policy
  let state ← liftResult (policy.observe from_ to_ old incoming new state)
  place { merge with policy := state } from_ to_ new

section

variable (base : Base)

def shortenOld (merge : OrderedMerge K π) (old : Record K) (end_ : K) :
    EStateM Error σ (OrderedMerge K π) :=
  if old.to_ = end_ then advanceOld base merge
  else do
    let from_ ← liftResult (next end_ "ordered merge old remainder")
    pure { merge with old := some { old with from_ } }

/-- One turn of the loop of `push`; what is left of the incoming range, if anything. -/
def pushStep (policy : Policy K V σ π) (merge : OrderedMerge K π)
    (incoming : Incoming K V) : EStateM Error σ (Option (Incoming K V) × OrderedMerge K π) :=
  match merge.old with
  | none => do
    let merge ← merge.emit policy incoming.from_ incoming.to_ none (some incoming.value)
    pure (none, merge)
  | some old =>
    if old.to_ < incoming.from_ then do
      let merge ← merge.accountOld old
      let merge ← merge.emit policy old.from_ old.to_ (some old.value) none
      let merge ← merge.advanceOld base
      pure (some incoming, merge)
    else if incoming.to_ < old.from_ then do
      let merge ← merge.emit policy incoming.from_ incoming.to_ none (some incoming.value)
      pure (none, merge)
    else do
      let merge ← merge.accountOld old
      if old.from_ < incoming.from_ then do
        let end_ ← liftResult (previous incoming.from_ "ordered merge old prefix")
        let merge ← merge.emit policy old.from_ end_ (some old.value) none
        pure (some incoming, { merge with old := some { old with from_ := incoming.from_ } })
      else if incoming.from_ < old.from_ then do
        let end_ ← liftResult (previous old.from_ "ordered merge input prefix")
        let merge ← merge.emit policy incoming.from_ end_ none (some incoming.value)
        pure (some { incoming with from_ := old.from_ }, merge)
      else do
        let end_ := min old.to_ incoming.to_
        let merge ← merge.emit policy old.from_ end_ (some old.value) (some incoming.value)
        let merge ← merge.shortenOld base old end_
        if incoming.to_ = end_ then pure (none, merge)
        else do
          let from_ ← liftResult (next end_ "ordered merge input remainder")
          pure (some { incoming with from_ }, merge)

/-- The loop of `push`. A stored range takes at most three turns of it. -/
def pushLoop (policy : Policy K V σ π) :
    Nat → OrderedMerge K π → Incoming K V → EStateM Error σ (OrderedMerge K π)
  | 0, _, _ => throw (.corrupt "ordered merge lost its old range")
  | turns + 1, merge, incoming => do
    match ← merge.pushStep base policy incoming with
    | (none, merge) => pure merge
    | (some rest, merge) => pushLoop policy turns merge rest

def push (policy : Policy K V σ π) (merge : OrderedMerge K π)
    (incoming : Incoming K V) : EStateM Error σ (OrderedMerge K π) := do
  liftResult (merge.requireInput incoming)
  pushLoop base policy (3 * base.rangeRecordCount + 3)
    { merge with inputSeen := true, previousInputEnd := some incoming.to_ } incoming

/-- The loop of `finish` over the stored ranges that are left. -/
def drainOld (policy : Policy K V σ π) :
    Nat → OrderedMerge K π → EStateM Error σ (OrderedMerge K π)
  | 0, _ => throw (.corrupt "ordered merge lost its old range")
  | turns + 1, merge =>
    match merge.old with
    | none => pure merge
    | some old => do
      let merge ← merge.accountOld old
      let merge ← merge.emit policy old.from_ old.to_ (some old.value) none
      let merge ← merge.advanceOld base
      drainOld policy turns merge

/-- The loop of `finish_preserved`. -/
def observeOld (policy : Policy K V σ π) :
    Nat → OrderedMerge K π → EStateM Error σ (OrderedMerge K π)
  | 0, _ => throw (.corrupt "ordered merge lost its old range")
  | turns + 1, merge =>
    match merge.old with
    | none => pure merge
    | some old => do
      let state ← liftResult
        (policy.observe old.from_ old.to_ (some old.value) none (some old.value) merge.policy)
      let merge ← advanceOld base { merge with policy := state }
      observeOld policy turns merge

def finishPreserved (policy : Policy K V σ π) (merge : OrderedMerge K π) :
    EStateM Error σ (Finished π) := do
  let merge ← merge.observeOld base policy (base.rangeRecordCount + 1)
  pure { rangeRoot := base.rangeRoot, rangeRecordCount := base.rangeRecordCount
         baseRangeTreeRetired := false, policy := merge.policy }

def finishRebuilt (policy : Policy K V σ π) (merge : OrderedMerge K π) :
    EStateM Error σ (Finished π) := do
  let merge ← merge.drainOld base policy (base.rangeRecordCount + 1)
  let _ ← RefcountRun.flushAll merge.oldRefcounts (-1)
  let (rangeRoot, rangeRecordCount) ← merge.output.finish
  retireTree (rangeCodec K) base.rangeRoot
  pure { rangeRoot, rangeRecordCount, baseRangeTreeRetired := true, policy := merge.policy }

def finish (policy : Policy K V σ π) (merge : OrderedMerge K π) : EStateM Error σ (Finished π) :=
  if !merge.inputSeen && policy.preserveWithoutInput then merge.finishPreserved base policy
  else merge.finishRebuilt base policy

def pushAll (policy : Policy K V σ π) (merge : OrderedMerge K π) :
    List (Incoming K V) → EStateM Error σ (OrderedMerge K π)
  | [] => pure merge
  | incoming :: rest => do
    let merge ← merge.push base policy incoming
    pushAll policy merge rest

end

end OrderedMerge

def merge (base : Base) (policy : Policy K V σ π) (start : π) (incoming : List (Incoming K V)) :
    EStateM Error σ (Finished π) := do
  let state ← OrderedMerge.new base start
  let state ← state.pushAll base policy incoming
  state.finish base policy

def pushCoverage (base : Base) (policy : Policy K Unit σ π) (countContext : String) :
    OrderedMerge K π → Nat → List (Incoming K Unit) → EStateM Error σ (Nat × OrderedMerge K π)
  | merge, inputIntervals, [] => pure (inputIntervals, merge)
  | merge, inputIntervals, incoming :: rest =>
    if inputIntervals + 1 < 2 ^ 64 then do
      let merge ← merge.push base policy incoming
      pushCoverage base policy countContext merge (inputIntervals + 1) rest
    else throw (.arithmeticOverflow countContext)

def mergeCoverage (base : Base) (policy : Policy K Unit σ π) (countContext : String) (start : π)
    (coverage : List (Incoming K Unit)) : EStateM Error σ (Nat × Finished π) := do
  let merge ← OrderedMerge.new base start
  let (inputIntervals, merge) ← pushCoverage base policy countContext merge 0 coverage
  let finished ← merge.finish base policy
  pure (inputIntervals, finished)

/-- Address counts by what became of an address; every sum is a `Cardinality129`. -/
structure Comparison where
  before : Nat
  after : Nat
  unchanged : Nat
  changed : Nat
  added : Nat
  removed : Nat
deriving DecidableEq, Repr

def addCount (left right : Nat) : Except Error Nat :=
  if left + right < 2 ^ 129 then .ok (left + right)
  else .error (.arithmeticOverflow "ordered merge address count")

namespace MapComparison

def empty : Comparison := ⟨0, 0, 0, 0, 0, 0⟩

def observePresence (value : Comparison) (count : Nat) (old new : Option UInt32) :
    Except Error Comparison := do
  let before ← if old.isSome then addCount value.before count else .ok value.before
  let after ← if new.isSome then addCount value.after count else .ok value.after
  .ok { value with before, after }

def observeCount (value : Comparison) (count : Nat) (old new : Option UInt32) :
    Except Error Comparison := do
  let value ← observePresence value count old new
  match old, new with
  | some left, some right =>
    if left = right then return { value with unchanged := ← addCount value.unchanged count }
    else return { value with changed := ← addCount value.changed count }
  | some _, none => return { value with removed := ← addCount value.removed count }
  | none, some _ => return { value with added := ← addCount value.added count }
  | none, none => return value

def observe (value : Comparison) (from_ to_ : K) (old new : Option UInt32) :
    Except Error Comparison := do
  observeCount value (← IpKey.inclusiveCardinality from_ to_) old new

def finish (value : Comparison) : Except Error Comparison := do
  let before ← addCount (← addCount value.unchanged value.changed) value.removed
  let after ← addCount (← addCount value.unchanged value.changed) value.added
  if before ≠ value.before ∨ after ≠ value.after then
    .error (.corrupt "ordered merge counters do not balance")
  else .ok value

end MapComparison

end RangeMerge

end IpRange
