import IpRange.RangeMergeCore

/-!
Executable model of the timestamp refreshes: the policies that give first-seen
and last-seen values inside the ordered merge, and the batches in which removed
ranges reach the caller.
-/

namespace IpRange.TimestampRefresh

open RangeMerge

variable {K O ρ σ : Type} [IpKey K]

structure Removal (K : Type) where
  from_ : K
  to_ : K
  firstSeen : UInt32
  addresses : Nat
deriving DecidableEq, Repr

structure RemovalObserver (K O : Type) where
  push : Removal K → O → Except Error O
  finish : O → Except Error O

def noRemovals : RemovalObserver K Unit where
  push _ observer := .ok observer
  finish observer := .ok observer

def removalBatchCapacity : Nat := 64

structure BatchedRemovals (K ρ : Type) where
  sink : ρ
  records : List (Removal K)

namespace BatchedRemovals

variable (removals : List (Removal K) → ρ → Except Error ρ)

def new (sink : ρ) : BatchedRemovals K ρ := { sink, records := [] }

def flush (batched : BatchedRemovals K ρ) : Except Error (BatchedRemovals K ρ) :=
  if batched.records.length = 0 then .ok batched
  else do
    let sink ← removals batched.records batched.sink
    .ok { sink, records := [] }

def push (removal : Removal K) (batched : BatchedRemovals K ρ) :
    Except Error (BatchedRemovals K ρ) :=
  let batched := { batched with records := batched.records ++ [removal] }
  if batched.records.length = removalBatchCapacity then batched.flush removals else .ok batched

def observer : RemovalObserver K (BatchedRemovals K ρ) where
  push := push removals
  finish := flush removals

end BatchedRemovals

structure TimestampCounters where
  inputAddresses : Nat
  comparison : Comparison
deriving DecidableEq, Repr

namespace TimestampCounters

def empty : TimestampCounters := { inputAddresses := 0, comparison := MapComparison.empty }

def addInput (counters : TimestampCounters) (count : Nat) (incoming : Option Unit) :
    Except Error Nat :=
  if incoming.isSome then addCount counters.inputAddresses count else .ok counters.inputAddresses

/-- Also returns how many addresses the interval has. -/
def observe (counters : TimestampCounters) (from_ to_ : K) (old : Option UInt32)
    (incoming : Option Unit) (new : Option UInt32) : Except Error (Nat × TimestampCounters) := do
  let count ← IpKey.inclusiveCardinality from_ to_
  let inputAddresses ← counters.addInput count incoming
  let comparison ← MapComparison.observeCount counters.comparison count old new
  .ok (count, { inputAddresses, comparison })

def finish (counters : TimestampCounters) : Except Error TimestampCounters := do
  let comparison ← MapComparison.finish counters.comparison
  .ok { counters with comparison }

end TimestampCounters

structure FirstSeen (O : Type) where
  counters : TimestampCounters
  removals : O

def firstSeen (refreshValue : UInt32) : Option UInt32 → Option Unit → Option UInt32
  | some value, some () => some value
  | none, some () => some refreshValue
  | _, none => none

def firstSeenPolicy (observer : RemovalObserver K O) (refreshValue : UInt32) :
    Policy K Unit σ (FirstSeen O) where
  preserveWithoutInput := false
  transform old incoming state := pure (firstSeen refreshValue old incoming, state)
  observe from_ to_ old incoming new state := do
    let (addresses, counters) ← state.counters.observe from_ to_ old incoming new
    match old, incoming with
    | some firstSeen, none =>
      let removals ← observer.push { from_, to_, firstSeen, addresses } state.removals
      .ok { counters, removals }
    | _, _ => .ok { state with counters }

def lastSeen (refreshValue cutoff : UInt32) : Option UInt32 → Option Unit → Option UInt32
  | some value, some () => some (max value refreshValue)
  | none, some () => some refreshValue
  | some value, none => if cutoff < value then some value else none
  | none, none => none

def lastSeenPolicy (refreshValue cutoff : UInt32) : Policy K Unit σ TimestampCounters where
  preserveWithoutInput := false
  transform old incoming state := pure (lastSeen refreshValue cutoff old incoming, state)
  observe from_ to_ old incoming new counters :=
    Prod.snd <$> counters.observe from_ to_ old incoming new

structure TimestampMerge (O : Type) where
  rangeRoot : Nat
  rangeRecordCount : Nat
  baseRangeTreeRetired : Bool
  inputIntervals : Nat
  counters : TimestampCounters
  removals : O

def countContext : String := "timestamp input intervals"

variable [MergeStore σ]

/-- `merge_timestamp_family` for a policy that is finished by `finish`. -/
def mergeTimestampFamily {π : Type} (base : Base) (policy : Policy K Unit σ π) (start : π)
    (finish : π → Except Error (TimestampCounters × O)) (coverage : List (Incoming K Unit)) :
    EStateM Error σ (TimestampMerge O) := do
  let (inputIntervals, finished) ← mergeCoverage base policy countContext start coverage
  let (counters, removals) ← liftResult (finish finished.policy)
  pure { rangeRoot := finished.rangeRoot, rangeRecordCount := finished.rangeRecordCount
         baseRangeTreeRetired := finished.baseRangeTreeRetired, inputIntervals, counters, removals }

def FirstSeen.finish (observer : RemovalObserver K O) (policy : FirstSeen O) :
    Except Error (TimestampCounters × O) := do
  let removals ← observer.finish policy.removals
  let counters ← policy.counters.finish
  .ok (counters, removals)

def lastSeenFinish (counters : TimestampCounters) : Except Error (TimestampCounters × Unit) := do
  let counters ← counters.finish
  .ok (counters, ())

def mergeFirstSeenInto (base : Base) (observer : RemovalObserver K O) (refreshValue : UInt32)
    (removals : O) (coverage : List (Incoming K Unit)) : EStateM Error σ (TimestampMerge O) :=
  mergeTimestampFamily base (firstSeenPolicy observer refreshValue)
    { counters := TimestampCounters.empty, removals } (FirstSeen.finish observer) coverage

def mergeFirstSeen (base : Base) (refreshValue : UInt32) (coverage : List (Incoming K Unit)) :
    EStateM Error σ (TimestampMerge Unit) :=
  mergeFirstSeenInto base noRemovals refreshValue () coverage

def mergeFirstSeenWithRemovals (base : Base) (sink : List (Removal K) → ρ → Except Error ρ)
    (refreshValue : UInt32) (start : ρ) (coverage : List (Incoming K Unit)) :
    EStateM Error σ (TimestampMerge (BatchedRemovals K ρ)) :=
  mergeFirstSeenInto base (BatchedRemovals.observer sink) refreshValue (BatchedRemovals.new start)
    coverage

def mergeLastSeen (base : Base) (refreshValue cutoff : UInt32)
    (coverage : List (Incoming K Unit)) : EStateM Error σ (TimestampMerge Unit) :=
  mergeTimestampFamily base (lastSeenPolicy refreshValue cutoff) TimestampCounters.empty
    lastSeenFinish coverage

end IpRange.TimestampRefresh
