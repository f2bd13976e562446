import IpRange.RangeMutation
import IpRange.WorkspaceRanges

/-!
Sequences of assignments and clears on one range map, against the partial
function from addresses to values that the map stands for.
-/

namespace IpRange.RangeMutation

open FixedTree

variable {K σ : Type} [IpKey K]

inductive RangeCall (K : Type) where
  | assign (from_ to_ : K) (value : UInt32)
  | clear (from_ to_ : K)
deriving DecidableEq, Repr

def perform [RangeStore σ] (map : RangeRoot) : RangeCall K → EStateM Error σ (Bool × RangeRoot)
  | .assign from_ to_ value => assign map from_ to_ value
  | .clear from_ to_ => clear map from_ to_

def performAll [RangeStore σ] (map : RangeRoot) :
    List (RangeCall K) → EStateM Error σ (List Bool × RangeRoot)
  | [] => pure ([], map)
  | call :: rest => do
    let (changed, next) ← perform map call
    let (flags, last) ← performAll next rest
    pure (changed :: flags, last)

def RangeCall.update : RangeCall K → (K → Option UInt32) → K → Option UInt32
  | .assign from_ to_ value => updateRange from_ to_ (some value)
  | .clear from_ to_ => updateRange from_ to_ none

def RangeCall.Reversed : RangeCall K → Prop
  | .assign from_ to_ _ => to_ < from_
  | .clear from_ to_ => to_ < from_

def updateAll (calls : List (RangeCall K)) (function : K → Option UInt32) : K → Option UInt32 :=
  calls.foldl (fun function call => call.update function) function

def FlagsChanges : List (RangeCall K) → List Bool → (K → Option UInt32) → Prop
  | [], [], _ => True
  | call :: calls, flag :: flags, function =>
    (flag = true ↔ call.update function ≠ function) ∧ FlagsChanges calls flags (call.update function)
  | _, _, _ => False

section Refinement

variable [LawfulIpKey K] [RangeStore σ] (laws : RangeLaws σ) {frame : Heap} {base : UInt32 → Int}
  {map : RangeRoot} {state : σ} {records : List (Record K)}

def CallsFail (calls : List (RangeCall K)) (error : Error) (state : σ) : Prop :=
  RangeFails laws error state ∨ (∃ call ∈ calls, call.Reversed) ∧
    error = .invalidArgument "range start is after its end"

theorem replace_or_refuse (mapAt : MapAt laws frame base map records state) (from_ to_ : K)
    (value : Option UInt32) :
    Ensures (replace map from_ to_ value) state
      (fun result reached => ∃ last, MapAt laws frame base result.2 last reached ∧
        valueAt last = updateRange from_ to_ value (valueAt records) ∧
        (result.1 = true ↔ valueAt last ≠ valueAt records))
      (fun error reached => RangeFails laws error reached ∨
        to_ < from_ ∧ error = .invalidArgument "range start is after its end") := by
  by_cases reversed : to_ < from_
  · rw [replace, if_pos reversed, ensures_throw]
    exact Or.inr ⟨reversed, rfl⟩
  · exact (replace_spec mapAt (not_lt.mp reversed) value).impOr fun _ _ post => post

theorem perform_spec (call : RangeCall K) (mapAt : MapAt laws frame base map records state) :
    Ensures (perform map call) state
      (fun result reached => ∃ last, MapAt laws frame base result.2 last reached ∧
        valueAt last = call.update (valueAt records) ∧
        (result.1 = true ↔ valueAt last ≠ valueAt records))
      (fun error reached => RangeFails laws error reached ∨
        call.Reversed ∧ error = .invalidArgument "range start is after its end") := by
  cases call with
  | assign from_ to_ value => exact replace_or_refuse laws mapAt from_ to_ (some value)
  | clear from_ to_ => exact replace_or_refuse laws mapAt from_ to_ none

theorem performAll_spec (calls : List (RangeCall K))
    (mapAt : MapAt laws frame base map records state) :
    Ensures (performAll map calls) state
      (fun result reached => ∃ last, MapAt laws frame base result.2 last reached ∧
        valueAt last = updateAll calls (valueAt records) ∧
        FlagsChanges calls result.1 (valueAt records))
      (CallsFail laws calls) := by
  induction calls generalizing map records state with
  | nil =>
    rw [performAll, ensures_pure]
    exact ⟨records, mapAt, rfl, trivial⟩
  | cons call rest ih =>
    rw [performAll, ensures_bind]
    refine (perform_spec laws call mapAt).mono ?_ fun _ _ failed =>
      failed.imp_right fun cause => ⟨⟨call, by simp, cause.1⟩, cause.2⟩
    rintro ⟨changed, next⟩ reached ⟨middle, middleAt, updated, flagged⟩
    rw [ensures_bind]
    refine (ih middleAt).mono ?_ fun _ _ failed => failed.imp_right fun
      ⟨⟨other, member, reversed⟩, isError⟩ => ⟨⟨other, by simp [member], reversed⟩, isError⟩
    rintro ⟨flags, top⟩ done ⟨last, lastAt, finished, others⟩
    rw [ensures_pure]
    rw [updated] at flagged finished others
    exact ⟨last, lastAt, finished, flagged, others⟩

/-- Any sequence of assignments and clears on a canonical map leaves a canonical map of
the updated function, with an exact record count, exact changed flags and callbacks
that add up to the change in the number of records of each value. -/
theorem range_calls_update_pointwise (calls : List (RangeCall K))
    (mapAt : MapAt laws frame base map records state) :
    Ensures (performAll map calls) state
      (fun result reached => ∃ last : List (Record K),
        Stands laws (rangeCodec K) frame result.2.root (recordItems last) (laws.tally reached) reached ∧
        Canonical last ∧ valueAt last = updateAll calls (valueAt records) ∧
        result.2.recordCount = last.length ∧ FlagsChanges calls result.1 (valueAt records) ∧
        ∀ value, laws.tally reached value - laws.tally state value =
          holding last value - holding records value)
      (CallsFail laws calls) := by
  refine (performAll_spec laws calls mapAt).imp ?_
  rintro result reached ⟨last, lastAt, updated, flags⟩
  have after := lastAt.stands.tally
  refine ⟨last, after ▸ lastAt.stands, lastAt.canonical, updated, lastAt.counted, flags, ?_⟩
  intro value
  rw [after, mapAt.stands.tally, ledger, ledger]
  omega

end Refinement

def sampleRecord : Record Ipv4Key := { from_ := ⟨10⟩, to_ := ⟨20⟩, value := 1 }

def sampleEntry : Entry (rangeCodec Ipv4Key) := sampleRecord.entry (by decide)

def sampleHeap : Heap := fun address =>
  if address = 2 then some (treePage (rangeCodec Ipv4Key) 7 0 [sampleEntry.cell]) else none

def sampleState : Logged Workspace where
  store :=
    { mapping := fun address => (sampleHeap address).getD default, first := 2, limit := 64, next := 3,
      free := 0, txn := 7 }
  tally _ := 0
  retired := []

def sampleCalls : List (RangeCall Ipv4Key) :=
  [.assign ⟨13⟩ ⟨15⟩ 5, .clear ⟨14⟩ ⟨14⟩, .assign ⟨0⟩ ⟨255⟩ 1, .assign ⟨5⟩ ⟨6⟩ 1]

theorem sample_owned : (Workspace.draftLaws 7 (by decide) (by decide)).Owns sampleState sampleHeap := by
  refine Workspace.Holds.of_heap (by decide) (by decide) (by decide) fun address page stored => ?_
  obtain ⟨rfl, -⟩ := Option.ite_none_right_eq_some.mp stored
  decide

theorem sample_mapAt : MapAt (Workspace.draftLaws 7 (by decide) (by decide)) (fun _ => none)
    (fun value => if value = 1 then -1 else 0) ⟨2, 1⟩ [sampleRecord] sampleState := by
  refine ⟨⟨?_, sampleHeap, [sampleEntry], [2], sample_owned, ⟨?_, by decide, by decide⟩, rfl, ?_⟩, rfl,
    List.pairwise_singleton _ _, by decide⟩
  · funext value
    by_cases one : value = 1
    · subst one
      rfl
    · have other : sampleRecord.value ≠ value := Ne.symm one
      simp [ledger, holding, one, other]
      rfl
  · refine Or.inr ⟨0, leafNode 2 [sampleEntry] (by decide), by decide, ⟨rfl, 7, ?_⟩, rfl, rfl, rfl⟩
    exact ⟨by decide, by decide, ⟨by decide, by decide, by decide⟩, rfl⟩
  · intro address
    by_cases two : address = 2
    · simp [two]
    · simp [two, sampleHeap]

theorem range_calls_update_pointwise_sample : ∃ flags map reached,
    performAll ⟨2, 1⟩ sampleCalls sampleState = .ok (flags, map) reached ∧
      flags = [true, true, true, false] ∧ map.recordCount = 1 ∧ ∃ last : List (Record Ipv4Key),
        Canonical last ∧ valueAt last = updateAll sampleCalls (valueAt [sampleRecord]) ∧
        last.length = 1 ∧ ∀ value, reached.tally value - sampleState.tally value =
          holding last value - holding [sampleRecord] value := by
  have spec := range_calls_update_pointwise _ sampleCalls sample_mapAt
  have run : observed (fun result _ => (result.1, result.2.recordCount))
      (performAll ⟨2, 1⟩ sampleCalls sampleState) = some ([true, true, true, false], 1) := by
    decide +kernel
  obtain ⟨⟨flags, map⟩, reached, outcome, sight⟩ := exists_ok_of_observed run
  simp only [Prod.mk.injEq] at sight
  obtain ⟨flagged, counted⟩ := sight
  obtain ⟨last, _, canonical, updated, length, _, sums⟩ := spec.ok outcome
  exact ⟨flags, map, reached, outcome, flagged, counted, last, canonical, updated,
    length.symm.trans counted, sums⟩

end IpRange.RangeMutation
