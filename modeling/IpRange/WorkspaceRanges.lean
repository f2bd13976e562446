import IpRange.RangeStore
import IpRange.Workspace

/-!
The workspace as a store of range maps that notes what its client reports: the
callbacks of a range mutation, summed up, and the pages it retires.
-/

namespace IpRange

structure Logged (σ : Type) where
  store : σ
  tally : UInt32 → Int
  retired : List Nat

namespace Logged

variable {σ α : Type}

def lift : EStateM Error σ α → EStateM Error (Logged σ) α :=
  onPart store fun state store => { state with store }

def count (value : UInt32) (step : Int) : EStateM Error (Logged σ) Unit :=
  modify fun state =>
    { state with tally := Function.update state.tally value (state.tally value + step) }

variable [Store σ]

instance : Store (Logged σ) where
  targetTxn state := Store.targetTxn state.store
  pageLimit state := Store.pageLimit state.store
  inspectPage state := Store.inspectPage state.store
  allocate := lift Store.allocate
  updatePage page program := lift (Store.updatePage page program)
  copyPage source destination program := lift (Store.copyPage source destination program)
  discardPrivate page := lift (Store.discardPrivate page)

instance : RangeStore (Logged σ) where
  retirePages pages := modify fun state => { state with retired := state.retired ++ pages }
  rangeRecordAdded value := count value 1
  rangeRecordRemoved value := count value (-1)

variable {program : EStateM Error σ α} {state : Logged σ}

omit [Store σ] in
theorem lift_tally {reached : Logged σ} {value : α} (run : lift program state = .ok value reached) :
    reached.tally = state.tally := by
  unfold lift onPart at run
  split at run
  · cases run
    rfl
  · cases run

def storeLaws (laws : StoreLaws σ) : StoreLaws (Logged σ) where
  txn := laws.txn
  txnPositive := laws.txnPositive
  txnWord := laws.txnWord
  Owns state := laws.Owns state.store
  Fails error state := laws.Fails error state.store
  Writable := laws.Writable
  writable := laws.writable
  target owns := laws.target owns
  limit owns := laws.limit owns
  bounds owns := laws.bounds owns
  reserved owns := laws.reserved owns
  inspect owns := laws.inspect owns
  allocate owns := ensures_onPart.mpr (laws.allocate owns)
  update owns held writable run owned := ensures_onPart.mpr (laws.update owns held writable run owned)
  copy owns read held different writable run owned :=
    ensures_onPart.mpr (laws.copy owns read held different writable run owned)
  discard owns held owned := ensures_onPart.mpr (laws.discard owns held owned)

theorem preserves_tally (total : UInt32 → Int) :
    Preserves fun state : Logged σ => state.tally = total where
  allocate same run := (lift_tally run).trans same
  update same run := (lift_tally run).trans same
  copy same run := (lift_tally run).trans same
  discard same run := (lift_tally run).trans same

end Logged

namespace Workspace

theorem Holds.forget {txn : Nat} {workspace : Workspace} {heap fewer : Heap}
    (holds : Holds txn workspace heap)
    (part : ∀ address page, fewer address = some page → heap address = some page) :
    Holds txn workspace fewer := by
  obtain ⟨stack, nodup, stacked, outside⟩ := holds.stacked
  refine ⟨holds.txn_, holds.low, holds.ordered, holds.word, holds.fresh,
    fun address page stored => holds.held address page (part address page stored),
    stack, nodup, stacked, fun page member => ?_⟩
  obtain ⟨low, high, unused⟩ := outside page member
  refine ⟨low, high, Option.eq_none_iff_forall_ne_some.mpr fun content stored => ?_⟩
  rw [part page content stored] at unused
  cases unused

def draftLaws (txn : Nat) (positive : 0 < txn) (word : txn < 2 ^ 64) :
    RangeLaws (Logged Workspace) where
  __ := Logged.storeLaws (laws txn positive word)
  tally := Logged.tally
  keeps := Logged.preserves_tally
  retire {state heap pages} owns _ _ := by
    refine ⟨Holds.forget (show Holds txn state.store heap from owns) fun address page stored => ?_, rfl⟩
    split at stored
    · cases stored
    · exact stored
  added owns value := ⟨owns, rfl⟩
  removed owns value := ⟨owns, rfl⟩

end Workspace

end IpRange
