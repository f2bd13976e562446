import IpRange.RangeMergeRuns
import IpRange.WorkspaceRanges

/-!
What a merge amounts to: the counters a comparing policy keeps of its emissions,
and the merge as a whole from an opened base to the tree it leaves.
-/

set_option linter.unusedSectionVars false

namespace IpRange.RangeMerge

open List FixedTree RangeBulk
open RangeMutation (holding)

variable {K V σ π : Type} [IpKey K]

def compareAll (log : List (Emission K UInt32 V)) : Except Error Comparison := do
  let value ← log.foldlM (fun value emission =>
    MapComparison.observe value emission.from_ emission.to_ emission.old emission.new)
    MapComparison.empty
  MapComparison.finish value

def Comparison.Unchanged (value : Comparison) : Prop :=
  value.changed = 0 ∧ value.added = 0 ∧ value.removed = 0

section Compare

variable [LawfulIpKey K] {log : List (Emission K UInt32 V)} {emission : Emission K UInt32 V}
  {value : Comparison} {count : Nat}

def size (emission : Emission K UInt32 V) : Nat :=
  LawfulIpKey.rank emission.to_ - LawfulIpKey.rank emission.from_ + 1

structure Compared (log : List (Emission K UInt32 V)) (value : Comparison) (count : Nat) : Prop where
  before_le : value.before ≤ count
  after_le : value.after ≤ count
  before_eq : value.before = value.unchanged + value.changed + value.removed
  after_eq : value.after = value.unchanged + value.changed + value.added
  same : value.Unchanged ↔ ∀ emission ∈ log, emission.new = emission.old

theorem addCount_ok {left right : Nat} (small : left + right < 2 ^ 129) :
    addCount left right = .ok (left + right) := if_pos small

theorem observe_compared (compared : Compared log value count)
    (proper : emission.from_ ≤ emission.to_) (small : count + size emission < 2 ^ 129) :
    ∃ next, MapComparison.observe value emission.from_ emission.to_ emission.old emission.new =
      .ok next ∧ Compared (log ++ [emission]) next (count + size emission) := by
  obtain ⟨beforeLe, afterLe, beforeEq, afterEq, same⟩ := compared
  have positive : 0 < size emission := Nat.succ_pos _
  have cardinality : IpKey.inclusiveCardinality emission.from_ emission.to_ = .ok (size emission) :=
    LawfulIpKey.cardinality _ _ proper
  have all : (∀ other ∈ log ++ [emission], other.new = other.old) ↔
      (∀ other ∈ log, other.new = other.old) ∧ emission.new = emission.old := by
    simp [or_imp, forall_and]
  simp only [MapComparison.observe, cardinality, bind, Except.bind, MapComparison.observeCount,
    MapComparison.observePresence]
  rcases isOld : emission.old with _ | left <;> rcases isNew : emission.new with _ | right
  · refine ⟨value, rfl, by omega, by omega, beforeEq, afterEq, ?_⟩
    rw [all, isOld, isNew, same]
    simp
  · have after := @addCount_ok value.after (size emission) (by omega)
    have added := @addCount_ok value.added (size emission) (by omega)
    simp only [Option.isSome_none, Option.isSome_some, Bool.false_eq_true, if_true, if_false, after,
      added]
    refine ⟨_, rfl, by simp; omega, by simp; omega, by simpa using beforeEq, by simp; omega, ?_⟩
    rw [all, isOld, isNew]
    simp only [Comparison.Unchanged]
    constructor
    · rintro ⟨_, zero, _⟩
      omega
    · rintro ⟨_, impossible⟩
      cases impossible
  · have before := @addCount_ok value.before (size emission) (by omega)
    have removed := @addCount_ok value.removed (size emission) (by omega)
    simp only [Option.isSome_none, Option.isSome_some, Bool.false_eq_true, if_true, if_false, before,
      removed]
    refine ⟨_, rfl, by simp; omega, by simp; omega, by simp; omega, by simpa using afterEq, ?_⟩
    rw [all, isOld, isNew]
    simp only [Comparison.Unchanged]
    constructor
    · rintro ⟨_, _, zero⟩
      omega
    · rintro ⟨_, impossible⟩
      cases impossible
  · have before := @addCount_ok value.before (size emission) (by omega)
    have after := @addCount_ok value.after (size emission) (by omega)
    have unchanged := @addCount_ok value.unchanged (size emission) (by omega)
    have changed := @addCount_ok value.changed (size emission) (by omega)
    simp only [Option.isSome_some, if_true, before, after]
    by_cases equal : left = right
    · simp only [equal, if_true, unchanged]
      refine ⟨_, rfl, by simp; omega, by simp; omega, by simp; omega, by simp; omega, ?_⟩
      rw [all, isOld, isNew, equal, ← same]
      simp [Comparison.Unchanged]
    · simp only [equal, if_false, changed]
      refine ⟨_, rfl, by simp; omega, by simp; omega, by simp; omega, by simp; omega, ?_⟩
      rw [all, isOld, isNew]
      simp only [Comparison.Unchanged, Option.some.injEq]
      constructor
      · rintro ⟨zero, _, _⟩
        omega
      · rintro ⟨_, same⟩
        exact absurd same.symm equal

theorem foldlM_compared (rest : List (Emission K UInt32 V)) (compared : Compared log value count)
    (proper : ∀ emission ∈ rest, emission.from_ ≤ emission.to_)
    (small : count + (rest.map size).sum < 2 ^ 129) :
    ∃ next, rest.foldlM (fun value emission => MapComparison.observe value emission.from_ emission.to_
      emission.old emission.new) value = .ok next ∧
      Compared (log ++ rest) next (count + (rest.map size).sum) := by
  induction rest generalizing log value count with
  | nil => exact ⟨value, rfl, by simpa using compared⟩
  | cons emission rest ih =>
    simp only [map_cons, sum_cons] at small ⊢
    obtain ⟨next, observed, longer⟩ := observe_compared compared (proper emission (by simp)) (by omega)
    obtain ⟨final, folded, whole⟩ := ih longer
      (fun other member => proper other (mem_cons_of_mem _ member)) (by omega)
    refine ⟨final, ?_, ?_⟩
    · rw [foldlM_cons, observed]
      exact folded
    · rw [append_assoc] at whole
      rw [← Nat.add_assoc]
      exact whole

theorem sum_size_le (low : Nat) (bound : low ≤ 256 ^ IpKey.width K)
    (ordered : log.Pairwise fun earlier later => earlier.to_ < later.from_)
    (proper : ∀ emission ∈ log, emission.from_ ≤ emission.to_)
    (above : ∀ emission ∈ log, low ≤ LawfulIpKey.rank emission.from_) :
    low + (log.map size).sum ≤ 256 ^ IpKey.width K := by
  induction log generalizing low with
  | nil => simpa using bound
  | cons first rest ih =>
    obtain ⟨before, later⟩ := pairwise_cons.mp ordered
    have own : LawfulIpKey.rank first.from_ ≤ LawfulIpKey.rank first.to_ := by
      rcases (proper first (by simp)).lt_or_eq with less | same
      · exact ((LawfulIpKey.lt_iff_rank _ _).mp less).le
      · rw [same]
    have start := above first (by simp)
    have step := ih (LawfulIpKey.rank first.to_ + 1) (LawfulIpKey.rank_bound first.to_) later
      (fun other member => proper other (mem_cons_of_mem _ member))
      fun other member => (LawfulIpKey.lt_iff_rank _ _).mp (before other member)
    simp only [map_cons, sum_cons, size] at step ⊢
    omega

theorem InOrder.sum_size (inOrder : InOrder log) : (log.map size).sum ≤ 256 ^ 16 := by
  have total : 0 + (log.map size).sum ≤ 256 ^ IpKey.width K :=
    sum_size_le 0 (Nat.zero_le _) inOrder.disjoint inOrder.proper fun _ _ => Nat.zero_le _
  have space : 256 ^ IpKey.width K ≤ 256 ^ 16 :=
    Nat.pow_le_pow_right (by decide) LawfulIpKey.narrow
  omega

theorem InOrder.compared (inOrder : InOrder log) :
    ∃ value, log.foldlM (fun value emission => MapComparison.observe value emission.from_ emission.to_
      emission.old emission.new) MapComparison.empty = .ok value ∧
      Compared log value (log.map size).sum := by
  have started : Compared ([] : List (Emission K UInt32 V)) MapComparison.empty 0 :=
    ⟨le_rfl, le_rfl, rfl, rfl, by simp [Comparison.Unchanged, MapComparison.empty]⟩
  have total := inOrder.sum_size
  obtain ⟨value, folded, compared⟩ := foldlM_compared log started inOrder.proper (by omega)
  rw [nil_append, Nat.zero_add] at compared
  exact ⟨value, folded, compared⟩

theorem compareAll_spec (inOrder : InOrder log) :
    ∃ comparison, compareAll log = .ok comparison ∧
      (comparison.Unchanged ↔ ∀ emission ∈ log, emission.new = emission.old) := by
  have total := inOrder.sum_size
  obtain ⟨comparison, folded, compared⟩ := inOrder.compared
  obtain ⟨beforeLe, afterLe, beforeEq, afterEq, same⟩ := compared
  refine ⟨comparison, ?_, same⟩
  have both := @addCount_ok comparison.unchanged comparison.changed (by omega)
  have before := @addCount_ok (comparison.unchanged + comparison.changed) comparison.removed (by omega)
  have after := @addCount_ok (comparison.unchanged + comparison.changed) comparison.added (by omega)
  have balanced : ¬ (comparison.unchanged + comparison.changed + comparison.removed ≠ comparison.before ∨
      comparison.unchanged + comparison.changed + comparison.added ≠ comparison.after) := by omega
  simp only [compareAll, folded, bind, Except.bind, MapComparison.finish, both, before, after,
    if_neg balanced]

end Compare

section Merge

variable [LawfulIpKey K] [MergeStore σ] {job : Job K V σ π} {state : σ} {heap : Heap}

/-- A log partitions what the base or the input covers, tells what both hold on each interval,
and gives the values of `last`. -/
structure Partitions (olds : List (Record K)) (inputs : List (Incoming K V)) (last : List (Record K))
    (log : List (Emission K UInt32 V)) : Prop where
  disjoint : log.Pairwise fun earlier later => earlier.to_ < later.from_
  proper : ∀ emission ∈ log, emission.from_ ≤ emission.to_
  covered : ∀ address, (∃ emission ∈ log, emission.Covers address) ↔
    valueAt olds address ≠ none ∨ valueAt inputs address ≠ none
  held : ∀ emission ∈ log, ∀ address, emission.Covers address →
    emission.old = valueAt olds address ∧ emission.incoming = valueAt inputs address ∧
      emission.new = valueAt last address
  outside : ∀ address, (∀ emission ∈ log, ¬ emission.Covers address) → valueAt last address = none

variable {olds last : List (Record K)} {inputs : List (Incoming K V)}
  {log : List (Emission K UInt32 V)} {policy : Policy K Unit σ π} {fail : Error → σ → Prop}

theorem partitions_of_swept (swept : Swept (valueAt olds) (valueAt inputs) [] none log)
    (holds : ∀ address, valueAt last address = newAt log address) :
    Partitions olds inputs last log where
  disjoint := swept.ordered
  proper := swept.proper
  covered := swept.covered
  held emission member address covers := by
    obtain ⟨old, incoming⟩ := swept.logged emission member address covers
    exact ⟨old, incoming, by rw [holds, newAt_of_mem swept.ordered member covers]⟩
  outside address free := by rw [holds, newAt_eq_none free]

theorem partitions_kept (canonical : Canonical olds) :
    Partitions olds ([] : List (Incoming K V)) olds (olds.map keptEmission) where
  disjoint := pairwise_map.mpr (canonical.ordered.imp And.left)
  proper := by
    intro emission member
    obtain ⟨old, isOld, rfl⟩ := mem_map.mp member
    exact canonical.proper old isOld
  covered address := by
    have nothing : valueAt ([] : List (Incoming K V)) address = none := rfl
    simp only [nothing, ne_eq, not_true_eq_false, or_false, valueAt_eq_none, not_forall, not_not]
    constructor
    · rintro ⟨emission, member, covers⟩
      obtain ⟨old, isOld, rfl⟩ := mem_map.mp member
      exact ⟨old, isOld, covers⟩
    · rintro ⟨old, isOld, covers⟩
      exact ⟨keptEmission old, mem_map_of_mem isOld, covers⟩
  held emission member address covers := by
    obtain ⟨old, isOld, rfl⟩ := mem_map.mp member
    have value := canonical.valueAt_of_mem isOld covers
    exact ⟨value.symm, rfl, value.symm⟩
  outside address free := by
    rw [valueAt_eq_none]
    exact fun old isOld covers => free (keptEmission old) (mem_map_of_mem isOld) covers

theorem Partitions.compared (partitions : Partitions olds inputs last log) :
    ∃ comparison, compareAll log = .ok comparison ∧
      (comparison.Unchanged ↔ valueAt last = valueAt olds) := by
  obtain ⟨comparison, compared, same⟩ := compareAll_spec ⟨partitions.disjoint, partitions.proper⟩
  refine ⟨comparison, compared, same.trans ⟨fun kept => ?_, fun equal emission member => ?_⟩⟩
  · funext address
    by_cases covered : ∃ emission ∈ log, emission.Covers address
    · obtain ⟨emission, member, covers⟩ := covered
      obtain ⟨old, _, new⟩ := partitions.held emission member address covers
      rw [← new, ← old, kept emission member]
    · have free := partitions.outside address fun emission member covers =>
        covered ⟨emission, member, covers⟩
      have absent := (not_or.mp (mt (partitions.covered address).mpr covered)).1
      rw [free, not_not.mp absent]
  · have first : emission.Covers emission.from_ := ⟨le_rfl, partitions.proper emission member⟩
    obtain ⟨old, _, new⟩ := partitions.held emission member _ first
    rw [old, new, equal]

/-- What a merge leaves: the base as it was, or a new tree in its place and the base's
pages retired. -/
def Leaves (job : Job K V σ π) (inputs : List (Incoming K V)) (log : List (Emission K UInt32 V))
    (last : List (Record K)) (result : Finished π) (state reached : σ) : Prop :=
  if inputs = [] ∧ job.policy.preserveWithoutInput = true then
    reached = state ∧ last = job.olds ∧ result.rangeRoot = job.base.rangeRoot ∧
      result.baseRangeTreeRetired = false ∧ Played job.policy Kept job.start log result.policy
  else
    Played job.policy (Asked job.policy) job.start log result.policy ∧
      result.baseRangeTreeRetired = true ∧
      ∃ total, Stands job.laws.toRangeLaws (rangeCodec K)
        (fun address => if address ∈ job.basePages then none else job.frame address)
        result.rangeRoot (recordItems last) total reached ∧
        ∀ value, total value = job.opening value +
          if job.counting then holding last value - holding job.olds value else 0

theorem merge_spec (valid : job.Valid) (inputs : List (Incoming K V)) (separate : Separate inputs)
    (owning : Owning (job.laws.counting job.opening) job.frame [] heap state) :
    Ensures (merge job.base job.policy job.start inputs) state (fun result reached =>
      ∃ log last, Canonical last ∧ result.rangeRecordCount = last.length ∧
        Partitions job.olds inputs last log ∧
        Leaves job inputs log last result state reached) job.Fails := by
  rw [merge, ensures_bind]
  refine (new_spec (V := V) valid owning).imp ?_
  rintro opened _ ⟨rfl, ready, policy, current, reading⟩
  rw [ensures_bind]
  by_cases preserved : inputs = [] ∧ job.policy.preserveWithoutInput = true
  · obtain ⟨rfl, allowed⟩ := preserved
    have unseen : opened.inputSeen = false := ready.seen
    have keeps : (!opened.inputSeen && job.policy.preserveWithoutInput) = true := by
      rw [unseen, allowed]
      rfl
    rw [OrderedMerge.pushAll, ensures_pure, OrderedMerge.finish, if_pos keeps,
      OrderedMerge.finishPreserved, ensures_bind]
    have played : Played job.policy Kept job.start ([] : List (Emission K UInt32 V)) opened.policy := by
      rw [policy]
      exact Played.nil
    refine (observeOld_spec valid allowed _ owning current reading played ?_).imp ?_
    · rw [valid.base.counted]
      exact Nat.lt_succ_self _
    rintro final reached ⟨same, finished⟩
    rw [ensures_pure]
    have partitions := partitions_kept (V := V) valid.base.canonical
    refine ⟨job.olds.map keptEmission, job.olds, valid.base.canonical, valid.base.counted,
      partitions, ?_⟩
    rw [Leaves, if_pos ⟨rfl, allowed⟩]
    exact ⟨same, rfl, rfl, rfl, by simpa using finished⟩
  · refine (pushAll_spec valid inputs (by simpa using separate) ready).imp ?_
    intro pushed reached ready
    rw [nil_append] at ready
    have rebuilt : ¬ (!pushed.inputSeen && job.policy.preserveWithoutInput) = true := by
      rw [ready.seen]
      simpa using preserved
    rw [OrderedMerge.finish, if_neg rebuilt]
    refine (finishRebuilt_spec valid ready).imp ?_
    rintro result final ⟨log, last, total, swept, played, canonical, holds, counted, retired,
      stands, sums⟩
    have partitions := partitions_of_swept swept holds
    refine ⟨log, last, canonical, counted, partitions, ?_⟩
    rw [Leaves, if_neg preserved]
    exact ⟨played, retired, total, stands, sums⟩

theorem pushCoverage_of_pushAll {base : Base} {context : String}
    {post : OrderedMerge K π → σ → Prop} (coverage : List (Incoming K Unit))
    {merge : OrderedMerge K π} {count : Nat} {state : σ}
    (pushed : Ensures (merge.pushAll base policy coverage) state post fail) :
    Ensures (pushCoverage base policy context merge count coverage) state
      (fun result reached => result.1 = count + coverage.length ∧ post result.2 reached)
      (fun error reached => fail error reached ∨
        2 ^ 64 ≤ count + coverage.length ∧ error = .arithmeticOverflow context) := by
  induction coverage generalizing merge count state with
  | nil => exact ⟨rfl, pushed⟩
  | cons incoming rest ih =>
    rw [pushCoverage]
    by_cases room : count + 1 < 2 ^ 64
    · rw [if_pos room, ensures_bind]
      rw [OrderedMerge.pushAll, ensures_bind] at pushed
      refine pushed.mono (fun next reached later => ?_) fun _ _ failed => Or.inl failed
      refine (ih later).mono ?_ fun _ _ failed => failed.imp_right fun full =>
        ⟨by rw [length_cons]; omega, full.2⟩
      rintro ⟨total, final⟩ ended ⟨counted, holds⟩
      exact ⟨by rw [length_cons]; omega, holds⟩
    · rw [if_neg room]
      exact Or.inr ⟨by rw [length_cons]; omega, rfl⟩

theorem mergeCoverage_of_merge {base : Base} {context : String} {start : π}
    {coverage : List (Incoming K Unit)} {post : Finished π → σ → Prop}
    (merged : Ensures (merge base policy start coverage) state post fail) :
    Ensures (mergeCoverage base policy context start coverage) state
      (fun result reached => result.1 = coverage.length ∧ post result.2 reached)
      (fun error reached => fail error reached ∨
        2 ^ 64 ≤ coverage.length ∧ error = .arithmeticOverflow context) := by
  rw [merge, ensures_bind] at merged
  rw [mergeCoverage, ensures_bind]
  refine merged.mono (fun opened reached pushed => ?_) fun _ _ failed => Or.inl failed
  rw [ensures_bind] at pushed ⊢
  refine (pushCoverage_of_pushAll coverage pushed).mono ?_ fun _ _ failed =>
    failed.imp_right fun full => ⟨by simpa using full.1, full.2⟩
  rintro ⟨total, last⟩ ended ⟨counted, finished⟩
  rw [ensures_bind]
  refine finished.mono (fun result final holds => ?_) fun _ _ failed => Or.inl failed
  rw [ensures_pure]
  exact ⟨by simpa using counted, holds⟩

/-- A merge of an ordered input into a canonical base leaves a canonical map that holds at
every address what the policy answered for the old and the incoming value there. The
policy is told of disjoint intervals that partition what either covers, and counters over
them tell whether the map changed. The merge itself does not ask: it keeps the base tree
only without input and when the policy allows it, and otherwise always puts a new tree in
its place. -/
theorem ordered_merge_combines (valid : job.Valid) (inputs : List (Incoming K V))
    (separate : Separate inputs)
    (owning : Owning (job.laws.counting job.opening) job.frame [] heap state) :
    Ensures (merge job.base job.policy job.start inputs) state (fun result reached =>
      ∃ log last, Canonical last ∧ result.rangeRecordCount = last.length ∧
        Partitions job.olds inputs last log ∧
        (∃ comparison, compareAll log = .ok comparison ∧
          (comparison.Unchanged ↔ valueAt last = valueAt job.olds)) ∧
        Leaves job inputs log last result state reached) job.Fails := by
  refine (merge_spec valid inputs separate owning).imp ?_
  rintro result reached ⟨log, last, canonical, counted, partitions, leaves⟩
  exact ⟨log, last, canonical, counted, partitions, partitions.compared, leaves⟩

end Merge

instance [Store σ] : MergeStore (Logged σ) where
  trackMembershipRefcount := Logged.count

def draftMergeLaws (txn : Nat) (positive : 0 < txn) (word : txn < 2 ^ 64) :
    MergeLaws (Logged Workspace) where
  toRangeLaws := Workspace.draftLaws txn positive word
  track owns _ _ := ⟨owns, rfl⟩

def sampleOld : Record Ipv4Key := { from_ := ⟨10⟩, to_ := ⟨20⟩, value := 1 }

def sampleEntry : Entry (rangeCodec Ipv4Key) := sampleOld.entry (by decide)

def sampleHeap : Heap := fun address =>
  if address = 2 then some (treePage (rangeCodec Ipv4Key) 3 0 [sampleEntry.cell]) else none

def sampleDraft : Logged Workspace where
  store :=
    { mapping := fun address => (sampleHeap address).getD default, first := 2, limit := 64, next := 3,
      free := 0, txn := 7 }
  tally _ := 0
  retired := []

def sampleBase : Base where
  txnId := 3
  pageCount := 3
  valueKind := .direct
  rangeRoot := 2
  rangeRecordCount := 1

def replacing : Policy Ipv4Key UInt32 (Logged Workspace) Comparison where
  preserveWithoutInput := false
  transform _ incoming comparison := pure (incoming, comparison)
  observe from_ to_ old _ new comparison := MapComparison.observe comparison from_ to_ old new

theorem unchanged_merge_rebuilds : ∃ result reached,
    merge sampleBase replacing MapComparison.empty [sampleOld] sampleDraft = .ok result reached ∧
      result.policy.Unchanged ∧ (reached.store.mapping result.rangeRoot).cells = [sampleEntry.cell] ∧
      result.rangeRoot ≠ sampleBase.rangeRoot ∧ reached.retired = [sampleBase.rangeRoot] := by
  have run : observed (fun result reached => (result.policy, result.rangeRoot, reached.retired,
        (reached.store.mapping result.rangeRoot).cells))
      (merge sampleBase replacing MapComparison.empty [sampleOld] sampleDraft) =
      some (⟨11, 11, 11, 0, 0, 0⟩, 3, [2], [sampleEntry.cell]) := by decide +kernel
  obtain ⟨result, reached, outcome, sight⟩ := exists_ok_of_observed run
  simp only [Prod.mk.injEq] at sight
  obtain ⟨compared, root, retired, cells⟩ := sight
  refine ⟨result, reached, outcome, ?_, cells, ?_, retired⟩
  · rw [compared]
    exact ⟨rfl, rfl, rfl⟩
  · rw [root]
    decide

theorem sampleHeap_eq_some {address : Nat} {page : Page} (stored : sampleHeap address = some page) :
    address = 2 := by
  exact (Option.ite_none_right_eq_some.mp stored).1

/-- What comes in wins over what is there. -/
def overlaying : Policy Ipv4Key UInt32 (Logged Workspace) Comparison where
  preserveWithoutInput := true
  transform old incoming comparison := pure (incoming.or old, comparison)
  observe from_ to_ old _ new comparison := MapComparison.observe comparison from_ to_ old new

def sampleInputs : List (Incoming Ipv4Key UInt32) :=
  [{ from_ := ⟨5⟩, to_ := ⟨12⟩, value := 2 }, { from_ := ⟨18⟩, to_ := ⟨25⟩, value := 1 }]

def sampleJob : Job Ipv4Key UInt32 (Logged Workspace) Comparison where
  laws := draftMergeLaws 7 Workspace.sampleTxn_positive Workspace.sampleTxn_word
  frame := sampleHeap
  base := { sampleBase with valueKind := .membership }
  olds := [sampleOld]
  basePages := [2]
  policy := overlaying
  start := MapComparison.empty
  opening _ := 0
  refuses error := ∃ comparison, ∃ from_ to_ : Ipv4Key, ∃ old new,
    MapComparison.observe comparison from_ to_ old new = .error error

theorem sample_owning : Owning (sampleJob.laws.counting sampleJob.opening) sampleJob.frame []
    sampleHeap sampleDraft := by
  refine ⟨⟨Workspace.Holds.of_heap (by decide) (by decide) (by decide) ?_, rfl⟩, nodup_nil,
    by simp, fun address => by simp [sampleJob]⟩
  intro address page stored
  obtain rfl := sampleHeap_eq_some stored
  decide

theorem sample_base (valueKind : ValueKind) :
    BaseAt sampleHeap { sampleBase with valueKind } [sampleOld] [2] := by
  refine ⟨⟨[sampleEntry], Or.inr ⟨0, ⟨2, [sampleEntry], [], by simp⟩, by decide, ⟨rfl, 3, ?_⟩, rfl, rfl,
    rfl⟩, rfl⟩, by decide, ⟨pairwise_singleton _ _, by decide⟩, rfl, by simp [sampleBase],
    by simp [sampleBase]⟩
  exact ⟨by decide, le_rfl, ⟨by decide, by decide, by decide⟩, rfl⟩

theorem sample_valid : sampleJob.Valid where
  base := sample_base .membership
  earlier := by decide
  transform _ _ _ owns := ⟨owns, rfl⟩
  observe _ _ _ told := ⟨_, _, _, _, _, told⟩
  preserve _ _ _ _ _ _ told := ⟨_, _, _, _, _, told⟩

theorem ordered_merge_combines_sample : ∃ result reached,
    merge sampleJob.base overlaying MapComparison.empty sampleInputs sampleDraft = .ok result reached ∧
      result.policy = ⟨11, 21, 8, 3, 10, 0⟩ ∧ reached.tally 1 = 0 ∧ reached.tally 2 = 1 ∧
      ∃ log last, Canonical last ∧ 2 = last.length ∧ Partitions [sampleOld] sampleInputs last log ∧
        (∃ comparison, compareAll log = .ok comparison ∧
          (comparison.Unchanged ↔ valueAt last = valueAt [sampleOld])) ∧
        Leaves sampleJob sampleInputs log last result sampleDraft reached := by
  have separate : Separate sampleInputs := ⟨by decide, by decide⟩
  have spec := ordered_merge_combines sample_valid sampleInputs separate sample_owning
  have run : observed (fun result reached =>
        (result.policy, result.rangeRecordCount, reached.tally 1, reached.tally 2))
      (merge sampleJob.base overlaying MapComparison.empty sampleInputs sampleDraft) =
      some (⟨11, 21, 8, 3, 10, 0⟩, 2, 0, 1) := by decide +kernel
  obtain ⟨result, reached, outcome, sight⟩ := exists_ok_of_observed run
  simp only [Prod.mk.injEq] at sight
  obtain ⟨policy, records, first, second⟩ := sight
  obtain ⟨log, last, canonical, counted, rest⟩ := spec.ok outcome
  rw [records] at counted
  exact ⟨result, reached, outcome, policy, first, second, log, last, canonical, counted, rest⟩

end IpRange.RangeMerge
