import IpRange.TimestampRefreshCore
import IpRange.RangeMergeCompare

/-!
First-seen and last-seen refreshes of a map: the value every address ends with,
and the stream of removed ranges that a first-seen refresh hands to its sink.
-/

namespace IpRange.TimestampRefresh

open List FixedTree RangeMerge

variable {K O ρ σ π : Type} [IpKey K]

section Spec

def Covered (coverage : List (Incoming K Unit)) (address : K) : Prop :=
  ∃ range ∈ coverage, range.Covers address

structure FirstSeenValues (olds : List (Record K)) (coverage : List (Incoming K Unit))
    (refreshValue : UInt32) (last : List (Record K)) : Prop where
  kept : ∀ address value, Covered coverage address → valueAt olds address = some value →
    valueAt last address = some value
  fresh : ∀ address, Covered coverage address → valueAt olds address = none →
    valueAt last address = some refreshValue
  gone : ∀ address, ¬ Covered coverage address → valueAt last address = none

structure LastSeenValues (olds : List (Record K)) (coverage : List (Incoming K Unit))
    (refreshValue cutoff : UInt32) (last : List (Record K)) : Prop where
  later : ∀ address value, Covered coverage address → valueAt olds address = some value →
    valueAt last address = some (max value refreshValue)
  fresh : ∀ address, Covered coverage address → valueAt olds address = none →
    valueAt last address = some refreshValue
  kept : ∀ address value, ¬ Covered coverage address → valueAt olds address = some value →
    cutoff < value → valueAt last address = some value
  gone : ∀ address, ¬ Covered coverage address →
    (∀ value, valueAt olds address = some value → value ≤ cutoff) → valueAt last address = none

/-- A stream that tells which addresses of `olds` are not in `last`, and what they held. -/
structure RemovalStream (olds last : List (Record K)) (removals : List (Removal K)) : Prop where
  ordered : removals.Pairwise fun earlier later => earlier.to_ < later.from_
  proper : ∀ removal ∈ removals, removal.from_ ≤ removal.to_
  covered : ∀ address, (∃ removal ∈ removals, removal.from_ ≤ address ∧ address ≤ removal.to_) ↔
    valueAt olds address ≠ none ∧ valueAt last address = none
  held : ∀ removal ∈ removals, ∀ address, removal.from_ ≤ address → address ≤ removal.to_ →
    valueAt olds address = some removal.firstSeen
  counted : ∀ removal ∈ removals,
    IpKey.inclusiveCardinality removal.from_ removal.to_ = .ok removal.addresses

inductive Given (sink : List (Removal K) → ρ → Except Error ρ) (start : ρ) :
    List (List (Removal K)) → ρ → Prop
  | nil : Given sink start [] start
  | snoc {batches : List (List (Removal K))} {batch : List (Removal K)} {before after : ρ} :
      Given sink start batches before → batch ≠ [] → batch.length ≤ removalBatchCapacity →
      sink batch before = .ok after → Given sink start (batches ++ [batch]) after

variable {coverage : List (Incoming K Unit)}

theorem not_covered {address : K} :
    ¬ Covered coverage address ↔ valueAt coverage address = none := by
  rw [valueAt_eq_none, Covered]
  push Not
  rfl

theorem covered_iff {address : K} :
    Covered coverage address ↔ valueAt coverage address = some () := by
  rw [← not_iff_not, not_covered]
  cases valueAt coverage address with
  | none => simp
  | some covered => simp

end Spec

section Batches

variable {sink : List (Removal K) → ρ → Except Error ρ} {start : ρ}
  {batched after : BatchedRemovals K ρ} {removals : List (Removal K)} {removal : Removal K}

omit [IpKey K] in
theorem flush_given (batched : BatchedRemovals K ρ) {batches : List (List (Removal K))}
    (given : Given sink start batches batched.sink)
    (small : batched.records.length ≤ removalBatchCapacity)
    (flushed : batched.flush sink = .ok after) :
    after.records = [] ∧ ∃ further, Given sink start further after.sink ∧
      further.flatten = batches.flatten ++ batched.records := by
  rw [BatchedRemovals.flush] at flushed
  split at flushed
  · rename_i empty
    have nothing := length_eq_zero_iff.mp empty
    cases flushed
    exact ⟨nothing, batches, given, by rw [nothing, append_nil]⟩
  · rename_i several
    obtain ⟨next, told, same⟩ := bind_eq_ok.mp flushed
    cases same
    have nonempty : batched.records ≠ [] := fun none => several (by rw [none]; rfl)
    exact ⟨rfl, _, given.snoc nonempty small told, by simp⟩

omit [IpKey K] in
theorem flush_refused {error : Error} (flushed : batched.flush sink = .error error) :
    ∃ batch before, sink batch before = .error error := by
  rw [BatchedRemovals.flush] at flushed
  split at flushed
  · cases flushed
  · rcases bind_eq_error.mp flushed with refused | ⟨_, _, kept⟩
    · exact ⟨_, _, refused⟩
    · cases kept

omit [IpKey K] in
theorem push_refused {error : Error} (pushed : batched.push sink removal = .error error) :
    ∃ batch before, sink batch before = .error error := by
  rw [BatchedRemovals.push] at pushed
  split at pushed
  · exact flush_refused pushed
  · cases pushed

def Delivered (sink : List (Removal K) → ρ → Except Error ρ) (start : ρ)
    (batched : BatchedRemovals K ρ) (removals : List (Removal K)) : Prop :=
  batched.records.length < removalBatchCapacity ∧
    ∃ batches, Given sink start batches batched.sink ∧ removals = batches.flatten ++ batched.records

omit [IpKey K] in
theorem Delivered.push (delivered : Delivered sink start batched removals)
    (pushed : batched.push sink removal = .ok after) :
    Delivered sink start after (removals ++ [removal]) := by
  obtain ⟨small, batches, given, rfl⟩ := delivered
  rw [BatchedRemovals.push] at pushed
  split at pushed
  · rename_i full
    obtain ⟨empty, further, all, flat⟩ := flush_given
      { batched with records := batched.records ++ [removal] } given full.le pushed
    refine ⟨by rw [empty]; exact Nat.zero_lt_succ _, further, all, ?_⟩
    rw [flat, empty, append_nil, append_assoc]
  · rename_i room
    cases pushed
    refine ⟨?_, batches, given, append_assoc _ _ _⟩
    simp only [length_append, length_singleton] at room ⊢
    omega

omit [IpKey K] in
theorem Delivered.finish (delivered : Delivered sink start batched removals)
    (flushed : batched.flush sink = .ok after) :
    after.records = [] ∧
      ∃ batches, Given sink start batches after.sink ∧ batches.flatten = removals := by
  obtain ⟨small, batches, given, rfl⟩ := delivered
  exact flush_given batched given small.le flushed

end Batches

section Policies

variable {policy : Policy K Unit σ π} {value : Option UInt32 → Option Unit → Option UInt32}
  {counters : π → TimestampCounters} {start final : π} {log : List (Emission K UInt32 Unit)}
  {olds last : List (Record K)} {coverage : List (Incoming K Unit)}

abbrev Led (policy : Policy K Unit σ π) (start : π) (log : List (Emission K UInt32 Unit)) (final : π) :
    Prop :=
  Played policy (Asked policy) start log final

structure Refreshes (policy : Policy K Unit σ π) (value : Option UInt32 → Option Unit → Option UInt32)
    (counters : π → TimestampCounters) : Prop where
  rebuilds : policy.preserveWithoutInput = false
  nothing : value none none = none
  transform : ∀ old incoming state, policy.transform old incoming state =
    pure (value old incoming, state)
  observe : ∀ {from_ to_ old incoming new before after},
    policy.observe from_ to_ old incoming new before = .ok after →
      ∃ count, (counters before).observe from_ to_ old incoming new = .ok (count, counters after)

variable {emission : Emission K UInt32 Unit}

theorem Refreshes.asked (refreshes : Refreshes policy value counters) {before between : π}
    (asked : Asked policy emission before between) :
    emission.new = value emission.old emission.incoming ∧ between = before := by
  obtain ⟨state, reached, answer⟩ := asked
  rw [refreshes.transform] at answer
  obtain ⟨answered, -⟩ := EStateM.Result.ok.inj answer
  obtain ⟨new, same⟩ := Prod.mk.inj answered
  exact ⟨new.symm, same.symm⟩

theorem Refreshes.answered (refreshes : Refreshes policy value counters)
    (played : Led policy start log final) :
    ∀ emission ∈ log, emission.new = value emission.old emission.incoming := by
  induction played with
  | nil => simp
  | snoc _ asked _ ih =>
    intro emission member
    rcases mem_append.mp member with earlier | newest
    · exact ih emission earlier
    · rw [mem_singleton.mp newest]
      exact (refreshes.asked asked).1

variable {from_ : K} {old new : Option UInt32} {incoming : Option Unit} {refreshValue : UInt32}

omit [IpKey K] in
theorem addInput_le {counters : TimestampCounters} {count sum : Nat}
    (added : counters.addInput count incoming = .ok sum) : sum ≤ counters.inputAddresses + count := by
  rw [TimestampCounters.addInput, addCount] at added
  split at added
  · split at added
    · exact (Except.ok.inj added).ge
    · cases added
  · rw [← Except.ok.inj added]
    exact Nat.le_add_right _ _

theorem observe_counted {counters after : TimestampCounters} {count : Nat} {to_ : K}
    (observed : counters.observe from_ to_ old incoming new = .ok (count, after)) :
    IpKey.inclusiveCardinality from_ to_ = .ok count ∧
      after.inputAddresses ≤ counters.inputAddresses + count ∧
      MapComparison.observe counters.comparison from_ to_ old new = .ok after.comparison := by
  rw [TimestampCounters.observe] at observed
  obtain ⟨size, sized, observed⟩ := bind_eq_ok.mp observed
  obtain ⟨inputAddresses, added, observed⟩ := bind_eq_ok.mp observed
  obtain ⟨comparison, compared, same⟩ := bind_eq_ok.mp observed
  cases same
  refine ⟨sized, addInput_le added, ?_⟩
  rw [MapComparison.observe, sized]
  exact compared

section

variable (refreshes : Refreshes policy value counters)
  (fresh : counters start = TimestampCounters.empty) (played : Led policy start log final)

include refreshes fresh played

theorem Refreshes.compared :
    log.foldlM (fun value emission => MapComparison.observe value emission.from_ emission.to_
      emission.old emission.new) MapComparison.empty = .ok (counters final).comparison := by
  induction played with
  | nil =>
    rw [fresh]
    rfl
  | snoc _ asked observed ih =>
    obtain ⟨_, rfl⟩ := refreshes.asked asked
    obtain ⟨count, counted⟩ := refreshes.observe observed
    rw [foldlM_append, ih]
    simp only [bind, Except.bind, foldlM_cons, foldlM_nil, pure, Except.pure]
    rw [(observe_counted counted).2.2]

theorem Refreshes.inputs_le [LawfulIpKey K]
    (proper : ∀ emission ∈ log, emission.from_ ≤ emission.to_) :
    (counters final).inputAddresses ≤ (log.map size).sum := by
  induction played with
  | nil => simp [fresh, TimestampCounters.empty]
  | @snoc log emission _ _ _ _ asked observed ih =>
    obtain ⟨_, rfl⟩ := refreshes.asked asked
    obtain ⟨count, counted⟩ := refreshes.observe observed
    obtain ⟨sized, more, _⟩ := observe_counted counted
    rw [LawfulIpKey.cardinality _ _ (proper emission (by simp))] at sized
    have count_eq : size emission = count := Except.ok.inj sized
    have earlier := ih fun other member => proper other (mem_append_left _ member)
    rw [map_append, sum_append, map_singleton, sum_singleton, count_eq]
    omega

/-- Intervals in order have at most 2 ^ 128 addresses, so no counter of a run overflows. -/
theorem Refreshes.counts [LawfulIpKey K] (inOrder : InOrder (log ++ [emission])) :
    ∃ result, (counters final).observe emission.from_ emission.to_ emission.old emission.incoming
      emission.new = .ok result := by
  have before : InOrder log := ⟨inOrder.disjoint.sublist (sublist_append_left _ _),
    fun other member => inOrder.proper other (mem_append_left _ member)⟩
  have proper := inOrder.proper emission (by simp)
  have total := inOrder.sum_size
  rw [map_append, sum_append, map_singleton, sum_singleton] at total
  have inputs := refreshes.inputs_le fresh played before.proper
  obtain ⟨value, folded, compared⟩ := before.compared
  rw [refreshes.compared fresh played] at folded
  obtain rfl := Except.ok.inj folded
  obtain ⟨comparison, observed, -⟩ := observe_compared compared proper (by omega)
  have sized : IpKey.inclusiveCardinality emission.from_ emission.to_ = .ok (size emission) :=
    LawfulIpKey.cardinality _ _ proper
  have added : ∃ sum, (counters final).addInput (size emission) emission.incoming = .ok sum := by
    rw [TimestampCounters.addInput]
    split
    · exact ⟨_, addCount_ok (by omega)⟩
    · exact ⟨_, rfl⟩
  obtain ⟨sum, added⟩ := added
  rw [MapComparison.observe, sized] at observed
  refine ⟨(size emission, { inputAddresses := sum, comparison }), ?_⟩
  rw [TimestampCounters.observe, sized]
  refine bind_eq_ok.mpr ⟨_, rfl, bind_eq_ok.mpr ⟨sum, added, bind_eq_ok.mpr ⟨comparison, observed, rfl⟩⟩⟩

theorem Refreshes.finished [LawfulIpKey K] (partitions : Partitions olds coverage last log) :
    ∃ output, (counters final).finish = .ok output ∧
      (output.comparison.Unchanged ↔ valueAt last = valueAt olds) := by
  obtain ⟨comparison, all, same⟩ := partitions.compared
  rw [compareAll, refreshes.compared fresh played] at all
  have finished : MapComparison.finish (counters final).comparison = .ok comparison := all
  refine ⟨{ counters final with comparison }, ?_, same⟩
  rw [TimestampCounters.finish, finished]
  rfl

end

theorem Refreshes.pointwise (refreshes : Refreshes policy value counters)
    (played : Led policy start log final)
    (partitions : Partitions olds coverage last log) (address : K) :
    valueAt last address = value (valueAt olds address) (valueAt coverage address) := by
  by_cases covered : ∃ emission ∈ log, emission.Covers address
  · obtain ⟨emission, member, covers⟩ := covered
    obtain ⟨old, incoming, new⟩ := partitions.held emission member address covers
    rw [← new, ← old, ← incoming, refreshes.answered played emission member]
  · have free := partitions.outside address fun emission member covers =>
      covered ⟨emission, member, covers⟩
    obtain ⟨absent, uncovered⟩ := not_or.mp (mt (partitions.covered address).mpr covered)
    rw [free, not_not.mp absent, not_not.mp uncovered, refreshes.nothing]

theorem firstSeen_refreshes (observer : RemovalObserver K O) (refreshValue : UInt32) :
    Refreshes (σ := σ) (firstSeenPolicy observer refreshValue) (firstSeen refreshValue)
      FirstSeen.counters where
  rebuilds := rfl
  nothing := rfl
  transform _ _ _ := rfl
  observe {from_ to_ old incoming new before after} observed := by
    obtain ⟨⟨count, counters⟩, counted, observed⟩ := bind_eq_ok.mp observed
    refine ⟨count, ?_⟩
    rcases old with _ | value <;> rcases incoming with _ | covered
    · cases observed
      exact counted
    · cases observed
      exact counted
    · obtain ⟨removals, _, same⟩ := bind_eq_ok.mp observed
      cases same
      exact counted
    · cases observed
      exact counted

theorem lastSeen_refreshes (refreshValue cutoff : UInt32) :
    Refreshes (K := K) (σ := σ) (lastSeenPolicy refreshValue cutoff) (lastSeen refreshValue cutoff)
      id where
  rebuilds := rfl
  nothing := rfl
  transform _ _ _ := rfl
  observe {from_ to_ old incoming new before after} observed := by
    obtain ⟨⟨count, counters⟩, counted, same⟩ := map_eq_ok.mp observed
    cases same
    exact ⟨count, counted⟩

theorem firstSeen_refused {observer : RemovalObserver K O} {to_ : K} {before : FirstSeen O}
    {error : Error}
    (observed : (firstSeenPolicy (σ := σ) observer refreshValue).observe from_ to_ old incoming new
      before =
      .error error) :
    before.counters.observe from_ to_ old incoming new = .error error ∨
      ∃ removal before, observer.push removal before = .error error := by
  rcases bind_eq_error.mp observed with refused | ⟨⟨count, counters⟩, _, observed⟩
  · exact Or.inl refused
  · rcases old with _ | value <;> rcases incoming with _ | covered
    · cases observed
    · cases observed
    · rcases bind_eq_error.mp observed with pushed | ⟨_, _, kept⟩
      · exact Or.inr ⟨_, _, pushed⟩
      · cases kept
    · cases observed

theorem lastSeen_refused {cutoff : UInt32} {to_ : K} {before : TimestampCounters} {error : Error}
    (observed : (lastSeenPolicy (σ := σ) refreshValue cutoff).observe from_ to_ old incoming new before =
      .error error) : before.observe from_ to_ old incoming new = .error error :=
  map_eq_error.mp observed

theorem firstSeen_values (holds : ∀ address, valueAt last address =
    firstSeen refreshValue (valueAt olds address) (valueAt coverage address)) :
    FirstSeenValues olds coverage refreshValue last where
  kept address value covered old := by
    rw [holds, old, covered_iff.mp covered]
    rfl
  fresh address covered old := by
    rw [holds, old, covered_iff.mp covered]
    rfl
  gone address uncovered := by
    rw [holds, not_covered.mp uncovered]
    cases valueAt olds address <;> rfl

theorem lastSeen_values {cutoff : UInt32} (holds : ∀ address, valueAt last address =
    lastSeen refreshValue cutoff (valueAt olds address) (valueAt coverage address)) :
    LastSeenValues olds coverage refreshValue cutoff last where
  later address value covered old := by
    rw [holds, old, covered_iff.mp covered]
    rfl
  fresh address covered old := by
    rw [holds, old, covered_iff.mp covered]
    rfl
  kept address value uncovered old later := by
    rw [holds, old, not_covered.mp uncovered]
    exact if_pos later
  gone address uncovered expired := by
    rw [holds, not_covered.mp uncovered]
    cases old : valueAt olds address with
    | none => rfl
    | some value => exact if_neg (UInt32.not_lt.mpr (expired value old))

end Policies

section Removals

variable {sink : List (Removal K) → ρ → Except Error ρ} {start : ρ} {refreshValue : UInt32}
  {log : List (Emission K UInt32 Unit)} {final : FirstSeen (BatchedRemovals K ρ)}
  {olds last : List (Record K)} {coverage : List (Incoming K Unit)}
  {emission : Emission K UInt32 Unit} {removal : Removal K}

def removalOf (emission : Emission K UInt32 Unit) : Option (Removal K) :=
  match emission.old, emission.incoming, IpKey.inclusiveCardinality emission.from_ emission.to_ with
  | some firstSeen, none, .ok addresses =>
    some { from_ := emission.from_, to_ := emission.to_, firstSeen, addresses }
  | _, _, _ => none

theorem removalOf_eq_some : removalOf emission = some removal ↔
    emission.from_ = removal.from_ ∧ emission.to_ = removal.to_ ∧
      emission.old = some removal.firstSeen ∧ emission.incoming = none ∧
      IpKey.inclusiveCardinality removal.from_ removal.to_ = .ok removal.addresses := by
  constructor
  · intro removed
    rw [removalOf] at removed
    split at removed
    · rename_i old incoming sized
      cases removed
      exact ⟨rfl, rfl, old, incoming, sized⟩
    · cases removed
  · rintro ⟨from_, to_, old, incoming, sized⟩
    rw [removalOf, old, incoming, from_, to_, sized]

theorem observe_removals {before after : FirstSeen (BatchedRemovals K ρ)} {removals : List (Removal K)}
    (delivered : Delivered sink start before.removals removals)
    (observed : (firstSeenPolicy (σ := σ) (BatchedRemovals.observer sink) refreshValue).observe
      emission.from_ emission.to_ emission.old emission.incoming emission.new before = .ok after) :
    Delivered sink start after.removals (removals ++ (removalOf emission).toList) := by
  obtain ⟨⟨count, counters⟩, counted, observed⟩ := bind_eq_ok.mp observed
  have sized := (observe_counted counted).1
  simp only [removalOf, sized]
  cases isOld : emission.old with
  | none =>
    rw [isOld] at observed
    cases observed
    simpa using delivered
  | some value =>
    cases isIncoming : emission.incoming with
    | some covered =>
      rw [isOld, isIncoming] at observed
      cases observed
      simpa using delivered
    | none =>
      rw [isOld, isIncoming] at observed
      obtain ⟨removals, pushed, same⟩ := bind_eq_ok.mp observed
      cases same
      exact delivered.push pushed

theorem played_removals {policy : Policy K Unit σ (FirstSeen (BatchedRemovals K ρ))}
    (isPolicy : policy = firstSeenPolicy (BatchedRemovals.observer sink) refreshValue)
    (played : Led policy
      { counters := TimestampCounters.empty, removals := BatchedRemovals.new start } log final) :
    Delivered sink start final.removals (log.filterMap removalOf) := by
  induction played with
  | nil => exact ⟨Nat.zero_lt_succ _, [], Given.nil, rfl⟩
  | @snoc log emission _ _ _ _ asked observed ih =>
    subst isPolicy
    obtain ⟨_, rfl⟩ := (firstSeen_refreshes _ _).asked asked
    have step := observe_removals ih observed
    have single : [emission].filterMap removalOf = (removalOf emission).toList := by
      cases removed : removalOf emission <;> simp [removed]
    rw [filterMap_append, single]
    exact step

theorem removalStream [LawfulIpKey K] (partitions : Partitions olds coverage last log)
    (answered : ∀ emission ∈ log, emission.new =
      firstSeen refreshValue emission.old emission.incoming) :
    RemovalStream olds last (log.filterMap removalOf) where
  ordered := by
    rw [pairwise_filterMap]
    refine partitions.disjoint.imp ?_
    intro earlier later before first isFirst second isSecond
    obtain ⟨_, to_, _⟩ := removalOf_eq_some.mp isFirst
    obtain ⟨from_, _⟩ := removalOf_eq_some.mp isSecond
    rw [← to_, ← from_]
    exact before
  proper removal member := by
    obtain ⟨emission, logged, removed⟩ := mem_filterMap.mp member
    obtain ⟨from_, to_, _⟩ := removalOf_eq_some.mp removed
    rw [← from_, ← to_]
    exact partitions.proper emission logged
  covered address := by
    constructor
    · rintro ⟨removal, member, low, high⟩
      obtain ⟨emission, logged, removed⟩ := mem_filterMap.mp member
      obtain ⟨from_, to_, old, incoming, _⟩ := removalOf_eq_some.mp removed
      have covers : emission.Covers address := ⟨from_ ▸ low, to_ ▸ high⟩
      obtain ⟨isOld, _, isNew⟩ := partitions.held emission logged address covers
      rw [← isOld, ← isNew, answered emission logged, old, incoming]
      exact ⟨Option.some_ne_none _, rfl⟩
    · rintro ⟨present, absent⟩
      obtain ⟨emission, logged, covers⟩ := (partitions.covered address).mpr (Or.inl present)
      obtain ⟨isOld, _, isNew⟩ := partitions.held emission logged address covers
      obtain ⟨value, held⟩ := Option.ne_none_iff_exists'.mp present
      have old : emission.old = some value := isOld.trans held
      -- a covered address keeps its value, so an emission without one has no input
      have incoming : emission.incoming = none := by
        have new := answered emission logged
        rw [isNew, absent, old] at new
        cases isIncoming : emission.incoming with
        | none => rfl
        | some covered =>
          rw [isIncoming] at new
          cases new
      have sized := LawfulIpKey.cardinality _ _ (partitions.proper emission logged)
      let removal : Removal K := { from_ := emission.from_, to_ := emission.to_, firstSeen := value
                                   addresses := size emission }
      have removed : removalOf emission = some removal :=
        removalOf_eq_some.mpr ⟨rfl, rfl, old, incoming, sized⟩
      exact ⟨removal, mem_filterMap.mpr ⟨emission, logged, removed⟩, covers⟩
  held removal member address low high := by
    obtain ⟨emission, logged, removed⟩ := mem_filterMap.mp member
    obtain ⟨from_, to_, old, _⟩ := removalOf_eq_some.mp removed
    have covers : emission.Covers address := ⟨from_ ▸ low, to_ ▸ high⟩
    rw [← (partitions.held emission logged address covers).1, old]
  counted removal member := by
    obtain ⟨emission, _, removed⟩ := mem_filterMap.mp member
    exact (removalOf_eq_some.mp removed).2.2.2.2

end Removals

section Refresh

variable [LawfulIpKey K] [MergeStore σ]

structure Setting (K σ : Type) [IpKey K] [MergeStore σ] where
  laws : MergeLaws σ
  frame : Heap
  base : Base
  olds : List (Record K)
  basePages : List Nat
  opening : UInt32 → Int

structure Setting.Valid (setting : Setting K σ) : Prop where
  base : BaseAt setting.frame setting.base setting.olds setting.basePages
  earlier : setting.base.txnId < setting.laws.txn
  direct : setting.base.valueKind = .direct

def Setting.Fails (setting : Setting K σ) (coverage : List (Incoming K Unit)) (error : Error)
    (state : σ) : Prop :=
  setting.laws.Fails error state ∨
    2 ^ 64 ≤ coverage.length ∧ error = .arithmeticOverflow countContext

/-- A canonical tree of `last` where the base tree was, whose pages are retired. -/
structure Refreshed (setting : Setting K σ) (coverage : List (Incoming K Unit)) (last : List (Record K))
    (result : TimestampMerge O) (reached : σ) : Prop where
  canonical : Canonical last
  counted : result.rangeRecordCount = last.length
  intervals : result.inputIntervals = coverage.length
  retired : result.baseRangeTreeRetired = true
  compared : result.counters.comparison.Unchanged ↔ valueAt last = valueAt setting.olds
  stands : Stands setting.laws.toRangeLaws (rangeCodec K)
    (fun address => if address ∈ setting.basePages then none else setting.frame address)
    result.rangeRoot (recordItems last) setting.opening reached

variable {setting : Setting K σ} {state : σ} {heap : Heap} {coverage : List (Incoming K Unit)}
  {policy : Policy K Unit σ π} {value : Option UInt32 → Option Unit → Option UInt32}
  {counters : π → TimestampCounters} {refuses : Error → Prop}

theorem Refreshes.valid (start : π) (refreshes : Refreshes policy value counters)
    (fresh : counters start = TimestampCounters.empty) (valid : setting.Valid)
    (refused : ∀ {from_ to_ old incoming new before error},
      policy.observe from_ to_ old incoming new before = .error error →
        (counters before).observe from_ to_ old incoming new = .error error ∨ refuses error) :
    Job.Valid ({ setting with policy, start, refuses } : Job K Unit σ π) where
  base := valid.base
  earlier := valid.earlier
  transform {state heap} old incoming before owns := by
    simp only [refreshes.transform, ensures_pure]
    exact ⟨owns, trivial⟩
  observe {log emission before between error} inOrder played asked failed := by
    obtain ⟨_, rfl⟩ := refreshes.asked asked
    obtain ⟨result, counted⟩ := refreshes.counts fresh played inOrder
    rcases refused failed with overflow | refused
    · rw [counted] at overflow
      cases overflow
    · exact refused
  preserve preserves := by
    rw [refreshes.rebuilds] at preserves
    cases preserves

theorem mergeTimestampFamily_spec (start : π) (finish : π → Except Error (TimestampCounters × O))
    (refuses : Error → Prop) (valid : setting.Valid) (separate : Separate coverage)
    (owning : Owning (setting.laws.counting setting.opening) setting.frame [] heap state)
    (refreshes : Refreshes policy value counters) (fresh : counters start = TimestampCounters.empty)
    (refused : ∀ {from_ to_ old incoming new before error},
      policy.observe from_ to_ old incoming new before = .error error →
        (counters before).observe from_ to_ old incoming new = .error error ∨ refuses error)
    (finishes : ∀ {final output}, (counters final).finish = .ok output →
      (∃ removals, finish final = .ok (output, removals)) ∨
        ∃ error, finish final = .error error ∧ refuses error) :
    Ensures (mergeTimestampFamily setting.base policy start finish coverage) state
      (fun result reached => ∃ log last final, Refreshed setting coverage last result reached ∧
        Led policy start log final ∧ Partitions setting.olds coverage last log ∧
        finish final = .ok (result.counters, result.removals))
      (fun error reached => setting.Fails coverage error reached ∨ refuses error) := by
  rw [mergeTimestampFamily, ensures_bind]
  have merged := merge_spec (refreshes.valid start fresh valid refused) coverage separate owning
  refine (mergeCoverage_of_merge merged).mono ?_ ?_
  · rintro ⟨inputIntervals, finished⟩ reached
      ⟨intervals, log, last, canonical, counted, partitions, leaves⟩
    have rebuilt : ¬ (coverage = [] ∧ policy.preserveWithoutInput = true) := by
      rw [refreshes.rebuilds]
      simp
    rw [Leaves, if_neg rebuilt] at leaves
    obtain ⟨played, retired, total, stands, sums⟩ := leaves
    have unchanged : total = setting.opening := by
      funext id
      have plain : decide (setting.base.valueKind = .membership) = false := by
        rw [valid.direct]
        rfl
      rw [sums id, Job.counting, plain]
      simp
    subst unchanged
    obtain ⟨output, ended, same⟩ := refreshes.finished fresh played partitions
    rw [ensures_bind]
    rcases finishes ended with ⟨removals, done⟩ | ⟨error, failed, why⟩
    · rw [done, ensures_liftResult_ok, ensures_pure]
      exact ⟨log, last, finished.policy, ⟨canonical, counted, intervals, retired, same, stands⟩, played,
        partitions, done⟩
    · rw [failed, ensures_liftResult_error]
      exact Or.inr why
  · rintro error reached ((store | ⟨zero, _⟩ | policy) | overflow)
    · exact Or.inl (Or.inl store)
    · exact absurd valid.direct zero.1
    · exact Or.inr policy
    · exact Or.inl (Or.inr overflow)

theorem mergeFirstSeenInto_spec (valid : setting.Valid) (separate : Separate coverage)
    (owning : Owning (setting.laws.counting setting.opening) setting.frame [] heap state)
    (observer : RemovalObserver K O) (refreshValue : UInt32) (removals : O) :
    Ensures (mergeFirstSeenInto setting.base observer refreshValue removals coverage) state
      (fun result reached => ∃ log last final, Refreshed setting coverage last result reached ∧
        FirstSeenValues setting.olds coverage refreshValue last ∧
        Led (firstSeenPolicy (σ := σ) observer refreshValue)
          { counters := TimestampCounters.empty, removals } log final ∧
        Partitions setting.olds coverage last log ∧
        observer.finish final.removals = .ok result.removals)
      (fun error reached => setting.Fails coverage error reached ∨
        (∃ removal before, observer.push removal before = .error error) ∨
        ∃ before, observer.finish before = .error error) := by
  let refuses (error : Error) : Prop :=
    (∃ removal before, observer.push removal before = .error error) ∨
      ∃ before, observer.finish before = .error error
  have refreshes := firstSeen_refreshes (σ := σ) observer refreshValue
  have run := mergeTimestampFamily_spec { counters := TimestampCounters.empty, removals }
    (FirstSeen.finish observer) refuses valid separate owning refreshes rfl ?_ ?_
  · refine run.imp ?_
    rintro result reached ⟨log, last, final, refreshed, led, partitions, finished⟩
    have values := firstSeen_values (refreshes.pointwise led partitions)
    refine ⟨log, last, final, refreshed, values, led, partitions, ?_⟩
    obtain ⟨given, ended, finished⟩ := bind_eq_ok.mp finished
    obtain ⟨output, _, same⟩ := bind_eq_ok.mp finished
    cases same
    exact ended
  · intro from_ to_ old incoming new before error observed
    exact (firstSeen_refused observed).imp_right Or.inl
  · intro final output counted
    rw [FirstSeen.finish]
    cases ended : observer.finish final.removals with
    | error error => exact Or.inr ⟨error, rfl, Or.inr ⟨_, ended⟩⟩
    | ok given =>
      refine Or.inl ⟨given, ?_⟩
      rw [counted]
      rfl

/-- A refresh settles every address from what it held and whether it is covered now.
First-seen values stay while an address is covered. Last-seen values never go back: a
covered address takes the later of its old value and the refresh, and an uncovered one is
dropped once its value is not after the cutoff. The records a first-seen refresh hands to
a sink, batch after batch, are a stream of exactly what it removed. -/
theorem timestamp_refreshes (valid : setting.Valid) (separate : Separate coverage)
    (owning : Owning (setting.laws.counting setting.opening) setting.frame [] heap state)
    (refreshValue cutoff : UInt32) (sink : List (Removal K) → ρ → Except Error ρ) (start : ρ) :
    Ensures (mergeFirstSeen setting.base refreshValue coverage) state
      (fun result reached => ∃ last, Refreshed setting coverage last result reached ∧
        FirstSeenValues setting.olds coverage refreshValue last) (setting.Fails coverage) ∧
    Ensures (mergeFirstSeenWithRemovals setting.base sink refreshValue start coverage) state
      (fun result reached => ∃ last batches, Refreshed setting coverage last result reached ∧
        FirstSeenValues setting.olds coverage refreshValue last ∧
        Given sink start batches result.removals.sink ∧
        RemovalStream setting.olds last batches.flatten)
      (fun error reached => setting.Fails coverage error reached ∨
        ∃ batch before, sink batch before = .error error) ∧
    Ensures (mergeLastSeen setting.base refreshValue cutoff coverage) state
      (fun result reached => ∃ last, Refreshed setting coverage last result reached ∧
        LastSeenValues setting.olds coverage refreshValue cutoff last) (setting.Fails coverage) := by
  refine ⟨?_, ?_, ?_⟩
  · refine (mergeFirstSeenInto_spec valid separate owning noRemovals refreshValue ()).mono ?_ ?_
    · rintro result reached ⟨_, last, _, refreshed, values, _⟩
      exact ⟨last, refreshed, values⟩
    · rintro error reached (failed | ⟨_, _, pushed⟩ | ⟨_, finished⟩)
      · exact failed
      · cases pushed
      · cases finished
  · refine (mergeFirstSeenInto_spec valid separate owning (BatchedRemovals.observer sink) refreshValue
      (BatchedRemovals.new start)).mono ?_ ?_
    · rintro result reached ⟨log, last, final, refreshed, values, led, partitions, finished⟩
      obtain ⟨-, batches, given, all⟩ := (played_removals rfl led).finish finished
      have stream := removalStream partitions ((firstSeen_refreshes _ _).answered led)
      exact ⟨last, batches, refreshed, values, given, all ▸ stream⟩
    · rintro error reached (failed | ⟨_, _, pushed⟩ | ⟨_, finished⟩)
      · exact Or.inl failed
      · exact Or.inr (push_refused pushed)
      · exact Or.inr (flush_refused finished)
  · have refreshes := lastSeen_refreshes (K := K) (σ := σ) refreshValue cutoff
    have run := mergeTimestampFamily_spec TimestampCounters.empty lastSeenFinish (fun _ => False)
      valid separate owning refreshes rfl ?_ ?_
    · refine run.mono ?_ fun _ _ failed => failed.resolve_right not_false
      rintro result reached ⟨_, last, _, refreshed, led, partitions, _⟩
      exact ⟨last, refreshed, lastSeen_values (refreshes.pointwise led partitions)⟩
    · intro from_ to_ old incoming new before error observed
      exact Or.inl (lastSeen_refused observed)
    · intro final output counted
      have done : lastSeenFinish final = .ok (output, ()) := by
        rw [lastSeenFinish, show final.finish = .ok output from counted]
        rfl
      exact Or.inl ⟨(), done⟩

end Refresh

def sampleSetting : Setting Ipv4Key (Logged Workspace) where
  laws := draftMergeLaws 7 Workspace.sampleTxn_positive Workspace.sampleTxn_word
  frame := RangeMerge.sampleHeap
  base := sampleBase
  olds := [sampleOld]
  basePages := [2]
  opening _ := 0

def sampleCoverage : List (Incoming Ipv4Key Unit) := [{ from_ := ⟨15⟩, to_ := ⟨30⟩, value := () }]

def lastSeenCells (refreshValue cutoff : UInt32) (coverage : List (Incoming Ipv4Key Unit)) :
    Option (Option (List Bytes)) :=
  match mergeLastSeen (σ := Logged Workspace) sampleBase refreshValue cutoff coverage sampleDraft with
  | .ok result reached =>
    some (if result.rangeRoot = 0 then none
      else some (reached.store.mapping result.rangeRoot).cells)
  | .error _ _ => none

theorem last_seen_is_monotonic :
    lastSeenCells 0 0 [{ from_ := ⟨10⟩, to_ := ⟨20⟩, value := () }] = some (some [sampleEntry.cell]) ∧
      lastSeenCells 5 1 [] = some none := by
  constructor <;> decide +kernel

theorem sampleSetting_valid : sampleSetting.Valid where
  base := sample_base .direct
  earlier := sample_valid.earlier
  direct := rfl

def keeping (batch : List (Removal Ipv4Key)) (kept : List (Removal Ipv4Key)) :
    Except Error (List (Removal Ipv4Key)) := .ok (kept ++ batch)

theorem timestamp_refreshes_sample :
    (∃ result reached, mergeFirstSeenWithRemovals sampleBase keeping 9 [] sampleCoverage sampleDraft =
      .ok result reached ∧ result.removals.sink =
        [{ from_ := ⟨10⟩, to_ := ⟨14⟩, firstSeen := 1, addresses := 5 }] ∧
      ∃ last batches, FirstSeenValues [sampleOld] sampleCoverage 9 last ∧
        Given keeping [] batches result.removals.sink ∧
        RemovalStream [sampleOld] last batches.flatten) ∧
    ∃ result reached, mergeLastSeen sampleBase 9 0 sampleCoverage sampleDraft = .ok result reached ∧
      result.rangeRecordCount = 2 ∧ ∃ last, LastSeenValues [sampleOld] sampleCoverage 9 0 last := by
  have separate : Separate sampleCoverage := ⟨pairwise_singleton _ _, by decide⟩
  obtain ⟨_, removing, seeing⟩ :=
    timestamp_refreshes sampleSetting_valid separate sample_owning 9 0 keeping []
  have removed : observed (fun result _ => result.removals.sink)
      (mergeFirstSeenWithRemovals sampleBase keeping 9 [] sampleCoverage sampleDraft) =
      some [{ from_ := ⟨10⟩, to_ := ⟨14⟩, firstSeen := 1, addresses := 5 }] := by decide +kernel
  have seen : observed (fun result _ => result.rangeRecordCount)
      (mergeLastSeen sampleBase 9 0 sampleCoverage sampleDraft) = some 2 := by decide +kernel
  constructor
  · obtain ⟨result, reached, outcome, sunk⟩ := exists_ok_of_observed removed
    obtain ⟨last, batches, _, values, given, stream⟩ := removing.ok outcome
    exact ⟨result, reached, outcome, sunk, last, batches, values, given, stream⟩
  · obtain ⟨result, reached, outcome, count⟩ := exists_ok_of_observed seen
    obtain ⟨last, _, values⟩ := seeing.ok outcome
    exact ⟨result, reached, outcome, count, last, values⟩

end IpRange.TimestampRefresh
