import IpRange.RangeBulk
import IpRange.RangeMergeCore
import IpRange.RangeMutation
import IpRange.Library.Sweep

/-!
The ordered merge computes a pointwise combination of two partial functions. Its
emissions are disjoint intervals in order that cover what the base or the input
covers; the output holds what the policy gave for each.
-/

set_option linter.unusedSectionVars false

namespace IpRange

open List

structure MergeLaws (σ : Type) [MergeStore σ] extends RangeLaws σ where
  track : ∀ {state heap}, Owns state heap → ∀ id change,
    Ensures (MergeStore.trackMembershipRefcount id change) state (fun _ reached => Owns reached heap ∧
      tally reached = Function.update (tally state) id (tally state id + change)) Fails

namespace RangeMerge

open FixedTree RangeBulk

variable {K V σ π : Type} [IpKey K]

section Reading

variable [Store σ] {laws : StoreLaws σ} {frame heap : Heap} {pages : List Nat} {state : σ}

def restrict (pages : List Nat) (heap : Heap) : Heap := fun address =>
  if address ∈ pages then heap address else none

structure BaseAt (frame : Heap) (base : Base) (olds : List (Record K))
    (basePages : List Nat) : Prop where
  tree : ∃ entries : List (Entry (rangeCodec K)),
    RootAt frame base.txnId base.rangeRoot entries basePages ∧ entries.map Entry.item = recordItems olds
  nodup : basePages.Nodup
  canonical : Canonical olds
  counted : base.rangeRecordCount = olds.length
  inside : ∀ address ∈ basePages, 2 ≤ address ∧ address < base.pageCount
  limit : base.pageCount ≤ 2 ^ 32

variable {basePages : List Nat}

theorem BaseAt.length_le {base : Base} {olds : List (Record K)}
    (at_ : BaseAt frame base olds basePages) : olds.length ≤ 2 ^ 32 * pageSize := by
  obtain ⟨entries, tree, items⟩ := at_.tree
  have few : basePages.length ≤ 2 ^ 32 := length_le_of_nodup at_.nodup fun address member =>
    lt_of_lt_of_le (at_.inside address member).2 at_.limit
  have count : entries.length = olds.length := by
    have lengths := congrArg List.length items
    simpa [recordItems] using lengths
  rw [← count]
  exact le_trans tree.length_le (Nat.mul_le_mul_right pageSize few)

def Reading (base : Base) (frame : Heap) (basePages : List Nat) (cursor : Cursor)
    (records : List (Record K)) : Prop :=
  ∃ entries : List (Entry (rangeCodec K)), entries.map Entry.leaf = records ∧
    ∀ state : σ, Remains ({ store := state, txnId := base.txnId, pageCount := base.pageCount } :
      Selected σ) base.txnId (restrict basePages frame) cursor entries

theorem views_base {base : Base}
    (inside : ∀ address ∈ basePages, 2 ≤ address ∧ address < base.pageCount)
    (limit : base.pageCount ≤ 2 ^ 32) (owning : Owning laws frame pages heap state) :
    Views ({ store := state, txnId := base.txnId, pageCount := base.pageCount } : Selected σ)
      base.txnId (restrict basePages frame) := by
  have member : ∀ {address page}, restrict basePages frame address = some page →
      address ∈ basePages ∧ frame address = some page := by
    intro address page stored
    unfold restrict at stored
    split at stored
    · exact ⟨‹_›, stored⟩
    · cases stored
  refine ⟨rfl, limit, fun stored => inside _ (member stored).1, fun {address page} stored => ?_⟩
  obtain ⟨inBase, held⟩ := member stored
  obtain ⟨low, high⟩ := inside address inBase
  have bounded : ¬ (address < 2 ∨ base.pageCount ≤ address) := by omega
  simp only [PageSource.viewPage, if_neg bounded]
  exact laws.inspect owning.owns (owning.frame_le held)

theorem selected_run {α : Type} {txnId pageCount : Nat} {program : EStateM Error (Selected σ) α}
    {post : α → σ → Prop} {fail : Error → σ → Prop}
    (run : Ensures program { store := state, txnId, pageCount }
      (fun value reached => post value reached.store) fun error reached => fail error reached.store) :
    Ensures (Selected.run txnId pageCount program) state post fail := by
  unfold Ensures at run ⊢
  unfold Selected.run
  cases outcome : program { store := state, txnId, pageCount } with
  | ok value reached =>
    rw [outcome] at run
    exact run
  | error error reached =>
    rw [outcome] at run
    exact run

end Reading

section ReadNext

variable [LawfulIpKey K] [MergeStore σ] {laws : StoreLaws σ} {frame heap : Heap} {pages : List Nat}
  {state : σ} {base : Base} {basePages : List Nat} {records : List (Record K)}

theorem readNext_spec {cursor : Cursor} {fail : Error → σ → Prop}
    (inside : ∀ address ∈ basePages, 2 ≤ address ∧ address < base.pageCount)
    (limit : base.pageCount ≤ 2 ^ 32) (owning : Owning laws frame pages heap state)
    (reading : Reading (σ := σ) base frame basePages cursor records) :
    Ensures (readNext base cursor) state (fun result reached => reached = state ∧
      result.1 = records.head? ∧
      Reading (σ := σ) base frame basePages result.2 records.tail) fail := by
  obtain ⟨entries, rfl, remains⟩ := reading
  refine selected_run ((nextInner_spec readLeafItem_reads
    rangeCodec_lawful (views_base inside limit owning) (remains state)).imp ?_)
  rintro ⟨found, cursor⟩ reached ⟨rfl, isFound, -, rest⟩
  refine ⟨rfl, ?_, entries.tail, by simp, fun other => rest.elsewhere rfl⟩
  rw [isFound, head?_map]

end ReadNext

section Counts

variable [MergeStore σ] {laws : MergeLaws σ} {heap : Heap} {state : σ}

def waiting (run : Option RefcountRun) (value : UInt32) : Int :=
  match run.bind RefcountRun.current with
  | some (id, count) => if value = id then count else 0
  | none => 0

/-- How often the run has seen its value. -/
def backlog (run : Option RefcountRun) : Nat :=
  ((run.bind RefcountRun.current).map Prod.snd).getD 0

theorem flush_spec (run : RefcountRun) (sign : Int) (owns : laws.Owns state heap)
    (small : backlog (some run) < 2 ^ 63) :
    Ensures (run.flush sign) state (fun next reached => next.current = none ∧
      laws.Owns reached heap ∧ ∀ value, laws.tally reached value =
        laws.tally state value + sign * waiting (some run) value) laws.Fails := by
  rcases run with ⟨_ | ⟨id, count⟩⟩
  · exact ⟨rfl, owns, by simp [waiting]⟩
  · have fits : count < 2 ^ 63 := small
    simp only [RefcountRun.flush, if_pos fits]
    rw [ensures_bind]
    refine (laws.track owns id _).imp ?_
    rintro _ reached ⟨owned, tallied⟩
    rw [ensures_pure]
    refine ⟨rfl, owned, fun value => ?_⟩
    rw [tallied]
    by_cases same : value = id
    · subst same
      simp [waiting, mul_comm]
    · simp [waiting, same]

theorem flushAll_spec (run : Option RefcountRun) (sign : Int) (owns : laws.Owns state heap)
    (small : backlog run < 2 ^ 63) :
    Ensures (RefcountRun.flushAll run sign) state (fun _ reached => laws.Owns reached heap ∧
      ∀ value, laws.tally reached value = laws.tally state value + sign * waiting run value)
      laws.Fails := by
  cases run with
  | none => exact ⟨owns, by simp [waiting]⟩
  | some run =>
    rw [RefcountRun.flushAll, ensures_map]
    exact (flush_spec run sign owns small).imp fun _ _ post => post.2

theorem addTo_spec (run : Option RefcountRun) (id : UInt32) (sign : Int)
    (owns : laws.Owns state heap) (small : backlog run + 1 < 2 ^ 63) :
    Ensures (RefcountRun.addTo run id sign) state (fun next reached =>
      next.isSome = run.isSome ∧ backlog next ≤ backlog run + 1 ∧ laws.Owns reached heap ∧
      ∀ value, laws.tally reached value + sign * waiting next value =
        laws.tally state value + sign * waiting run value +
          sign * (if run.isSome ∧ value = id then 1 else 0)) laws.Fails := by
  rcases run with _ | ⟨_ | ⟨current, count⟩⟩
  · exact ⟨rfl, Nat.le_succ _, owns, by simp [waiting]⟩
  · rw [RefcountRun.addTo, ensures_map]
    exact ⟨rfl, le_rfl, owns, by simp [waiting]⟩
  · have bounded : count + 1 < 2 ^ 63 := small
    have fits : count + 1 < 2 ^ 64 := by omega
    rw [RefcountRun.addTo, ensures_map]
    simp only [RefcountRun.add, if_pos fits]
    split
    · rename_i same
      rw [ensures_pure]
      refine ⟨rfl, le_rfl, owns, fun value => ?_⟩
      by_cases here : value = id
      · subst same here
        simp [waiting]
        ring
      · subst same
        simp [waiting, here]
    · rw [ensures_bind]
      refine (flush_spec _ sign owns (Nat.lt_of_succ_lt small)).imp ?_
      rintro _ reached ⟨-, owned, tallied⟩
      rw [ensures_pure]
      refine ⟨rfl, Nat.le_add_left _ _, owned, fun value => ?_⟩
      rw [tallied]
      simp [waiting]

end Counts

section Writing

open RangeMutation (holding)

variable [LawfulIpKey K] [MergeStore σ] {laws : MergeLaws σ} {frame : Heap} {state : σ}
  {output : Output K} {done : List (Record K)} {log : List (Emission K UInt32 V)}
  {total : UInt32 → Int}

def owed (output : Output K) (done : List (Record K)) (total : UInt32 → Int) (value : UInt32) : Int :=
  total value + waiting output.refcounts value -
    if output.refcounts.isSome then holding done value else 0

variable (laws) in
/-- The store's own failures, and zero for a value where values are names. -/
def OutputFails (kind : ValueKind) (log : List (Emission K UInt32 V)) (error : Error) (state : σ) :
    Prop :=
  laws.Fails error state ∨ (kind ≠ .direct ∧ ∃ emission ∈ log, emission.new = some 0) ∧
    error = .corrupt "indirect range value is zero"

variable {builder : Builder K}

theorem building_carry (building : Building (laws.counting total) frame builder done state) :
    ∃ heap, laws.Owns state heap ∧ laws.tally state = total ∧ ∀ {reached changed},
      laws.Owns reached heap → laws.tally reached = changed →
      Building (laws.counting changed) frame builder done reached := by
  obtain ⟨born, counted, last, canonical, heap, entries, pages, owning, placed, items⟩ := building
  refine ⟨heap, owning.owns.1, owning.owns.2, fun owned tallied => ?_⟩
  exact ⟨born, counted, last, canonical, heap, entries, pages,
    ⟨⟨owned, tallied⟩, owning.nodup, owning.held, owning.framed⟩, placed, items⟩

theorem holding_concat (done : List (Record K)) (record : Record K) (value : UInt32) :
    holding (done ++ [record]) value = holding done value + if value = record.value then 1 else 0 := by
  by_cases same : record.value = value
  · simp [holding, same]
  · simp [holding, same, Ne.symm same]

theorem builder_push_spec {record : Record K}
    (building : Building (laws.counting total) frame builder done state)
    (whole : Canonical (done ++ [record]))
    (given : ∃ emission ∈ log, emission.new = some record.value) :
    Ensures (builder.push record) state (fun next reached =>
      next.valueKind = builder.valueKind ∧
        Building (laws.counting total) frame next (done ++ [record]) reached)
      (OutputFails laws builder.valueKind log) := by
  have proper : record.from_ ≤ record.to_ := whole.proper record (by simp)
  rw [Builder.push, ensures_bind]
  by_cases named : builder.valueKind = .direct ∨ record.value ≠ 0
  · refine (tryPush_spec building proper named).impOr ?_
    rintro ⟨pushed, next⟩ reached (⟨rfl, kind, built⟩ | ⟨-, -, -, refused⟩)
    · exact ⟨kind, built⟩
    · exact absurd whole refused
  · have zero : builder.valueKind ≠ .direct ∧ record.value = 0 := by tauto
    have refused : builder.canAppend record = .error (.corrupt "indirect range value is zero") := by
      rw [Builder.canAppend, if_neg (not_lt.mpr proper), if_pos zero]
    rw [zero.2] at given
    rw [Builder.tryPush, refused, ensures_bind, ensures_liftResult_error]
    exact Or.inr ⟨⟨zero.1, given⟩, rfl⟩

theorem output_push_spec {record : Record K}
    (building : Building (laws.counting total) frame output.builder done state)
    (whole : Canonical (done ++ [record]))
    (given : ∃ emission ∈ log, emission.new = some record.value)
    (few : backlog output.refcounts ≤ done.length) :
    Ensures (output.push record) state (fun next reached => next.pending = output.pending ∧
      next.builder.valueKind = output.builder.valueKind ∧
      next.refcounts.isSome = output.refcounts.isSome ∧
      backlog next.refcounts ≤ (done ++ [record]).length ∧ ∃ changed,
        Building (laws.counting changed) frame next.builder (done ++ [record]) reached ∧
        owed next (done ++ [record]) changed = owed output done total)
      (OutputFails laws output.builder.valueKind log) := by
  obtain ⟨heap, owns, isTotal, carry⟩ := building_carry building
  have bound := building_few building
  have small : backlog output.refcounts + 1 < 2 ^ 63 := by
    simp only [pageSize] at bound
    omega
  rw [Output.push, ensures_bind]
  refine (addTo_spec output.refcounts record.value 1 owns small).impOr ?_
  rintro refcounts reached ⟨same, more, owned, tallied⟩
  refine Ensures.bind (builder_push_spec (carry owned rfl) whole given) ?_
  rintro builder finished ⟨kind, built⟩
  rw [ensures_pure]
  refine ⟨rfl, kind, same, ?_, _, built, ?_⟩
  · rw [length_append, length_singleton]
    exact le_trans more (Nat.succ_le_succ few)
  funext value
  have moved := tallied value
  rw [isTotal] at moved
  simp only [owed, same, holding_concat, one_mul] at moved ⊢
  by_cases counts : output.refcounts.isSome
  · simp only [counts, true_and, if_true] at moved ⊢
    omega
  · simp only [counts, Bool.false_eq_true, false_and, if_false] at moved ⊢
    omega

/-- An output given the emissions of `log`: the records built and the one that waits stand for
what these gave each address. -/
structure Writing (laws : MergeLaws σ) (frame : Heap) (output : Output K) (done : List (Record K))
    (log : List (Emission K UInt32 V)) (total : UInt32 → Int) (state : σ) : Prop where
  building : Building (laws.counting total) frame output.builder done state
  canonical : Canonical (done ++ output.pending.toList)
  opened : output.pending = none → done = []
  holds : ∀ address, valueAt (done ++ output.pending.toList) address = newAt log address
  reached : ∀ record ∈ done ++ output.pending.toList, ∃ emission ∈ log,
    record.to_ ≤ emission.to_ ∧ emission.new = some record.value
  few : backlog output.refcounts ≤ done.length

section

variable (writing : Writing laws frame output done log total state)

include writing

theorem Writing.carry :
    ∃ heap, laws.Owns state heap ∧ laws.tally state = total ∧ ∀ {reached changed},
      laws.Owns reached heap → laws.tally reached = changed →
      Writing laws frame output done log changed reached := by
  obtain ⟨heap, owns, isTotal, carry⟩ := building_carry writing.building
  exact ⟨heap, owns, isTotal, fun owned tallied =>
    ⟨carry owned tallied, writing.canonical, writing.opened, writing.holds, writing.reached,
      writing.few⟩⟩

theorem Writing.skip {emission : Emission K UInt32 V}
    (follows : ∀ earlier ∈ log, earlier.to_ < emission.from_) (nothing : emission.new = none) :
    Writing laws frame output done (log ++ [emission]) total state where
  building := writing.building
  canonical := writing.canonical
  opened := writing.opened
  holds address := by
    rw [newAt_concat follows, nothing]
    split
    · rename_i covers
      rw [valueAt_eq_none]
      intro record member inside
      obtain ⟨earlier, logged, bound, -⟩ := writing.reached record member
      exact absurd (lt_of_le_of_lt (le_trans inside.2 bound) (follows earlier logged))
        (not_lt.mpr covers.1)
    · exact writing.holds address
  reached record member := by
    obtain ⟨earlier, logged, bound⟩ := writing.reached record member
    exact ⟨earlier, mem_append_left _ logged, bound⟩
  few := writing.few

theorem Writing.before {from_ : K} (follows : ∀ earlier ∈ log, earlier.to_ < from_) :
    ∀ record ∈ done ++ output.pending.toList, record.to_ < from_ := by
  intro record member
  obtain ⟨earlier, logged, bound, -⟩ := writing.reached record member
  exact lt_of_le_of_lt bound (follows earlier logged)

end

section Emit

variable {from_ to_ : K} {old : Option UInt32} {incoming : Option V} {value : UInt32}

theorem holds_concat {records : List (Record K)} (canonical : Canonical records)
    (follows : ∀ earlier ∈ log, earlier.to_ < from_)
    (here : ∃ record ∈ records, record.value = value ∧
      ∀ address, from_ ≤ address → address ≤ to_ → record.Covers address)
    (elsewhere : ∀ address, ¬ (from_ ≤ address ∧ address ≤ to_) →
      valueAt records address = newAt log address) (address : K) :
    valueAt records address = newAt (log ++ [⟨from_, to_, old, incoming, some value⟩]) address := by
  rw [newAt_concat follows]
  split
  · rename_i covers
    obtain ⟨record, member, rfl, inside⟩ := here
    exact canonical.valueAt_of_mem member (inside address covers.1 covers.2)
  · rename_i outside
    exact elsewhere address outside

section

variable (writing : Writing laws frame output done log total state)

include writing

theorem Writing.first (nothing : output.pending = none) (proper : from_ ≤ to_)
    (follows : ∀ earlier ∈ log, earlier.to_ < from_) :
    Writing laws frame { output with pending := some ⟨from_, to_, value⟩ } done
      (log ++ [⟨from_, to_, old, incoming, some value⟩]) total state := by
  have none_ := writing.opened nothing
  subst none_
  have canonical : Canonical [(⟨from_, to_, value⟩ : Record K)] :=
    ⟨pairwise_singleton _ _, by simpa using proper⟩
  refine ⟨writing.building, canonical, fun absent => (by cases absent),
    holds_concat canonical follows ⟨⟨from_, to_, value⟩, by simp, rfl,
      fun address low high => ⟨low, high⟩⟩ ?_, ?_, writing.few⟩
  · intro address outside
    have before := writing.holds address
    rw [nothing] at before
    rw [← before]
    exact (valueAt_singleton _ address).trans (if_neg outside)
  · intro record member
    rw [mem_singleton.mp member]
    exact ⟨⟨from_, to_, old, incoming, some value⟩, by simp, le_rfl, rfl⟩

theorem Writing.extend {pending : Record K} (waits : output.pending = some pending)
    (same : pending.value = value) (near : pending.to_ ⋖ from_) (proper : from_ ≤ to_)
    (follows : ∀ earlier ∈ log, earlier.to_ < from_) :
    Writing laws frame { output with pending := some { pending with to_ } } done
      (log ++ [⟨from_, to_, old, incoming, some value⟩]) total state := by
  have canonical := writing.canonical
  have held := writing.holds
  rw [waits] at canonical held
  have own : pending.from_ ≤ pending.to_ := canonical.proper pending (by simp)
  have wide : Canonical (done ++ [{ pending with to_ }]) := by
    refine (canonical.sublist (sublist_append_left _ _)).concat
      (le_trans own (le_trans near.lt.le proper)) ?_
    exact fun last isLast => canonical.follows last isLast
  have adjacent : pending.to_ ⋖ (⟨from_, to_, value⟩ : Record K).from_ := near
  have both := Span.covers_extend_right adjacent proper own
  refine ⟨writing.building, wide, fun absent => (by cases absent),
    holds_concat wide follows ⟨{ pending with to_ }, by simp, same,
      fun address low high => ?_⟩ ?_, ?_, writing.few⟩
  · exact (both address).mpr (Or.inl ⟨low, high⟩)
  · intro address outside
    have off : ¬ (⟨from_, to_, value⟩ : Record K).Covers address := outside
    have covers : ({ pending with to_ } : Record K).Covers address ↔ pending.Covers address := by
      rw [both address, or_iff_right off]
    rw [← held address]
    simp only [Option.toList_some, valueAt_append, valueAt_singleton, covers]
  · intro record member
    rcases mem_append.mp member with isDone | isLast
    · obtain ⟨earlier, logged, bound⟩ := writing.reached record (mem_append_left _ isDone)
      exact ⟨earlier, mem_append_left _ logged, bound⟩
    · rw [mem_singleton.mp isLast]
      exact ⟨⟨from_, to_, old, incoming, some value⟩, by simp, le_rfl, by rw [same]⟩

theorem Writing.replace {pending : Record K} (waits : output.pending = some pending)
    (apart : ¬ (pending.value = value ∧ pending.to_ ⋖ from_)) (proper : from_ ≤ to_)
    (follows : ∀ earlier ∈ log, earlier.to_ < from_) {next : Output K} {changed : UInt32 → Int}
    {reached : σ}
    (built : Building (laws.counting changed) frame next.builder (done ++ [pending]) reached)
    (few : backlog next.refcounts ≤ (done ++ [pending]).length) :
    Writing laws frame { next with pending := some ⟨from_, to_, value⟩ } (done ++ [pending])
      (log ++ [⟨from_, to_, old, incoming, some value⟩]) changed reached := by
  have past := writing.before follows
  have held := writing.holds
  have reaches := writing.reached
  rw [waits] at past held reaches
  have whole : Canonical (done ++ [pending] ++ [⟨from_, to_, value⟩]) := by
    refine built.canonical.concat proper ?_
    intro last isLast
    rw [getLast?_concat] at isLast
    cases isLast
    exact ⟨past pending (by simp), fun same near => apart ⟨same, near⟩⟩
  refine ⟨built, whole, fun absent => (by cases absent),
    holds_concat whole follows ⟨⟨from_, to_, value⟩, by simp, rfl,
      fun address low high => ⟨low, high⟩⟩ ?_, ?_, few⟩
  · intro address outside
    have off : ¬ (⟨from_, to_, value⟩ : Record K).Covers address := outside
    rw [← held address]
    simp only [Option.toList_some]
    rw [valueAt_append, valueAt_singleton, if_neg off]
    simp
  · intro record member
    rcases mem_append.mp member with earlier | isLast
    · obtain ⟨emission, logged, bound⟩ := reaches record earlier
      exact ⟨emission, mem_append_left _ logged, bound⟩
    · rw [mem_singleton.mp isLast]
      exact ⟨⟨from_, to_, old, incoming, some value⟩, by simp, le_rfl, rfl⟩

variable (old incoming) in
theorem output_emit_spec (proper : from_ ≤ to_) (follows : ∀ earlier ∈ log, earlier.to_ < from_) :
    Ensures (output.emit ⟨from_, to_, value⟩) state (fun next reached =>
      next.builder.valueKind = output.builder.valueKind ∧
      next.refcounts.isSome = output.refcounts.isSome ∧ ∃ built changed,
        Writing laws frame next built (log ++ [⟨from_, to_, old, incoming, some value⟩]) changed
          reached ∧ owed next built changed = owed output done total)
      (OutputFails laws output.builder.valueKind log) := by
  rw [Output.emit.eq_def]
  cases waits : output.pending with
  | none =>
    rw [ensures_pure]
    exact ⟨rfl, rfl, done, total, writing.first waits proper follows, rfl⟩
  | some pending =>
    dsimp only
    split
    · rename_i joins
      rw [checkedNext_iff] at joins
      rw [ensures_pure]
      exact ⟨rfl, rfl, done, total, writing.extend waits joins.1 joins.2 proper follows, rfl⟩
    · rename_i apart
      rw [checkedNext_iff] at apart
      have whole := writing.canonical
      obtain ⟨emission, logged, -, given⟩ := writing.reached pending (by simp [waits])
      rw [waits] at whole
      refine Ensures.bind
        (output_push_spec writing.building whole ⟨emission, logged, given⟩ writing.few) ?_
      rintro next reached ⟨-, kind, same, few, changed, built, kept⟩
      rw [ensures_pure]
      exact ⟨kind, same, _, changed, writing.replace waits apart proper follows built few, kept⟩

end

end Emit

end Writing

end RangeMerge

end IpRange
