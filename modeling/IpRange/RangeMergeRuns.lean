import IpRange.RangeMerge

/-!
A whole merge. The sweep keeps what it has emitted apart from what the base and
the input still hold; the output, the log of the policy and the reference counts
follow the emissions. At the end the base tree is given up for the new one.
-/

set_option linter.unusedSectionVars false

namespace IpRange.RangeMerge

open List FixedTree RangeBulk
open RangeMutation (holding)

variable {K V σ π : Type} [IpKey K]

section Job

variable [MergeStore σ]

structure Job (K V σ π : Type) [IpKey K] [MergeStore σ] where
  laws : MergeLaws σ
  frame : Heap
  base : Base
  olds : List (Record K)
  basePages : List Nat
  policy : Policy K V σ π
  start : π
  opening : UInt32 → Int
  refuses : Error → Prop

/-- The policy answers zero on a map whose values are names. -/
def Job.GivesZero (job : Job K V σ π) : Prop :=
  job.base.valueKind ≠ .direct ∧ ∃ old incoming before between state reached,
    job.policy.transform old incoming before state = .ok (some 0, between) reached

def Job.Fails (job : Job K V σ π) (error : Error) (state : σ) : Prop :=
  job.laws.Fails error state ∨
    job.GivesZero ∧ error = .corrupt "indirect range value is zero" ∨ job.refuses error

def Job.counting (job : Job K V σ π) : Bool := job.base.valueKind = .membership

def Asked (policy : Policy K V σ π) (emission : Emission K UInt32 V) (before between : π) : Prop :=
  ∃ state reached, policy.transform emission.old emission.incoming before state =
    .ok (emission.new, between) reached

def Kept (emission : Emission K UInt32 V) (before between : π) : Prop :=
  emission.new = emission.old ∧ between = before

/-- The policy was led through the emissions in order and told of each. -/
inductive Played (policy : Policy K V σ π) (answers : Emission K UInt32 V → π → π → Prop)
    (start : π) : List (Emission K UInt32 V) → π → Prop
  | nil : Played policy answers start [] start
  | snoc {log : List (Emission K UInt32 V)} {emission : Emission K UInt32 V} {before between after : π} :
      Played policy answers start log before → answers emission before between →
      policy.observe emission.from_ emission.to_ emission.old emission.incoming emission.new between =
        .ok after →
      Played policy answers start (log ++ [emission]) after

variable {log : List (Emission K UInt32 V)} {job : Job K V σ π}

theorem Played.asked {policy : Policy K V σ π} {answers : Emission K UInt32 V → π → π → Prop}
    {start last : π} (played : Played policy answers start log last) :
    ∀ emission ∈ log, ∃ before between, answers emission before between := by
  induction played with
  | nil => simp
  | snoc _ answered _ ih =>
    intro emission member
    rcases mem_append.mp member with earlier | isLast
    · exact ih emission earlier
    · rw [mem_singleton.mp isLast]
      exact ⟨_, _, answered⟩

structure InOrder (log : List (Emission K UInt32 V)) : Prop where
  disjoint : log.Pairwise fun earlier later => earlier.to_ < later.from_
  proper : ∀ emission ∈ log, emission.from_ ≤ emission.to_

theorem InOrder.snoc {emission : Emission K UInt32 V} (inOrder : InOrder log)
    (proper : emission.from_ ≤ emission.to_)
    (follows : ∀ earlier ∈ log, earlier.to_ < emission.from_) : InOrder (log ++ [emission]) := by
  refine ⟨pairwise_append.mpr ⟨inOrder.disjoint, pairwise_singleton _ _, ?_⟩, ?_⟩
  · intro earlier member later isLast
    rw [mem_singleton.mp isLast]
    exact follows earlier member
  · intro other member
    rcases mem_append.mp member with earlier | isLast
    · exact inOrder.proper other earlier
    · rw [mem_singleton.mp isLast]
      exact proper

/-- `refuses` has to account for what the policy can refuse in a merge. -/
structure Job.Valid (job : Job K V σ π) : Prop where
  base : BaseAt job.frame job.base job.olds job.basePages
  earlier : job.base.txnId < job.laws.txn
  transform : ∀ {state heap} old incoming before, job.laws.Owns state heap →
    Ensures (job.policy.transform old incoming before) state (fun _ reached =>
      job.laws.Owns reached heap ∧ job.laws.tally reached = job.laws.tally state)
      fun error _ => job.refuses error
  observe : ∀ {log emission before between error}, InOrder (log ++ [emission]) →
    Played job.policy (Asked job.policy) job.start log before →
    Asked job.policy emission before between →
    job.policy.observe emission.from_ emission.to_ emission.old emission.incoming emission.new
      between = .error error → job.refuses error
  preserve : job.policy.preserveWithoutInput = true → ∀ {from_ to_ value before error},
    job.policy.observe from_ to_ (some value) none (some value) before = .error error →
      job.refuses error

def paid (job : Job K V σ π) (ahead : List (Record K)) (value : UInt32) : Int :=
  holding job.olds value - holding ahead value

theorem paid_cons (job : Job K V σ π) (old : Record K) (others : List (Record K)) (value : UInt32) :
    paid job others value = paid job (old :: others) value + if value = old.value then 1 else 0 := by
  by_cases same : old.value = value
  · simp [paid, holding, same]
    omega
  · simp [paid, holding, same, Ne.symm same]

/-- The emissions of `log` are made, and the stored records but those of `ahead` are counted as
gone. -/
structure Emitting (job : Job K V σ π) (log : List (Emission K UInt32 V)) (ahead : List (Record K))
    (merge : OrderedMerge K π) (state : σ) : Prop where
  played : Played job.policy (Asked job.policy) job.start log merge.policy
  counted : merge.output.refcounts.isSome = job.counting ∧ merge.oldRefcounts.isSome = job.counting
  inOrder : InOrder log
  kind : merge.output.builder.valueKind = job.base.valueKind
  few : backlog merge.oldRefcounts + ahead.length ≤ job.olds.length
  written : ∃ done total, Writing job.laws job.frame merge.output done log total state ∧
    ∀ value, owed merge.output done total value - waiting merge.oldRefcounts value =
      job.opening value - if job.counting then paid job ahead value else 0

theorem Emitting.owning {ahead : List (Record K)} {merge : OrderedMerge K π} {state : σ}
    (emitting : Emitting job log ahead merge state) :
    ∃ total pages heap, Owning (job.laws.counting total) job.frame pages heap state := by
  obtain ⟨done, total, writing, _⟩ := emitting.written
  obtain ⟨heap, _, pages, owning, _⟩ := writing.building.built
  exact ⟨total, pages, heap, owning⟩

theorem OutputFails.of_job {last : π} {error : Error} {state : σ}
    (failed : OutputFails job.laws job.base.valueKind log error state)
    (played : Played job.policy (Asked job.policy) job.start log last) : job.Fails error state := by
  rcases failed with failed | ⟨⟨kind, emission, logged, zero⟩, isError⟩
  · exact Or.inl failed
  · obtain ⟨before, between, asked, reached, answered⟩ := played.asked emission logged
    rw [zero] at answered
    exact Or.inr (Or.inl ⟨⟨kind, _, _, before, between, asked, reached, answered⟩, isError⟩)

end Job

section Steps

variable [LawfulIpKey K] [MergeStore σ] {job : Job K V σ π} {state : σ}
  {merge : OrderedMerge K π} {log : List (Emission K UInt32 V)} {ahead : List (Record K)}

theorem place_spec {from_ to_ : K} {new : Option UInt32} (old : Option UInt32)
    (incoming : Option V) {done : List (Record K)} {total : UInt32 → Int}
    (writing : Writing job.laws job.frame merge.output done log total state)
    (proper : from_ ≤ to_) (follows : ∀ earlier ∈ log, earlier.to_ < from_) :
    Ensures (merge.place from_ to_ new) state (fun next reached => ∃ output built changed,
      next = { merge with output } ∧
      output.builder.valueKind = merge.output.builder.valueKind ∧
      output.refcounts.isSome = merge.output.refcounts.isSome ∧
      Writing job.laws job.frame output built (log ++ [⟨from_, to_, old, incoming, new⟩]) changed
        reached ∧ owed output built changed = owed merge.output done total)
      (OutputFails job.laws merge.output.builder.valueKind log) := by
  cases new with
  | none => exact ⟨merge.output, done, total, rfl, rfl, rfl, writing.skip follows rfl, rfl⟩
  | some value =>
    rw [OrderedMerge.place, ensures_bind]
    refine (output_emit_spec old incoming writing proper follows).imp ?_
    rintro output reached ⟨kind, same, built, changed, written, kept⟩
    exact ⟨output, built, changed, rfl, kind, same, written, kept⟩

theorem emit_spec (valid : job.Valid) {from_ to_ : K} (old : Option UInt32) (incoming : Option V)
    (emitting : Emitting job log ahead merge state) (proper : from_ ≤ to_)
    (follows : ∀ earlier ∈ log, earlier.to_ < from_) :
    Ensures (merge.emit job.policy from_ to_ old incoming) state (fun next reached =>
      ∃ new output policy, next = { merge with output, policy } ∧
        Emitting job (log ++ [⟨from_, to_, old, incoming, new⟩]) ahead next reached) job.Fails := by
  obtain ⟨done, total, writing, balance⟩ := emitting.written
  obtain ⟨heap, owns, isTotal, carry⟩ := writing.carry
  have asked := valid.transform old incoming merge.policy owns
  rw [OrderedMerge.emit, ensures_bind]
  unfold Ensures at asked ⊢
  cases outcome : job.policy.transform old incoming merge.policy state with
  | error error reached =>
    rw [outcome] at asked
    exact Or.inr (Or.inr asked)
  | ok answer reached =>
    obtain ⟨new, between⟩ := answer
    rw [outcome] at asked
    obtain ⟨owned, tallied⟩ := asked
    have inOrder : InOrder (log ++ [⟨from_, to_, old, incoming, new⟩]) :=
      emitting.inOrder.snoc proper follows
    show Ensures _ reached _ _
    rw [ensures_bind]
    cases told : job.policy.observe from_ to_ old incoming new between with
    | error error =>
      exact Or.inr (Or.inr (valid.observe inOrder emitting.played ⟨state, reached, outcome⟩ told))
    | ok after =>
      rw [ensures_liftResult_ok]
      have stands : Writing job.laws job.frame
          ({ merge with policy := after } : OrderedMerge K π).output done log total reached :=
        carry owned (tallied.trans isTotal)
      refine (place_spec old incoming stands proper follows).mono ?_ fun error finished failed =>
        OutputFails.of_job (emitting.kind ▸ failed) emitting.played
      rintro next finished ⟨output, built, changed, rfl, kind, same, written, kept⟩
      refine ⟨new, output, after, rfl,
        emitting.played.snoc ⟨state, reached, outcome⟩ told,
        ⟨same.trans emitting.counted.1, emitting.counted.2⟩, inOrder, kind.trans emitting.kind,
        emitting.few, built, changed, written, ?_⟩
      intro value
      rw [kept]
      exact balance value

theorem accountOld_spec (valid : job.Valid) {old : Record K} {others : List (Record K)}
    (emitting : Emitting job log (old :: others) merge state) (unpaid : merge.oldAccounted = false) :
    Ensures (merge.accountOld old) state (fun next reached => ∃ oldRefcounts,
      next = { merge with oldRefcounts, oldAccounted := true } ∧
      Emitting job log others next reached) job.Fails := by
  obtain ⟨done, total, writing, balance⟩ := emitting.written
  obtain ⟨heap, owns, isTotal, carry⟩ := writing.carry
  have fresh : ¬ merge.oldAccounted = true := by simp [unpaid]
  have few := emitting.few
  have bound := valid.base.length_le
  rw [length_cons] at few
  have small : backlog merge.oldRefcounts + 1 < 2 ^ 63 := by
    simp only [pageSize] at bound
    omega
  rw [OrderedMerge.accountOld, if_neg fresh, ensures_bind]
  refine (addTo_spec merge.oldRefcounts old.value (-1) owns small).impOr ?_
  rintro oldRefcounts reached ⟨same, more, owned, tallied⟩
  rw [ensures_pure]
  refine ⟨oldRefcounts, rfl, emitting.played, ⟨emitting.counted.1, same.trans emitting.counted.2⟩,
    emitting.inOrder, emitting.kind, ?_, done, job.laws.tally reached, carry owned rfl, ?_⟩
  · have grown : backlog oldRefcounts ≤ backlog merge.oldRefcounts + 1 := more
    show backlog oldRefcounts + others.length ≤ job.olds.length
    omega
  intro value
  have moved := tallied value
  have sum := balance value
  rw [isTotal, emitting.counted.2] at moved
  rw [paid_cons job old others value]
  simp only [owed] at sum ⊢
  by_cases counts : job.counting
  · simp only [counts, true_and, if_true] at moved sum ⊢
    omega
  · simp only [counts, Bool.false_eq_true, false_and, if_false] at moved sum ⊢
    omega

theorem advanceOld_spec (valid : job.Valid) {records : List (Record K)} {fail : Error → σ → Prop}
    (emitting : Emitting job log ahead merge state)
    (reading : Reading (σ := σ) job.base job.frame job.basePages merge.oldCursor records) :
    Ensures (merge.advanceOld job.base) state (fun next reached => reached = state ∧
      ∃ oldCursor, next = { merge with oldCursor, old := records.head?, oldAccounted := false } ∧
        Reading (σ := σ) job.base job.frame job.basePages oldCursor records.tail) fail := by
  obtain ⟨total, pages, heap, owning⟩ := emitting.owning
  rw [OrderedMerge.advanceOld, ensures_bind]
  refine (readNext_spec valid.base.inside valid.base.limit owning reading).imp ?_
  rintro ⟨old, cursor⟩ reached ⟨rfl, rfl, rest⟩
  exact ⟨rfl, cursor, rfl, rest⟩

end Steps

section Sweeping

variable [LawfulIpKey K] [MergeStore σ] {job : Job K V σ π} {state : σ}
  {merge : OrderedMerge K π} {log : List (Emission K UInt32 V)} {rest others : List (Record K)}
  {inputs : List (Incoming K V)} {inc : Incoming K V} {old : Record K}

structure MergeAt (job : Job K V σ π) (inputs : List (Incoming K V)) (piece : Option (Incoming K V))
    (rest : List (Record K)) (log : List (Emission K UInt32 V)) (merge : OrderedMerge K π)
    (state : σ) : Prop where
  swept : Swept (valueAt job.olds) (valueAt inputs) rest piece log
  current : merge.old = rest.head?
  reading : Reading (σ := σ) job.base job.frame job.basePages merge.oldCursor rest.tail
  few : rest.length ≤ job.olds.length
  emitting : Emitting job log (if merge.oldAccounted then rest.tail else rest) merge state

def turnsLeft (rest : List (Record K)) (inc : Incoming K V) : Nat :=
  3 * rest.length + if rest.head?.map Span.from_ = some inc.from_ then 0 else 1

theorem turnsLeft_tail (old : Record K) (others : List (Record K)) (inc other : Incoming K V) :
    turnsLeft others other < turnsLeft (old :: others) inc := by
  have bound : (if others.head?.map Span.from_ = some other.from_ then 0 else 1) ≤ 1 := by
    split <;> omega
  simp only [turnsLeft, length_cons]
  omega

theorem turnsLeft_aligned (old moved : Record K) (others : List (Record K)) (inc other : Incoming K V)
    (apart : old.from_ ≠ inc.from_) (aligned : moved.from_ = other.from_) :
    turnsLeft (moved :: others) other < turnsLeft (old :: others) inc := by
  simp [turnsLeft, apart, aligned]

structure Turned (job : Job K V σ π) (inputs : List (Incoming K V)) (inc : Incoming K V)
    (merge : OrderedMerge K π) (turns : Nat) (log : List (Emission K UInt32 V))
    (left : Option (Incoming K V)) (next : OrderedMerge K π) (reached : σ) : Prop where
  at_ : ∃ rest emitted, MergeAt job inputs left rest (log ++ emitted) next reached ∧
    (∀ emission ∈ emitted, emission.to_ ≤ inc.to_) ∧
    ∀ piece ∈ left, piece.to_ = inc.to_ ∧ turnsLeft rest piece < turns
  input : next.previousInputEnd = merge.previousInputEnd ∧ next.inputSeen = merge.inputSeen

variable {piece : Option (Incoming K V)} {post : K → σ → Prop} {fail : Error → σ → Prop}

theorem account_spec (valid : job.Valid)
    (at_ : MergeAt job inputs piece (old :: others) log merge state) :
    Ensures (merge.accountOld old) state (fun next reached => ∃ oldRefcounts,
      next = { merge with oldRefcounts, oldAccounted := true } ∧
      MergeAt job inputs piece (old :: others) log next reached) job.Fails := by
  cases accounted : merge.oldAccounted with
  | true =>
    rw [OrderedMerge.accountOld, if_pos accounted, ensures_pure]
    refine ⟨merge.oldRefcounts, ?_, at_⟩
    rw [← accounted]
  | false =>
    have fresh : ¬ merge.oldAccounted = true := by simp [accounted]
    have emitting := at_.emitting
    rw [if_neg fresh] at emitting
    refine (accountOld_spec valid emitting accounted).imp ?_
    rintro _ reached ⟨oldRefcounts, rfl, emitting⟩
    exact ⟨oldRefcounts, rfl, at_.swept, at_.current, at_.reading, at_.few, emitting⟩

theorem MergeAt.accounted (at_ : MergeAt job inputs piece (old :: others) log merge state)
    (marked : merge.oldAccounted = true) : Emitting job log others merge state := by
  have emitting := at_.emitting
  rwa [if_pos marked] at emitting

theorem emit_piece_spec (valid : job.Valid)
    (at_ : MergeAt job inputs (some inc) rest log merge state)
    (clear : ∀ span ∈ rest, inc.to_ < span.from_) :
    Ensures (merge.emit job.policy inc.from_ inc.to_ none (some inc.value)) state
      (fun next reached => Turned job inputs inc merge (turnsLeft rest inc) log none next reached)
      job.Fails := by
  have swept := at_.swept
  refine (emit_spec valid none (some inc.value) at_.emitting (swept.pieceProper inc rfl)
    fun earlier member => (swept.behind earlier member).2 inc rfl).imp ?_
  rintro _ reached ⟨new, output, policy, rfl, emitting⟩
  refine ⟨⟨rest, [⟨inc.from_, inc.to_, none, some inc.value, new⟩],
    ⟨swept.emit_piece new clear, at_.current, at_.reading, at_.few, emitting⟩, ?_, by simp⟩, rfl, rfl⟩
  simp

theorem pass_old_spec (valid : job.Valid) {α : Type}
    {continue_ : OrderedMerge K π → EStateM Error σ α} {post : α → σ → Prop}
    (at_ : MergeAt job inputs piece (old :: others) log merge state)
    (clear : ∀ span ∈ piece, old.to_ < span.from_) (done : ∀ new next reached,
      MergeAt job inputs piece others (log ++ [⟨old.from_, old.to_, some old.value, none, new⟩]) next
        reached → next.previousInputEnd = merge.previousInputEnd → next.inputSeen = merge.inputSeen →
      Ensures (continue_ next) reached post job.Fails) :
    Ensures (do
      let merge ← merge.accountOld old
      let merge ← merge.emit job.policy old.from_ old.to_ (some old.value) none
      let merge ← merge.advanceOld job.base
      continue_ merge) state post job.Fails := by
  have swept := at_.swept
  refine Ensures.bind (account_spec valid at_) ?_
  rintro _ accounted ⟨oldRefcounts, rfl, at_⟩
  refine Ensures.bind (emit_spec valid (some old.value) none (at_.accounted rfl)
    (swept.restSeparate.proper old (by simp))
    fun earlier member => (swept.behind earlier member).1 old (by simp)) ?_
  rintro _ emitted ⟨new, output, policy, rfl, emitting⟩
  refine Ensures.bind (advanceOld_spec valid emitting at_.reading) ?_
  rintro _ _ ⟨rfl, oldCursor, rfl, reading⟩
  refine done new _ _ ⟨swept.emit_old new clear, rfl, reading, ?_, ?_⟩ rfl rfl
  · exact le_trans (Nat.le_succ _) at_.few
  · exact ⟨emitting.played, emitting.counted, emitting.inOrder, emitting.kind, emitting.few,
      emitting.written⟩

theorem ensures_previous {key below : K} (above : below < key) (context : String)
    (done : ∀ end_, end_ ⋖ key → post end_ state) :
    Ensures (liftResult (previous key context)) state post fail := by
  obtain ⟨end_, found, _⟩ := exists_previous above
  rw [previous, found, ensures_liftResult_ok]
  exact done end_ ((checkedPrevious_iff end_ key).mp found)

theorem ensures_next {key above : K} (below : key < above) (context : String)
    (done : ∀ following, key ⋖ following → post following state) :
    Ensures (liftResult (next key context)) state post fail := by
  obtain ⟨following, found, _⟩ := exists_next below
  rw [next, found, ensures_liftResult_ok]
  exact done following ((checkedNext_iff key following).mp found)

theorem shortenOld_spec (valid : job.Valid) {log : List (Emission K UInt32 V)} {end_ : K}
    (emitting : Emitting job log others merge state) (accounted : merge.oldAccounted = true)
    (reading : Reading (σ := σ) job.base job.frame job.basePages merge.oldCursor others)
    (inside : end_ ≤ old.to_) :
    Ensures (merge.shortenOld job.base old end_) state (fun next reached => reached = state ∧
      ∃ left : Option (Record K), Remainder old end_ left ∧ next.old = (left.toList ++ others).head? ∧
        Reading (σ := σ) job.base job.frame job.basePages next.oldCursor (left.toList ++ others).tail ∧
        Emitting job log
          (if next.oldAccounted then (left.toList ++ others).tail else left.toList ++ others)
          next state ∧
        next.previousInputEnd = merge.previousInputEnd ∧ next.inputSeen = merge.inputSeen) fail := by
  unfold OrderedMerge.shortenOld
  split
  · rename_i whole
    refine (advanceOld_spec valid emitting reading).imp ?_
    rintro _ _ ⟨rfl, oldCursor, rfl, rest⟩
    exact ⟨rfl, none, Or.inl ⟨whole, rfl⟩, rfl, rest,
      ⟨emitting.played, emitting.counted, emitting.inOrder, emitting.kind, emitting.few,
      emitting.written⟩, rfl, rfl⟩
  · rename_i part
    have more : end_ < old.to_ := lt_of_le_of_ne inside fun same => part same.symm
    rw [ensures_bind]
    refine ensures_next more _ fun following near => ?_
    rw [ensures_pure]
    refine ⟨rfl, some { old with from_ := following }, Or.inr ⟨more, following, near, rfl⟩, rfl,
      reading, ?_, rfl, rfl⟩
    simp only [accounted, if_true]
    exact ⟨emitting.played, emitting.counted, emitting.inOrder, emitting.kind, emitting.few,
      emitting.written⟩

section Heads

variable (valid : job.Valid)
  (at_ : MergeAt job inputs (some inc) (old :: others) log merge state)
  (marked : merge.oldAccounted = true)

include valid at_ marked

theorem old_head_spec (starts : old.from_ < inc.from_) (reaches : inc.from_ ≤ old.to_) :
    Ensures (do
      let end_ ← liftResult (previous inc.from_ "ordered merge old prefix")
      let merge ← merge.emit job.policy old.from_ end_ (some old.value) none
      pure (some inc, { merge with old := some { old with from_ := inc.from_ } })) state
      (fun result reached =>
        Turned job inputs inc merge (turnsLeft (old :: others) inc) log result.1 result.2 reached)
      job.Fails := by
  have swept := at_.swept
  rw [ensures_bind]
  refine ensures_previous starts _ fun end_ near => ?_
  refine Ensures.bind (emit_spec valid (some old.value) none (at_.accounted marked)
    (near.le_of_lt starts)
    fun earlier member => (swept.behind earlier member).1 old (by simp)) ?_
  rintro _ reached ⟨new, output, policy, rfl, emitting⟩
  rw [ensures_pure]
  refine ⟨⟨{ old with from_ := inc.from_ } :: others, [⟨old.from_, end_, some old.value, none, new⟩],
    ⟨swept.emit_old_head new starts reaches near, rfl, at_.reading, at_.few, ?_⟩, ?_, ?_⟩, rfl, rfl⟩
  · simp only [marked, if_true]
    exact ⟨emitting.played, emitting.counted, emitting.inOrder, emitting.kind, emitting.few,
      emitting.written⟩
  · simpa using le_trans near.lt.le (swept.pieceProper inc rfl)
  · rintro piece ⟨⟩
    exact ⟨rfl, turnsLeft_aligned _ _ _ _ _ starts.ne rfl⟩

theorem piece_head_spec (starts : inc.from_ < old.from_) (reaches : old.from_ ≤ inc.to_) :
    Ensures (do
      let end_ ← liftResult (previous old.from_ "ordered merge input prefix")
      let merge ← merge.emit job.policy inc.from_ end_ none (some inc.value)
      pure (some { inc with from_ := old.from_ }, merge)) state
      (fun result reached =>
        Turned job inputs inc merge (turnsLeft (old :: others) inc) log result.1 result.2 reached)
      job.Fails := by
  have swept := at_.swept
  rw [ensures_bind]
  refine ensures_previous starts _ fun end_ near => ?_
  refine Ensures.bind (emit_spec valid none (some inc.value) (at_.accounted marked)
    (near.le_of_lt starts)
    fun earlier member => (swept.behind earlier member).2 inc rfl) ?_
  rintro _ reached ⟨new, output, policy, rfl, emitting⟩
  rw [ensures_pure]
  refine ⟨⟨old :: others, [⟨inc.from_, end_, none, some inc.value, new⟩],
    ⟨swept.emit_piece_head new starts reaches near, at_.current, at_.reading, at_.few, ?_⟩, ?_, ?_⟩,
    rfl, rfl⟩
  · simp only [marked, if_true]
    exact ⟨emitting.played, emitting.counted, emitting.inOrder, emitting.kind, emitting.few,
      emitting.written⟩
  · simpa using le_trans near.lt.le reaches
  · rintro piece ⟨⟩
    exact ⟨rfl, turnsLeft_aligned old old others inc _ starts.ne' rfl⟩

theorem both_spec (aligned : old.from_ = inc.from_) :
    Ensures (do
      let end_ := min old.to_ inc.to_
      let merge ← merge.emit job.policy old.from_ end_ (some old.value) (some inc.value)
      let merge ← merge.shortenOld job.base old end_
      if inc.to_ = end_ then pure (none, merge)
      else do
        let from_ ← liftResult (next end_ "ordered merge input remainder")
        pure (some { inc with from_ }, merge)) state
      (fun result reached =>
        Turned job inputs inc merge (turnsLeft (old :: others) inc) log result.1 result.2 reached)
      job.Fails := by
  have swept := at_.swept
  have low : old.from_ ≤ min old.to_ inc.to_ :=
    le_min (swept.restSeparate.proper old (by simp)) (aligned ▸ swept.pieceProper inc rfl)
  refine Ensures.bind (emit_spec valid (some old.value) (some inc.value) (at_.accounted marked) low
    fun earlier member => (swept.behind earlier member).1 old (by simp)) ?_
  rintro _ emitted ⟨new, output, policy, rfl, emitting⟩
  refine Ensures.bind (shortenOld_spec valid emitting marked at_.reading (min_le_left _ _)) ?_
  rintro shortened reached ⟨rfl, left, cutOld, current, rest, emitting, ended, seen⟩
  have few : (left.toList ++ others).length ≤ job.olds.length := by
    have bound := at_.few
    have one : left.toList.length ≤ 1 := by cases left <;> simp
    simp only [length_append, length_cons] at bound ⊢
    omega
  have bound : min old.to_ inc.to_ ≤ inc.to_ := min_le_right _ _
  split
  · rename_i whole
    rw [ensures_pure]
    refine ⟨⟨left.toList ++ others,
      [⟨old.from_, min old.to_ inc.to_, some old.value, some inc.value, new⟩],
      ⟨swept.emit_both new aligned low (min_le_left _ _) bound cutOld (Or.inl ⟨whole, rfl⟩),
        current, rest,
        few, emitting⟩, by simp, by simp⟩, ended, seen⟩
  · rename_i part
    have more : min old.to_ inc.to_ < inc.to_ := lt_of_le_of_ne bound fun same => part same.symm
    have spent : old.to_ = min old.to_ inc.to_ :=
      (min_eq_left (le_of_lt ((min_lt_iff.mp more).resolve_right (lt_irrefl _)))).symm
    have none_ : left = none := by
      rcases cutOld with ⟨_, isNone⟩ | ⟨longer, _⟩
      · exact isNone
      · exact absurd spent (ne_of_gt longer)
    subst none_
    rw [ensures_bind]
    refine ensures_next more _ fun following near => ?_
    rw [ensures_pure]
    refine ⟨⟨others, [⟨old.from_, min old.to_ inc.to_, some old.value, some inc.value, new⟩],
      ⟨swept.emit_both new aligned low (min_le_left _ _) bound cutOld
        (Or.inr ⟨more, following, near, rfl⟩), current, rest, few, emitting⟩, by simp, ?_⟩,
      ended, seen⟩
    rintro piece ⟨⟩
    exact ⟨rfl, turnsLeft_tail old others inc _⟩

end Heads

theorem pushStep_spec (valid : job.Valid)
    (at_ : MergeAt job inputs (some inc) rest log merge state) :
    Ensures (merge.pushStep job.base job.policy inc) state (fun result reached =>
      Turned job inputs inc merge (turnsLeft rest inc) log result.1 result.2 reached) job.Fails := by
  have current := at_.current
  cases rest with
  | nil =>
    simp only [OrderedMerge.pushStep, current, head?_nil]
    rw [ensures_bind]
    exact emit_piece_spec valid at_ (by simp)
  | cons old others =>
    simp only [OrderedMerge.pushStep, current, head?_cons]
    have separate := at_.swept.restSeparate
    split
    · rename_i before
      have clear : ∀ span ∈ some inc, old.to_ < span.from_ := by
        rintro span ⟨⟩
        exact before
      refine pass_old_spec valid at_ clear fun new next reached passed ended seen => ?_
      rw [ensures_pure]
      refine ⟨⟨others, [⟨old.from_, old.to_, some old.value, none, new⟩], passed, ?_, ?_⟩, ended, seen⟩
      · simpa using le_trans before.le (at_.swept.pieceProper inc rfl)
      · rintro piece ⟨⟩
        exact ⟨rfl, turnsLeft_tail old others inc inc⟩
    · rename_i reaches
      split
      · rename_i before
        rw [ensures_bind]
        refine emit_piece_spec valid at_ fun span member => ?_
        rcases mem_cons.mp member with rfl | later
        · exact before
        · exact lt_of_lt_of_le before
            (le_trans (separate.proper old (by simp)) (separate.before span later).le)
      · rename_i overlaps
        refine Ensures.bind (account_spec valid at_) ?_
        rintro _ reached ⟨oldRefcounts, rfl, at_⟩
        split
        · rename_i starts
          exact (old_head_spec valid at_ rfl starts (not_lt.mp reaches)).imp
            fun _ _ turned => ⟨turned.at_, turned.input⟩
        · rename_i notFirst
          split
          · rename_i starts
            exact (piece_head_spec valid at_ rfl starts (not_lt.mp overlaps)).imp
              fun _ _ turned => ⟨turned.at_, turned.input⟩
          · rename_i notSecond
            exact (both_spec valid at_ rfl
              (le_antisymm (not_lt.mp notSecond) (not_lt.mp notFirst))).imp
              fun _ _ turned => ⟨turned.at_, turned.input⟩

theorem pushLoop_spec (valid : job.Valid) (turns : Nat)
    (at_ : MergeAt job inputs (some inc) rest log merge state) (enough : turnsLeft rest inc < turns) :
    Ensures (merge.pushLoop job.base job.policy turns inc) state (fun next reached =>
      (∃ rest emitted, MergeAt job inputs none rest (log ++ emitted) next reached ∧
        ∀ emission ∈ emitted, emission.to_ ≤ inc.to_) ∧
      next.previousInputEnd = merge.previousInputEnd ∧ next.inputSeen = merge.inputSeen) job.Fails := by
  induction turns generalizing merge inc rest log state with
  | zero => omega
  | succ turns ih =>
    rw [OrderedMerge.pushLoop, ensures_bind]
    refine (pushStep_spec valid at_).imp ?_
    rintro ⟨left, next⟩ reached ⟨⟨rest, emitted, moved, bound, smaller⟩, ended, seen⟩
    cases left with
    | none => exact ⟨⟨rest, emitted, moved, bound⟩, ended, seen⟩
    | some piece =>
      obtain ⟨sameEnd, fewer⟩ := smaller piece rfl
      refine (ih moved (by omega)).imp ?_
      rintro final done ⟨⟨rest, later, finished, laterBound⟩, endedAgain, seenAgain⟩
      refine ⟨⟨rest, emitted ++ later, ?_, ?_⟩, endedAgain.trans ended, seenAgain.trans seen⟩
      · rw [← append_assoc]
        exact finished
      · intro emission member
        rcases mem_append.mp member with first | second
        · exact bound emission first
        · rw [← sameEnd]
          exact laterBound emission second

structure Ready (job : Job K V σ π) (inputs : List (Incoming K V)) (merge : OrderedMerge K π)
    (state : σ) : Prop where
  at_ : ∃ rest log, MergeAt job inputs none rest log merge state ∧
    ∀ emission ∈ log, ∃ last, inputs.getLast? = some last ∧ emission.to_ ≤ last.to_
  ended : merge.previousInputEnd = inputs.getLast?.map Span.to_
  seen : merge.inputSeen = !inputs.isEmpty

theorem push_spec (valid : job.Valid) (ready : Ready job inputs merge state)
    (proper : inc.from_ ≤ inc.to_) (past : ∀ last ∈ inputs.getLast?, last.to_ < inc.from_) :
    Ensures (merge.push job.base job.policy inc) state
      (fun next reached => Ready job (inputs ++ [inc]) next reached) job.Fails := by
  obtain ⟨⟨rest, log, at_, bound⟩, ended, seen⟩ := ready
  have accepted : merge.requireInput inc = .ok () := by
    have clear : merge.previousInputEnd.any (fun previous => decide (inc.from_ ≤ previous)) = false := by
      rw [ended, Option.any_map]
      cases isLast : inputs.getLast? with
      | none => rfl
      | some last => simpa using past last (by simp [isLast])
    rw [OrderedMerge.requireInput, if_neg (not_lt.mpr proper), clear]
    rfl
  have behind : ∀ emission ∈ log, emission.to_ < inc.from_ := by
    intro emission member
    obtain ⟨last, isLast, reaches⟩ := bound emission member
    exact lt_of_le_of_lt reaches (past last isLast)
  rw [OrderedMerge.push, accepted, ensures_bind, ensures_liftResult_ok]
  have opened : MergeAt job (inputs ++ [inc]) (some inc) rest log
      { merge with inputSeen := true, previousInputEnd := some inc.to_ } state :=
    ⟨at_.swept.next proper behind, at_.current, at_.reading, at_.few,
      ⟨at_.emitting.played, at_.emitting.counted, at_.emitting.inOrder, at_.emitting.kind,
        at_.emitting.few, at_.emitting.written⟩⟩
  refine (pushLoop_spec valid _ opened ?_).imp ?_
  · have most : turnsLeft rest inc ≤ 3 * rest.length + 1 := by
      unfold turnsLeft
      split <;> omega
    have few := at_.few
    rw [← valid.base.counted] at few
    omega
  · rintro next reached ⟨⟨left, emitted, finished, short⟩, nextEnded, nextSeen⟩
    refine ⟨⟨left, log ++ emitted, finished, ?_⟩, by simp [nextEnded], by simp [nextSeen]⟩
    intro emission member
    refine ⟨inc, by simp, ?_⟩
    rcases mem_append.mp member with earlier | new
    · exact le_trans (behind emission earlier).le proper
    · exact short emission new

theorem pushAll_spec (valid : job.Valid) (more : List (Incoming K V))
    (separate : Separate (inputs ++ more)) (ready : Ready job inputs merge state) :
    Ensures (merge.pushAll job.base job.policy more) state
      (fun next reached => Ready job (inputs ++ more) next reached) job.Fails := by
  induction more generalizing inputs merge state with
  | nil =>
    rw [OrderedMerge.pushAll, ensures_pure, append_nil]
    exact ready
  | cons inc rest ih =>
    rw [OrderedMerge.pushAll, ensures_bind]
    have regroup : inputs ++ inc :: rest = inputs ++ [inc] ++ rest := by simp
    have past : ∀ last ∈ inputs.getLast?, last.to_ < inc.from_ := fun last isLast =>
      (pairwise_append.mp separate.ordered).2.2 last (mem_of_getLast? isLast) inc (by simp)
    refine (push_spec valid ready (separate.proper inc (by simp)) past).imp ?_
    intro next reached pushed
    rw [regroup] at separate ⊢
    exact ih separate pushed

theorem drainOld_spec (valid : job.Valid) (turns : Nat)
    (at_ : MergeAt job inputs none rest log merge state) (enough : rest.length < turns) :
    Ensures (merge.drainOld job.base job.policy turns) state
      (fun next reached => ∃ log, MergeAt job inputs none [] log next reached) job.Fails := by
  induction turns generalizing merge rest log state with
  | zero => omega
  | succ turns ih =>
    have current := at_.current
    cases rest with
    | nil =>
      simp only [OrderedMerge.drainOld, current, head?_nil, ensures_pure]
      exact ⟨log, at_⟩
    | cons old others =>
      simp only [OrderedMerge.drainOld, current, head?_cons]
      refine pass_old_spec valid at_ (by simp) fun new next reached passed _ _ => ?_
      exact ih passed (by simpa using enough)

end Sweeping

section Ends

variable [LawfulIpKey K] [MergeStore σ] {job : Job K V σ π} {state : σ}
  {merge : OrderedMerge K π} {log : List (Emission K UInt32 V)} {rest : List (Record K)}
  {inputs : List (Incoming K V)} {heap : Heap}

theorem new_spec (valid : job.Valid)
    (owning : Owning (job.laws.counting job.opening) job.frame [] heap state) :
    Ensures (OrderedMerge.new job.base job.start) state
      (fun next reached => reached = state ∧ Ready job ([] : List (Incoming K V)) next reached ∧
        next.policy = job.start ∧ next.old = job.olds.head? ∧
        Reading (σ := σ) job.base job.frame job.basePages next.oldCursor job.olds.tail) job.Fails := by
  obtain ⟨entries, tree, items⟩ := valid.base.tree
  have views := views_base valid.base.inside valid.base.limit owning
  have restricted : RootAt (restrict job.basePages job.frame) job.base.txnId job.base.rangeRoot entries
      job.basePages := tree.congr fun address member => by rw [restrict, if_pos member]
  have leaves : entries.map Entry.leaf = job.olds := (entries_records items).1.symm
  rw [OrderedMerge.new, ensures_bind]
  refine selected_run ((openAt_spec rangeCodec_lawful .forward views restricted).imp ?_)
  rintro cursor _ ⟨rfl, -, -, remains⟩
  have reading : Reading (σ := σ) job.base job.frame job.basePages cursor job.olds :=
    ⟨entries, leaves, fun other => remains.elsewhere rfl⟩
  refine Ensures.bind (readNext_spec valid.base.inside valid.base.limit owning reading) ?_
  rintro ⟨old, advanced⟩ now ⟨rfl, rfl, rest⟩
  rw [ensures_bind, ensures_get, ensures_pure]
  have counts : (RefcountRun.for_ job.base.valueKind).isSome = job.counting := by
    unfold RefcountRun.for_ Job.counting
    split <;> simp_all
  have idle : ∀ value, waiting (RefcountRun.for_ job.base.valueKind) value = 0 := by
    intro value
    unfold RefcountRun.for_
    split <;> rfl
  have unseen : backlog (RefcountRun.for_ job.base.valueKind) = 0 := by
    unfold RefcountRun.for_
    split <;> rfl
  have none_ : backlog (RefcountRun.for_ job.base.valueKind) + job.olds.length ≤ job.olds.length := by
    rw [unseen, Nat.zero_add]
  have txn : Store.targetTxn now = job.laws.txn := job.laws.target owning.owns.1
  refine ⟨rfl, ⟨⟨job.olds, [], ⟨Swept.start valid.base.canonical.separate, rfl, rest, le_rfl,
    Played.nil, ⟨counts, counts⟩, ⟨Pairwise.nil, by simp⟩, rfl, none_, [], job.opening,
      ⟨?_, Canonical.nil, fun _ => rfl,
      fun _ => rfl, by simp [Output.new], ?_⟩, ?_⟩, by simp⟩, rfl, rfl⟩, rfl, rfl, rest⟩
  · rw [txn]
    exact building_new job.base.valueKind owning
  · exact (congrArg (· ≤ 0) unseen).mpr le_rfl
  · intro value
    simp [owed, Output.new, idle, paid, holding]

variable {total : UInt32 → Int}

theorem output_finish_spec {output : Output K} {done : List (Record K)}
    (writing : Writing job.laws job.frame output done log total state) :
    Ensures output.finish state (fun result reached => ∃ last changed,
      Canonical last ∧ (∀ address, valueAt last address = newAt log address) ∧
      result.2 = last.length ∧
      (∀ value, changed value = owed output done total value +
        if output.refcounts.isSome then holding last value else 0) ∧
      ∃ heap, ∃ entries : List (Entry (rangeCodec K)), ∃ pages,
        Owning (job.laws.counting changed) job.frame pages heap reached ∧
        WellFormed (job.laws.counting changed) heap result.1 entries pages ∧
        entries.map Entry.item = recordItems last)
      (OutputFails job.laws output.builder.valueKind log) := by
  -- the counts that wait are reported, then the build is finished
  have close : ∀ {output : Output K} {last : List (Record K)} {total : UInt32 → Int} {state : σ},
      Building (job.laws.counting total) job.frame output.builder last state →
      backlog output.refcounts ≤ last.length →
      Ensures (do
        let _ ← RefcountRun.flushAll output.refcounts 1
        output.builder.finish) state (fun result reached => result.2 = last.length ∧ ∃ changed,
          (∀ value, changed value = total value + waiting output.refcounts value) ∧
          ∃ heap, ∃ entries : List (Entry (rangeCodec K)), ∃ pages,
            Owning (job.laws.counting changed) job.frame pages heap reached ∧
            WellFormed (job.laws.counting changed) heap result.1 entries pages ∧
            entries.map Entry.item = recordItems last) job.laws.Fails := by
    intro output last total state building few
    obtain ⟨heap, owns, isTotal, carry⟩ := building_carry building
    have bound := building_few building
    have small : backlog output.refcounts < 2 ^ 63 := by
      simp only [pageSize] at bound
      omega
    rw [ensures_bind]
    refine (flushAll_spec output.refcounts 1 owns small).imp ?_
    rintro _ reached ⟨owned, tallied⟩
    refine (builder_finish_spec (carry owned rfl)).imp ?_
    rintro result finished ⟨count, heap, entries, pages, owning, wellFormed, items, -⟩
    refine ⟨count, job.laws.tally reached, fun value => ?_, heap, entries, pages, owning, wellFormed,
      items⟩
    rw [tallied, isTotal, one_mul]
  rw [Output.finish.eq_def]
  have canonical := writing.canonical
  have holds := writing.holds
  cases waits : output.pending with
  | none =>
    rw [waits] at canonical holds
    rw [Option.toList_none, append_nil] at canonical holds
    refine (close writing.building writing.few).impOr ?_
    rintro result reached ⟨count, changed, summed, tree⟩
    refine ⟨done, changed, canonical, holds, count, fun value => ?_, tree⟩
    rw [summed, owed]
    omega
  | some pending =>
    obtain ⟨emission, logged, -, given⟩ := writing.reached pending (by simp [waits])
    rw [waits] at canonical holds
    dsimp only
    refine Ensures.bind
      (output_push_spec writing.building canonical ⟨emission, logged, given⟩ writing.few) ?_
    rintro next reached ⟨-, -, same, few, changed, built, kept⟩
    refine (close built few).impOr ?_
    rintro result finished ⟨count, final, summed, tree⟩
    refine ⟨done ++ [pending], final, canonical, holds, count, fun value => ?_, tree⟩
    have owing := congrFun kept value
    rw [summed, ← owing, owed, same]
    simp

theorem retireBase_spec (valid : job.Valid) {pages : List Nat} {root : Nat}
    {entries : List (Entry (rangeCodec K))} {last : List (Record K)}
    (owning : Owning (job.laws.counting total) job.frame pages heap state)
    (wellFormed : WellFormed (job.laws.counting total) heap root entries pages)
    (items : entries.map Entry.item = recordItems last) :
    Ensures (retireTree (rangeCodec K) job.base.rangeRoot) state (fun _ reached =>
      Stands job.laws.toRangeLaws (rangeCodec K)
        (fun address => if address ∈ job.basePages then none else job.frame address) root
        (recordItems last) total reached) job.laws.Fails := by
  obtain ⟨oldEntries, tree, _⟩ := valid.base.tree
  have inFrame : ∀ address ∈ job.basePages, ∃ born height cells, born ≤ job.base.txnId ∧
      job.frame address = some (treePage (rangeCodec K) born height cells) := by
    rcases tree with ⟨_, _, none_⟩ | ⟨_, _, _, whole, _, _, pages_⟩
    · simp [none_]
    · rw [← pages_]
      exact whole.pages
  have inHeap : ∀ address ∈ job.basePages, address ∉ pages ∧ heap address = job.frame address := by
    intro address member
    obtain ⟨born, height, cells, _, stored⟩ := inFrame address member
    have framed := owning.framed address
    by_cases inside : address ∈ pages
    · rw [if_pos inside, stored] at framed
      cases framed
    · rw [if_neg inside] at framed
      exact ⟨inside, framed.symm⟩
  have lent : Owning (job.laws.counting total)
      (fun address => if address ∈ job.basePages then none else heap address) job.basePages heap
      state := by
    refine ⟨owning.owns, valid.base.nodup, fun address member => ?_, fun _ => rfl⟩
    obtain ⟨born, height, cells, _, stored⟩ := inFrame address member
    rw [(inHeap address member).2, stored]
    exact Option.some_ne_none _
  have readable : RootAt heap (job.laws.counting total).txn job.base.rangeRoot oldEntries
      job.basePages :=
    (tree.congr fun address member => (inHeap address member).2).later valid.earlier.le
  refine (walk_spec rangeCodec_lawful (releases_retire (job.laws.retiring total)) lent
    readable ?_).imp ?_
  · intro address member page stored
    obtain ⟨born, height, cells, old, isPage⟩ := inFrame address member
    rw [(inHeap address member).2, isPage] at stored
    cases stored
    have earlier := valid.earlier
    have apart : born ≠ job.laws.txn := by omega
    exact ⟨apart, by simp⟩
  · rintro _ reached ⟨after, freed⟩
    have outside : ∀ address, address ∉ job.basePages → after address = heap address := by
      intro address member
      have framed := freed.framed address
      simp only [not_mem_nil, if_false] at framed
      rw [← framed, if_neg member]
    have gone : ∀ address ∈ job.basePages, after address = none := by
      intro address member
      have framed := freed.framed address
      simp only [not_mem_nil, if_false] at framed
      rw [← framed, if_pos member]
    have apart : ∀ address ∈ pages, address ∉ job.basePages := fun address inside member =>
      (inHeap address member).1 inside
    refine ⟨freed.owns.2, after, entries, pages, freed.owns.1, ⟨?_, wellFormed.nodup,
      wellFormed.sorted⟩, items, fun address => ?_⟩
    · exact wellFormed.tree.congr fun address member => outside address (apart address member)
    · by_cases inBase : address ∈ job.basePages
      · simp [inBase, gone address inBase]
      · rw [if_neg inBase, outside address inBase]
        exact owning.framed address

theorem finishRebuilt_spec (valid : job.Valid) (ready : Ready job inputs merge state) :
    Ensures (merge.finishRebuilt job.base job.policy) state (fun result reached =>
      ∃ log last total, Swept (valueAt job.olds) (valueAt inputs) [] none log ∧
        Played job.policy (Asked job.policy) job.start log result.policy ∧
        Canonical last ∧ (∀ address, valueAt last address = newAt log address) ∧
        result.rangeRecordCount = last.length ∧ result.baseRangeTreeRetired = true ∧
        Stands job.laws.toRangeLaws (rangeCodec K)
          (fun address => if address ∈ job.basePages then none else job.frame address)
          result.rangeRoot (recordItems last) total reached ∧
        ∀ value, total value = job.opening value +
          if job.counting then holding last value - holding job.olds value else 0) job.Fails := by
  obtain ⟨⟨rest, log, at_, _⟩, _, _⟩ := ready
  rw [OrderedMerge.finishRebuilt, ensures_bind]
  refine (drainOld_spec valid _ at_ ?_).imp ?_
  · have few := at_.few
    rw [← valid.base.counted] at few
    omega
  rintro drained reached ⟨log, at_⟩
  obtain ⟨played, ⟨counted, oldCounted⟩, -, kind, few, done, total, writing, balance⟩ := at_.emitting
  obtain ⟨heap, owns, isTotal, carry⟩ := writing.carry
  have bound := valid.base.length_le
  have small : backlog drained.oldRefcounts < 2 ^ 63 := by
    simp only [pageSize] at bound
    omega
  rw [ensures_bind]
  refine (flushAll_spec drained.oldRefcounts (-1) owns small).impOr ?_
  rintro _ flushed ⟨owned, tallied⟩
  rw [ensures_bind]
  refine (output_finish_spec (carry owned rfl)).mono ?_ fun error finished failed =>
    OutputFails.of_job (kind ▸ failed) played
  rintro ⟨root, count⟩ built ⟨last, changed, canonical, holds, length, summed, heap, entries, pages,
    owning, wellFormed, items⟩
  rw [ensures_bind]
  refine (retireBase_spec valid owning wellFormed items).impOr ?_
  rintro _ retired stands
  rw [ensures_pure]
  refine ⟨log, last, changed, at_.swept, played, canonical, holds, length, rfl, stands, ?_⟩
  intro value
  have nothing : (if drained.oldAccounted then ([] : List (Record K)).tail else []) = [] := by simp
  have sum := balance value
  rw [nothing] at sum
  have reported := tallied value
  rw [summed, counted]
  simp only [owed, paid, isTotal] at sum reported ⊢
  by_cases counts : job.counting
  · simp only [counted, counts, if_true, holding, countP_nil, Nat.cast_zero] at sum ⊢
    omega
  · simp only [counted, counts, Bool.false_eq_true, if_false] at sum ⊢
    omega

def keptEmission (old : Record K) : Emission K UInt32 V :=
  ⟨old.from_, old.to_, some old.value, none, some old.value⟩

theorem observeOld_spec (valid : job.Valid) (allowed : job.policy.preserveWithoutInput = true)
    (turns : Nat) {rest : List (Record K)}
    {pages : List Nat} (owning : Owning (job.laws.counting total) job.frame pages heap state)
    (current : merge.old = rest.head?)
    (reading : Reading (σ := σ) job.base job.frame job.basePages merge.oldCursor rest.tail)
    (played : Played job.policy Kept job.start log merge.policy) (enough : rest.length < turns) :
    Ensures (merge.observeOld job.base job.policy turns) state (fun next reached => reached = state ∧
      Played job.policy Kept job.start (log ++ rest.map keptEmission) next.policy) job.Fails := by
  induction turns generalizing merge rest log with
  | zero => omega
  | succ turns ih =>
    cases rest with
    | nil =>
      simp only [OrderedMerge.observeOld, current, head?_nil, ensures_pure]
      exact ⟨trivial, by simpa using played⟩
    | cons old others =>
      simp only [OrderedMerge.observeOld, current, head?_cons]
      rw [ensures_bind]
      cases told : job.policy.observe old.from_ old.to_ (some old.value) none (some old.value)
          merge.policy with
      | error error => exact Or.inr (Or.inr (valid.preserve allowed told))
      | ok after =>
        rw [ensures_liftResult_ok, ensures_bind, OrderedMerge.advanceOld, ensures_bind]
        refine (readNext_spec valid.base.inside valid.base.limit owning reading).imp ?_
        rintro ⟨old_, cursor⟩ _ ⟨rfl, rfl, following⟩
        rw [ensures_pure]
        have longer : Played job.policy Kept job.start (log ++ [keptEmission old]) after :=
          played.snoc ⟨rfl, rfl⟩ told
        refine (ih rfl following longer (by simpa using enough)).imp ?_
        rintro next reached ⟨same, finished⟩
        exact ⟨same, by simpa using finished⟩

end Ends

end IpRange.RangeMerge
