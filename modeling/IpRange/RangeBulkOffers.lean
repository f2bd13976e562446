import IpRange.RangeBulk
import IpRange.FixedTreeCalls

/-!
A whole build: records are offered one after the other, and what the builder took of
them becomes a tree.
-/

namespace IpRange.RangeBulk

open SlottedPage FixedTree

variable {K σ : Type} [IpKey K] [Store σ]

namespace Builder

/-- Offers the records in order and lists the ones taken. An error of `tryPush` comes before
anything is written, so the next one follows. -/
def offerAll (builder : Builder K) : List (Record K) → EStateM Error σ (List (Record K) × Builder K)
  | [] => pure ([], builder)
  | record :: rest =>
    match builder.canAppend record with
    | .error _ => offerAll builder rest
    | .ok _ => do
      let (taken, builder) ← builder.tryPush record
      let (accepted, builder) ← offerAll builder rest
      pure (if taken then record :: accepted else accepted, builder)

end Builder

def Admissible (kind : ValueKind) (record : Record K) : Prop :=
  record.from_ ≤ record.to_ ∧ (kind = .direct ∨ record.value ≠ 0)

open Classical in
noncomputable def keepCanonical (kind : ValueKind) (done : List (Record K)) :
    List (Record K) → List (Record K)
  | [] => []
  | record :: rest =>
    if Admissible kind record ∧ Canonical (done ++ [record]) then
      record :: keepCanonical kind (done ++ [record]) rest
    else keepCanonical kind done rest

variable {laws : StoreLaws σ} {frame heap : Heap} {state : σ} {builder : Builder K}
  {records : List (Record K)}

theorem canAppend_error {record : Record K} {error : Error}
    (refused : builder.canAppend record = .error error) : ¬ Admissible builder.valueKind record := by
  rintro ⟨proper, named⟩
  have valued : ¬ (builder.valueKind ≠ .direct ∧ record.value = 0) := by tauto
  simp only [Builder.canAppend, if_neg (not_lt.mpr proper), if_neg valued] at refused
  cases isLast : builder.previous with
  | none =>
    rw [isLast] at refused
    cases refused
  | some previous =>
    rw [isLast] at refused
    cases refused

theorem canAppend_ok {record : Record K} {appends : Bool}
    (decided : builder.canAppend record = .ok appends) : Admissible builder.valueKind record := by
  unfold Builder.canAppend at decided
  by_cases improper : record.to_ < record.from_
  · rw [if_pos improper] at decided
    cases decided
  · rw [if_neg improper] at decided
    by_cases unnamed : builder.valueKind ≠ .direct ∧ record.value = 0
    · rw [if_pos unnamed] at decided
      cases decided
    · exact ⟨not_lt.mp improper, by tauto⟩

variable [LawfulIpKey K]

theorem offerAll_spec (offers : List (Record K))
    (building : Building laws frame builder records state) :
    Ensures (builder.offerAll offers) state (fun result reached =>
      result.1 = keepCanonical builder.valueKind records offers ∧
      Building laws frame result.2 (records ++ result.1) reached) laws.Fails := by
  induction offers generalizing builder records state with
  | nil => exact ⟨rfl, by simpa using building⟩
  | cons record rest ih =>
    rw [Builder.offerAll]
    cases decided : builder.canAppend record with
    | error error =>
      have unfit := canAppend_error decided
      rw [keepCanonical, if_neg fun both => unfit both.1]
      exact ih building
    | ok appends =>
      have fit := canAppend_ok decided
      simp only [ensures_bind]
      refine (tryPush_spec building fit.1 fit.2).imp ?_
      rintro ⟨taken, next⟩ reached (⟨taken_, kind, built⟩ | ⟨taken_, same, rfl, broken⟩)
      · have kept : keepCanonical builder.valueKind records (record :: rest) =
            record :: keepCanonical next.valueKind (records ++ [record]) rest := by
          rw [keepCanonical, if_pos ⟨fit, built.canonical⟩, ← kind]
        simp only at taken_ built
        subst taken_
        refine (ih built).imp ?_
        rintro ⟨accepted, last⟩ final ⟨isKept, done⟩
        rw [ensures_pure, kept, ← isKept]
        exact ⟨rfl, by simpa using done⟩
      · have kept : keepCanonical builder.valueKind records (record :: rest) =
            keepCanonical builder.valueKind records rest := by
          rw [keepCanonical, if_neg fun both => broken both.2]
        simp only at taken_ same
        subst taken_ same
        refine (ih building).imp ?_
        rintro ⟨accepted, last⟩ final ⟨isKept, done⟩
        rw [ensures_pure, kept, ← isKept]
        exact ⟨rfl, by simpa using done⟩

/-- Whatever records are offered, the builder takes exactly those that keep its list
canonical, and finishing gives a well-formed tree over them: in order, counted, its
root a leaf page or a branch with at least two children. Nothing but the store can make
it fail: every level it needs is below `branchLevels`, since a tree of more levels has
more pages than there are page numbers. -/
theorem bulk_builds_what_it_takes (valueKind : ValueKind) (offers : List (Record K))
    (owning : Owning laws frame [] heap state) :
    (Ensures (do
        let (accepted, builder) ← (Builder.new laws.txn valueKind).offerAll offers
        let (root, count) ← builder.finish
        pure (accepted, root, count)) state
      (fun result reached => result.1 = keepCanonical valueKind [] offers ∧ Canonical result.1 ∧
        result.2.2 = result.1.length ∧ ∃ after, ∃ entries : List (Entry (rangeCodec K)), ∃ pages,
          Owning laws frame pages after reached ∧
          WellFormed laws after result.2.1 entries pages ∧
          entries.map Entry.item = recordItems result.1 ∧ RootBranches K after result.2.1)
      laws.Fails) ∧
    ∀ (builder : Builder K) (record : Record K), ¬ Admissible builder.valueKind record →
      ∃ error, builder.tryPush record state = .error error state := by
  constructor
  · rw [ensures_bind]
    refine (offerAll_spec offers (building_new valueKind owning)).imp ?_
    rintro ⟨accepted, builder⟩ built ⟨rfl, building⟩
    refine Ensures.bind (builder_finish_spec building) ?_
    rintro ⟨root, count⟩ reached ⟨counted, tree⟩
    rw [ensures_pure]
    refine ⟨rfl, ?_, ?_, ?_⟩
    · simpa using building.canonical
    · simpa using counted
    · simpa using tree
  · intro builder record unfit
    cases decided : builder.canAppend record with
    | error error => exact ⟨error, by simp [Builder.tryPush, decided, liftResult, bind, EStateM.bind]⟩
    | ok appends => exact absurd (canAppend_ok decided) unfit

def freshWorkspace : Workspace where
  mapping _ := default
  first := 2
  limit := 64
  next := 2
  free := 0
  txn := 7

theorem fresh_owning : Owning (Workspace.laws 7 (by decide) (by decide)) (fun _ => none) []
    (fun _ => none) freshWorkspace := by
  refine ⟨⟨rfl, by decide, by decide, by decide, fun _ _ => rfl, ?_, [], List.nodup_nil, rfl,
    by simp⟩, List.nodup_nil, by simp, fun _ => by simp⟩
  intro address page stored
  cases stored

/-- The second touches the first with its value, the third lies inside it, the fourth is no
range. -/
def sampleOffers : List (Record Ipv4Key) :=
  [sampleRange 10 20 1, sampleRange 21 30 1, sampleRange 15 18 2, sampleRange 45 40 2,
    sampleRange 50 60 2]

theorem bulk_builds_what_it_takes_sample : ∃ result reached,
    (do
      let (accepted, builder) ← (Builder.new 7 .direct : Builder Ipv4Key).offerAll sampleOffers
      let (root, count) ← builder.finish
      pure (accepted, root, count)) freshWorkspace = .ok result reached ∧
    result.1 = [sampleRange 10 20 1, sampleRange 50 60 2] ∧ result.2.2 = 2 ∧
    ∃ after, ∃ entries : List (Entry (rangeCodec Ipv4Key)), ∃ pages,
      WellFormed (Workspace.laws 7 (by decide) (by decide)) after result.2.1 entries pages ∧
      entries.map Entry.item = recordItems result.1 := by
  have spec := (bulk_builds_what_it_takes .direct sampleOffers fresh_owning).1
  have run : observed (fun result _ => (result.1, result.2.2)) ((do
      let (accepted, builder) ← (Builder.new 7 .direct : Builder Ipv4Key).offerAll sampleOffers
      let (root, count) ← builder.finish
      pure (accepted, root, count) : EStateM Error Workspace _) freshWorkspace) =
      some ([sampleRange 10 20 1, sampleRange 50 60 2], 2) := by decide +kernel
  obtain ⟨result, reached, outcome, sight⟩ := exists_ok_of_observed run
  rw [Prod.mk.injEq] at sight
  obtain ⟨_, _, _, after, entries, pages, _, wellFormed, items, _⟩ := spec.ok outcome
  exact ⟨result, reached, outcome, sight.1, sight.2, after, entries, pages, wellFormed, items⟩

end IpRange.RangeBulk
