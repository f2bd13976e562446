import IpRange.RangeMutationCore

/-!
Range assignment on a canonical map: the tree stays canonical and stands for the
pointwise update, the record count is exact, and the store hears of every record
that appears or goes.
-/

set_option linter.unusedSectionVars false

namespace IpRange.RangeMutation

open Function List FixedTree

variable {K σ : Type} [IpKey K] [LawfulIpKey K] [RangeStore σ] (laws : RangeLaws σ)

def holding (records : List (Record K)) (value : UInt32) : Int :=
  records.countP fun record => record.value = value

def ledger (base : UInt32 → Int) (records : List (Record K)) (value : UInt32) : Int :=
  base value + holding records value

structure MapAt (frame : Heap) (base : UInt32 → Int) (map : RangeRoot) (records : List (Record K))
    (state : σ) : Prop where
  stands : Stands laws (rangeCodec K) frame map.root (recordItems records) (ledger base records) state
  counted : map.recordCount = records.length
  canonical : Canonical records

/-- Those of the store, and a tree of the greatest height: range records split any page, and no
tree has more of them than a count can hold. -/
abbrev RangeFails : Error → σ → Prop := StretchFails laws.toStoreLaws False

section Steps

variable {laws} {frame : Heap} {base : UInt32 → Int} {map : RangeRoot} {state : σ}
  {records before after : List (Record K)} {range : Record K}

theorem splice_records (range : Record K) (before stored after : List (Record K))
    (items : List (K × Record K)) (low : ∀ earlier ∈ before, earlier.from_ < range.from_)
    (here : ∀ record ∈ stored, record.from_ = range.from_)
    (high : ∀ later ∈ after, range.from_ < later.from_) :
    splice range.from_ items (recordItems (before ++ stored ++ after)) =
      recordItems before ++ items ++ recordItems after := by
  have cut : splice range.from_ items (recordItems before ++ recordItems stored ++
      recordItems after) = recordItems before ++ items ++ recordItems after :=
    splice_cut range.from_ items (by simpa [recordItems] using low)
      (by simpa [recordItems] using here) (by simpa [recordItems] using high)
  simpa [recordItems] using cut

theorem ledger_insert (base : UInt32 → Int) (before after : List (Record K)) (range : Record K) :
    ledger base (before ++ range :: after) = Function.update (ledger base (before ++ after))
      range.value (ledger base (before ++ after) range.value + 1) := by
  funext value
  by_cases same : value = range.value
  · subst same
    simp [ledger, holding, countP_append]
    omega
  · rw [update_of_ne same]
    simp [ledger, holding, countP_append, Ne.symm same]

theorem ledger_remove (base : UInt32 → Int) (before after : List (Record K)) (range : Record K) :
    ledger base (before ++ after) = Function.update (ledger base (before ++ range :: after))
      range.value (ledger base (before ++ range :: after) range.value - 1) := by
  rw [ledger_insert, update_idem, update_self, add_sub_cancel_right,
    update_eq_self]

theorem remove_spec (mapAt : MapAt laws frame base map (before ++ range :: after) state) :
    Ensures (remove map range) state
      (fun result reached => MapAt laws frame base result (before ++ after) reached)
      (RangeFails laws) := by
  obtain ⟨stands, counted, canonical⟩ := mapAt
  have items := splice_records range before [range] after [] canonical.starts.1 (by simp)
    canonical.starts.2
  simp only [append_assoc, singleton_append, append_nil] at items
  have positive : 1 ≤ map.recordCount := by
    rw [counted]
    simp
    omega
  rw [remove, ensures_bind]
  refine (deleteRetiring_spec rangeCodec_lawful range.from_ (by simp [recordItems])
    stands).imp ?_
  intro root reached removed
  simp only [checkedSub, if_pos positive, ensures_bind, ensures_liftResult_ok]
  refine (rangeRecordRemoved_spec range.value removed).impOr ?_
  intro _ final stands
  rw [ensures_pure]
  refine ⟨?_, by simp [counted], canonical.without⟩
  rw [items, ← ledger_remove] at stands
  simpa [recordItems] using stands

theorem insert_spec (mapAt : MapAt laws frame base map (before ++ after) state)
    (canonical : Canonical (before ++ range :: after)) :
    Ensures (insert map range) state
      (fun result reached => MapAt laws frame base result (before ++ range :: after) reached)
      (RangeFails laws) := by
  obtain ⟨stands, counted, _⟩ := mapAt
  have proper := canonical.proper range (by simp)
  have items := splice_records range before [] after [(range.from_, range)] canonical.starts.1
    (by simp) canonical.starts.2
  simp only [append_nil] at items
  have encoded : encodeRecord range = .ok (range.entry proper).cell := if_neg (not_lt.mpr proper)
  have missing : range.from_ ∉ (recordItems (before ++ after)).map Prod.fst := by
    obtain ⟨low, high⟩ := canonical.starts
    simp only [recordItems, map_map, mem_map, mem_append, not_exists, not_and]
    rintro other (earlier | later)
    · exact ne_of_lt (low other earlier)
    · exact ne_of_gt (high other later)
  rw [insert, ensures_bind, encoded, ensures_liftResult_ok, ensures_bind]
  refine (insertRetiring_spec rangeCodec_lawful (range.entry proper) stands).mono ?_
    fun error _ failed => failed.imp fun bulky => absurd bulky.1 rangeCodec_fixed
  rintro ⟨inserted, root⟩ reached ⟨added, stored⟩
  obtain rfl : inserted = true := added missing
  have item : (range.entry proper).item = (range.from_, range) := rfl
  have key : (range.entry proper).key = range.from_ := rfl
  rw [key, item, items] at stored
  have fits := stored.length_lt
  simp only [recordItems, length_append, length_map, length_singleton] at fits
  have count : map.recordCount + 1 < 2 ^ 64 := by
    rw [counted, length_append]
    omega
  simp only [if_true, ensures_bind, checkedAdd, if_pos count, ensures_liftResult_ok]
  refine (rangeRecordAdded_spec range.value stored).impOr ?_
  intro _ final stands
  rw [ensures_pure]
  refine ⟨?_, by simp [counted]; omega, canonical⟩
  rw [← ledger_insert] at stands
  simpa [recordItems] using stands

variable {fail : Error → σ → Prop}

theorem readPredecessor_spec (key : K) (mapAt : MapAt laws frame base map records state) :
    Ensures (readPredecessor map key) state (fun result reached => reached = state ∧
      result = (records.filter fun record => decide (record.from_ ≤ key)).getLast?) fail := by
  obtain ⟨tallied, heap, entries, pages, owns, wellFormed, items, framed⟩ := mapAt.stands
  obtain ⟨rfl, keys⟩ := entries_records items
  refine (predecessor_spec key rangeCodec_lawful (laws.views owns) wellFormed.tree
    wellFormed.sorted).imp ?_
  rintro result reached ⟨same, rfl⟩
  refine ⟨same, ?_⟩
  rw [filter_map, getLast?_map]
  congr 2
  exact filter_congr fun entry member => by rw [comp_apply, keys entry member]

theorem readAtOrAfter_spec (key : K) (mapAt : MapAt laws frame base map records state) :
    Ensures (readAtOrAfter map key) state (fun result reached => reached = state ∧
      result = (records.filter fun record => decide (key ≤ record.from_)).head?) fail := by
  obtain ⟨tallied, heap, entries, pages, owns, wellFormed, items, framed⟩ := mapAt.stands
  obtain ⟨rfl, keys⟩ := entries_records items
  refine (atOrAfter_spec key rangeCodec_lawful (laws.views owns) wellFormed.tree
    wellFormed.sorted).imp ?_
  rintro result reached ⟨same, rfl⟩
  refine ⟨same, ?_⟩
  rw [filter_map, head?_map]
  congr 2
  exact filter_congr fun entry member => by rw [comp_apply, keys entry member]

theorem mergePrevious_spec (mapAt : MapAt laws frame base map records state)
    (proper : range.from_ ≤ range.to_)
    (sides : ∀ record ∈ records, record.to_ < range.from_ ∨ range.to_ < record.from_) :
    Ensures (mergePrevious map range) state
      (fun result reached => ∃ before after, MapAt laws frame base result.1 (before ++ after) reached ∧
        (∀ record ∈ before, record.Precedes result.2) ∧
        (∀ record ∈ after, result.2.to_ < record.from_) ∧ result.2.from_ ≤ result.2.to_ ∧
        overlay result.2 (before ++ after) = overlay range records)
      (RangeFails laws) := by
  have canonical := mapAt.canonical
  rw [mergePrevious, ensures_bind]
  refine (readPredecessor_spec range.from_ mapAt).imp ?_
  rintro found reached ⟨rfl, isFound⟩
  cases found with
  | none =>
    rw [ensures_pure]
    refine ⟨[], records, mapAt, by simp, ?_, proper, rfl⟩
    intro record member
    have past := none_upTo isFound.symm record member
    refine (sides record member).resolve_left fun below => ?_
    exact absurd (lt_of_lt_of_le past (canonical.proper record member)) (not_lt.mpr below.le)
  | some previous =>
    obtain ⟨before, after, rfl, low, high⟩ := last_upTo canonical.sorted isFound.symm
    have previousProper := canonical.proper previous (by simp)
    have ends : previous.to_ < range.from_ := (sides previous (by simp)).resolve_right fun above =>
      absurd (lt_of_lt_of_le above low) (not_lt.mpr proper)
    have beyond : ∀ record ∈ after, range.to_ < record.from_ := by
      intro record member
      refine (sides record (by simp [member])).resolve_left fun below => ?_
      exact absurd (lt_of_le_of_lt (canonical.proper record (by simp [member])) below)
        (not_lt.mpr (high record member).le)
    by_cases mergeable : previous.value = range.value ∧
        IpKey.checkedNext previous.to_ = some range.from_
    · simp only [if_pos mergeable, ensures_bind]
      refine (remove_spec mapAt).imp ?_
      intro result final without
      have near := (checkedNext_iff _ _).mp mergeable.2
      rw [ensures_pure]
      refine ⟨before, after, without, ?_, beyond, le_trans previousProper (le_trans ends.le proper),
        overlay_extend canonical mergeable.1 rfl
          (Span.covers_extend_left near previousProper proper)⟩
      intro record member
      have precedes := canonical.around.1 record member
      exact ⟨precedes.1, fun same => precedes.2 (same.trans mergeable.1.symm)⟩
    · simp only [if_neg mergeable, ensures_pure]
      refine ⟨before ++ [previous], after, by simpa using mapAt, ?_, beyond, proper, by simp⟩
      intro record member
      rcases mem_append.mp member with earlier | last
      · exact precedes_through canonical.around.1 previousProper ends record earlier
      · rw [mem_singleton.mp last]
        exact ⟨ends, fun same adjacent =>
          mergeable ⟨same, (checkedNext_iff _ _).mpr adjacent⟩⟩

theorem mergeNext_spec (mapAt : MapAt laws frame base map (before ++ after) state)
    (proper : range.from_ ≤ range.to_) (low : ∀ record ∈ before, record.Precedes range)
    (high : ∀ record ∈ after, range.to_ < record.from_) :
    Ensures (mergeNext map range) state
      (fun result reached => ∃ before' after',
        MapAt laws frame base result.1 (before' ++ after') reached ∧
        Canonical (before' ++ result.2 :: after') ∧
        overlay result.2 (before' ++ after') = overlay range (before ++ after))
      (RangeFails laws) := by
  have canonical := mapAt.canonical
  have starts : ∀ record ∈ before, record.from_ < range.from_ := fun record member =>
    lt_of_le_of_lt (canonical.proper record (by simp [member])) (low record member).1
  rw [mergeNext, ensures_bind]
  refine (readAtOrAfter_spec range.from_ mapAt).imp ?_
  rintro found reached ⟨rfl, isFound⟩
  cases found with
  | none =>
    rw [ensures_pure]
    refine ⟨before, after, mapAt, canonical.insert proper low ?_, rfl⟩
    intro record member
    have below := none_from isFound.symm record (by simp [member])
    exact absurd (lt_of_le_of_lt proper (high record member)) (not_lt.mpr below.le)
  | some next =>
    obtain ⟨front, back, cut, reach, below⟩ := first_from isFound.symm
    have inBefore : ∀ record ∈ front, record ∈ before := by
      intro record member
      have inAll : record ∈ before ++ after := by simp [cut, member]
      refine (mem_append.mp inAll).resolve_right fun later => ?_
      exact absurd (lt_of_le_of_lt proper (high record later)) (not_lt.mpr (below record member).le)
    have nextAfter : next ∈ after := by
      have inAll : next ∈ before ++ after := by simp [cut]
      exact (mem_append.mp inAll).resolve_left fun earlier =>
        absurd (starts next earlier) (not_lt.mpr reach)
    rw [cut] at canonical mapAt ⊢
    have nextProper := canonical.proper next (by simp)
    have frontLow : ∀ record ∈ front, record.Precedes range := fun record member =>
      low record (inBefore record member)
    by_cases mergeable : next.value = range.value ∧
        IpKey.checkedNext range.to_ = some next.from_
    · simp only [if_pos mergeable, ensures_bind]
      refine (remove_spec mapAt).imp ?_
      intro result final without
      have near := (checkedNext_iff _ _).mp mergeable.2
      rw [ensures_pure]
      refine ⟨front, back, without, canonical.without.insert ?_ frontLow ?_,
        overlay_extend canonical mergeable.1 rfl (Span.covers_extend_right near nextProper proper)⟩
      · exact le_trans reach nextProper
      · intro record member
        have precedes := canonical.around.2 record member
        exact ⟨precedes.1, fun same => precedes.2 (mergeable.1.trans same)⟩
    · simp only [if_neg mergeable, ensures_pure]
      refine ⟨front, next :: back, mapAt, canonical.insert proper frontLow ?_, rfl⟩
      have ends := high next nextAfter
      intro record member
      rcases mem_cons.mp member with rfl | later
      · exact ⟨ends, fun same adjacent =>
          mergeable ⟨same.symm, (checkedNext_iff _ _).mpr adjacent⟩⟩
      · exact precedes_beyond canonical.around.2 nextProper ends record later

theorem insertCoalesced_spec (mapAt : MapAt laws frame base map records state)
    (proper : range.from_ ≤ range.to_)
    (free : ∀ address, range.Covers address → valueAt records address = none) :
    Ensures (insertCoalesced map range) state
      (fun result reached => ∃ records', MapAt laws frame base result records' reached ∧
        valueAt records' = overlay range records)
      (RangeFails laws) := by
  have sides := mapAt.canonical.beside proper fun address low high => free address ⟨low, high⟩
  rw [insertCoalesced, ensures_bind]
  refine (mergePrevious_spec mapAt proper sides).imp ?_
  rintro ⟨map₁, range₁⟩ state₁ ⟨before, after, mapAt₁, low, high, proper₁, same₁⟩
  refine Ensures.bind (mergeNext_spec mapAt₁ proper₁ low high) ?_
  rintro ⟨map₂, range₂⟩ state₂ ⟨before₂, after₂, mapAt₂, canonical₂, same₂⟩
  refine (insert_spec mapAt₂ canonical₂).imp ?_
  intro result reached mapAt₃
  refine ⟨_, mapAt₃, ?_⟩
  rw [← same₁, ← same₂]
  funext address
  exact canonical₂.valueAt_insert address

end Steps

section Trim

variable {laws} {frame : Heap} {base : UInt32 → Int} {map : RangeRoot} {state : σ}
  {records original : List (Record K)} {from_ to_ : K}

variable {old : Record K} {before after : List (Record K)} {rewrite : Rewrite K}

structure Part (old : Record K) (side : K → Prop) (part : Record K) : Prop where
  proper : part.from_ ≤ part.to_
  value : part.value = old.value
  covers : ∀ address, part.Covers address ↔ old.Covers address ∧ side address

section Parts

variable {side : K → Prop} {part : Record K} (isPart : Part old side part)
include isPart

theorem Part.first : old.Covers part.from_ ∧ side part.from_ :=
  (isPart.covers _).mp ⟨le_rfl, isPart.proper⟩

theorem Part.last : old.Covers part.to_ ∧ side part.to_ :=
  (isPart.covers _).mp ⟨isPart.proper, le_rfl⟩

theorem Part.free (canonical : Canonical (before ++ old :: after)) (address : K)
    (covers : part.Covers address) : valueAt (before ++ after) address = none :=
  canonical.valueAt_without ((isPart.covers address).mp covers).1

end Parts

theorem leftPart_spec (starts : old.from_ < from_) (reaches : from_ ≤ old.to_) :
    ∃ left, leftPart old from_ = .ok left ∧ left.from_ = old.from_ ∧ left.to_ ⋖ from_ ∧
      Part old (· < from_) left := by
  obtain ⟨last, found, above⟩ := exists_previous starts
  have near := (checkedPrevious_iff last from_).mp found
  refine ⟨⟨old.from_, last, old.value⟩, ?_, rfl, near, above, rfl, ?_⟩
  · simp only [leftPart, found, expect, bind, Except.bind]
  · intro address
    constructor
    · rintro ⟨low, high⟩
      have below := lt_of_le_of_lt high near.lt
      exact ⟨⟨low, le_trans below.le reaches⟩, below⟩
    · rintro ⟨⟨low, high⟩, below⟩
      exact ⟨low, near.le_of_lt below⟩

theorem rightPart_spec (ends : to_ < old.to_) (reaches : old.from_ ≤ to_) :
    ∃ right, rightPart old to_ = .ok right ∧ right.to_ = old.to_ ∧ to_ ⋖ right.from_ ∧
      Part old (to_ < ·) right := by
  obtain ⟨first, found, below⟩ := exists_next ends
  have near := (checkedNext_iff to_ first).mp found
  refine ⟨⟨first, old.to_, old.value⟩, ?_, rfl, near, below, rfl, ?_⟩
  · simp only [rightPart, found, expect, bind, Except.bind]
  · intro address
    constructor
    · rintro ⟨low, high⟩
      have above := lt_of_lt_of_le near.lt low
      exact ⟨⟨le_trans reaches above.le, high⟩, above⟩
    · rintro ⟨⟨low, high⟩, above⟩
      exact ⟨near.ge_of_gt above, high⟩

def pending (range : Option (Record K)) (address : K) : Option UInt32 :=
  range.bind fun record => if record.Covers address then some record.value else none

@[simp] theorem pending_none (address : K) : pending none address = none := rfl

theorem pending_some {part : Record K} {P : K → Prop} [DecidablePred P] {value : UInt32}
    (covers : ∀ address, part.Covers address ↔ P address) (same : part.value = value) (address : K) :
    pending (some part) address = if P address then some value else none := by
  simp only [pending, Option.bind_some, covers, same]

structure Rest (old : Record K) (side : K → Prop) [DecidablePred side] (rest : Option (Record K)) :
    Prop where
  pends : ∀ address, pending rest address =
    if old.Covers address ∧ side address then some old.value else none
  parts : ∀ part ∈ rest, Part old side part

theorem Part.rest {side : K → Prop} [DecidablePred side] {part : Record K}
    (isPart : Part old side part) : Rest old side (some part) := by
  refine ⟨pending_some isPart.covers isPart.value, ?_⟩
  rintro _ ⟨⟩
  exact isPart

theorem rest_none {side : K → Prop} [DecidablePred side]
    (empty : ∀ address, old.Covers address → ¬ side address) : Rest old side none := by
  refine ⟨fun address => ?_, by simp⟩
  rw [if_neg fun both => empty address both.1 both.2, pending_none]

theorem trimLeft_spec (reaches : from_ ≤ old.to_) :
    ∃ left, trimLeft old from_ = .ok left ∧ Rest old (· < from_) left := by
  by_cases starts : old.from_ < from_
  · obtain ⟨left, made, _, _, isLeft⟩ := leftPart_spec starts reaches
    refine ⟨some left, ?_, isLeft.rest⟩
    rw [trimLeft, if_pos starts, made]
    rfl
  · exact ⟨none, if_neg starts, rest_none fun address covers below =>
      starts (lt_of_le_of_lt covers.1 below)⟩

theorem trimRight_spec (reaches : old.from_ ≤ to_) :
    ∃ right, trimRight old to_ = .ok right ∧ Rest old (to_ < ·) right := by
  by_cases ends : to_ < old.to_
  · obtain ⟨right, made, _, _, isRight⟩ := rightPart_spec ends reaches
    refine ⟨some right, ?_, isRight.rest⟩
    rw [trimRight, if_pos ends, made]
    rfl
  · exact ⟨none, if_neg ends, rest_none fun address covers above =>
      ends (lt_of_lt_of_le above covers.2)⟩

theorem without_subset : before ++ after ⊆ before ++ old :: after :=
  ((sublist_cons_self old after).append_left before).subset

structure Trimmed (original records : List (Record K)) (from_ to_ : K) (rewrite : Rewrite K) :
    Prop where
  outside : ∀ address, address < from_ ∨ to_ < address → valueAt original address =
    (pending rewrite.right address <|> (pending rewrite.left address <|> valueAt records address))
  left : ∀ part ∈ rewrite.left, part.from_ ≤ part.to_ ∧ part.to_ < from_ ∧
    ∀ address, part.Covers address → valueAt records address = none
  right : ∀ part ∈ rewrite.right, part.from_ ≤ part.to_ ∧ to_ < part.from_ ∧
    ∀ address, part.Covers address → valueAt records address = none
  settled : rewrite.right.isSome → ∀ address, from_ ≤ address → address ≤ to_ →
    valueAt records address = none
  low : ∀ record ∈ records, record.from_ ≤ from_ → record.to_ < from_
  kept : ∀ record ∈ records, record ∈ original
  touched : rewrite.changed = true → ∃ address, from_ ≤ address ∧ address ≤ to_ ∧
    valueAt original address ≠ none
  untouched : rewrite.changed = false → records = original

theorem trimPredecessor_spec (mapAt : MapAt laws frame base map original state)
    (ordered : from_ ≤ to_) :
    Ensures (trimPredecessor map
        (original.filter fun record => decide (record.from_ ≤ from_)).getLast? from_ to_) state
      (fun result reached => ∃ records, MapAt laws frame base result.1 records reached ∧
        Trimmed original records from_ to_ result.2)
      (RangeFails laws) := by
  have canonical := mapAt.canonical
  rw [trimPredecessor]
  cases found : (original.filter fun record => decide (record.from_ ≤ from_)).getLast? with
  | none =>
    have beyond := none_upTo found
    simp only [Option.filter_none, ensures_pure]
    refine ⟨original, mapAt, fun _ _ => rfl, by simp, by simp, by simp, ?_, fun _ member => member,
      by simp, fun _ => rfl⟩
    exact fun record member start => absurd (beyond record member) (not_lt.mpr start)
  | some old =>
    obtain ⟨before, after, rfl, start, beyond⟩ := last_upTo canonical.sorted found
    by_cases reaches : from_ ≤ old.to_
    · simp only [Option.filter_some, decide_eq_true reaches, if_true, ensures_bind]
      refine (remove_spec mapAt).imp ?_
      intro removed reached without
      obtain ⟨left, leftRun, leftRest⟩ := trimLeft_spec reaches
      obtain ⟨right, rightRun, rightRest⟩ := trimRight_spec (le_trans start ordered)
      rw [leftRun, ensures_liftResult_ok, rightRun, ensures_liftResult_ok, ensures_pure]
      refine ⟨before ++ after, without, ?_, ?_, ?_, ?_, ?_, fun _ member => without_subset member,
        ?_, by simp⟩
      · intro address side
        rw [rightRest.pends, leftRest.pends, canonical.valueAt_insert]
        by_cases covers : old.Covers address
        · rcases side with below | above
          · have notRight : ¬ to_ < address := not_lt.mpr (le_trans below.le ordered)
            simp [covers, below, notRight]
          · simp [covers, above]
        · simp [covers]
      · intro part member
        have isPart := leftRest.parts part member
        exact ⟨isPart.proper, isPart.last.2, isPart.free canonical⟩
      · intro part member
        have isPart := rightRest.parts part member
        exact ⟨isPart.proper, isPart.first.2, isPart.free canonical⟩
      · intro some_ address low high
        obtain ⟨part, member⟩ := Option.isSome_iff_exists.mp some_
        obtain ⟨inOld, past⟩ := (rightRest.parts part member).last
        exact canonical.valueAt_without
          ⟨le_trans start low, le_trans high (le_trans past.le inOld.2)⟩
      · intro record member starts
        rcases mem_append.mp member with earlier | later
        · exact lt_of_lt_of_le (canonical.around.1 record earlier).1 start
        · exact absurd (beyond record later) (not_lt.mpr starts)
      · refine fun _ => ⟨from_, le_rfl, ordered, ?_⟩
        rw [canonical.valueAt_of_mem (by simp) ⟨start, reaches⟩]
        exact Option.some_ne_none _
    · simp only [Option.filter_some, decide_eq_false reaches, Bool.false_eq_true, if_false,
        ensures_pure]
      refine ⟨_, mapAt, fun _ _ => rfl, by simp, by simp, by simp, ?_, fun _ member => member,
        by simp, fun _ => rfl⟩
      intro record member starts
      have ends := not_le.mp reaches
      rcases mem_append.mp member with earlier | others
      · have precedes := canonical.around.1 record earlier
        exact lt_trans precedes.1 (lt_of_le_of_lt (canonical.proper old (by simp)) ends)
      · rcases mem_cons.mp others with rfl | later
        · exact ends
        · exact absurd (beyond record later) (not_lt.mpr starts)

theorem valueAt_none_without {address : K} (free : valueAt (before ++ old :: after) address = none) :
    valueAt (before ++ after) address = none := by
  rw [valueAt_eq_none] at free ⊢
  exact fun record member => free record (without_subset member)

theorem Trimmed.rightNone (trimmed : Trimmed original (before ++ old :: after) from_ to_ rewrite)
    (ordered : Canonical (before ++ old :: after)) (reach : from_ ≤ old.from_)
    (inside : old.from_ ≤ to_) : rewrite.right = none := by
  by_contra some_
  have free := trimmed.settled (Option.isSome_iff_ne_none.mpr some_) old.from_ reach inside
  rw [ordered.valueAt_of_mem (by simp) ⟨le_rfl, ordered.proper old (by simp)⟩] at free
  cases free

theorem Trimmed.without (right : Option (Record K))
    (trimmed : Trimmed original (before ++ old :: after) from_ to_ rewrite)
    (canonical : Canonical original) (ordered : Canonical (before ++ old :: after))
    (reach : from_ ≤ old.from_) (inside : old.from_ ≤ to_)
    (early : ∀ record ∈ before, record.to_ < from_) (rest : Rest old (to_ < ·) right)
    (settled : right.isSome → ∀ record ∈ after, to_ < record.from_) :
    Trimmed original (before ++ after) from_ to_ { rewrite with right, changed := true } := by
  have proper := ordered.proper old (by simp)
  refine ⟨?_, ?_, ?_, ?_, fun record member => trimmed.low record (without_subset member),
    fun record member => trimmed.kept record (without_subset member), ?_, by simp⟩
  · intro address side
    have whole := trimmed.outside address side
    rw [trimmed.rightNone ordered reach inside, pending_none] at whole
    rw [whole, rest.pends, ordered.valueAt_insert]
    by_cases covers : old.Covers address
    · have above : to_ < address := side.resolve_left fun below =>
        absurd (lt_of_le_of_lt (le_trans reach covers.1) below) (lt_irrefl _)
      have notLeft : pending rewrite.left address = none := by
        cases part : rewrite.left with
        | none => rfl
        | some left =>
          have ends := (trimmed.left left part).2.1
          have past : ¬ left.Covers address := fun both => absurd
            (lt_of_le_of_lt both.2 (lt_of_lt_of_le ends (le_trans reach covers.1))) (lt_irrefl _)
          simp [pending, past]
      simp [covers, above, notLeft]
    · simp [covers]
  · intro part member
    obtain ⟨partProper, ends, free⟩ := trimmed.left part member
    exact ⟨partProper, ends, fun address covers => valueAt_none_without (free address covers)⟩
  · intro part member
    have isPart := rest.parts part member
    exact ⟨isPart.proper, isPart.first.2, isPart.free ordered⟩
  · intro some_ address low high
    rw [valueAt_eq_none]
    intro record member covers
    rcases mem_append.mp member with earlier | later
    · exact absurd (lt_of_le_of_lt (le_trans low covers.2) (early record earlier)) (lt_irrefl _)
    · exact absurd (lt_of_lt_of_le (settled some_ record later) covers.1) (not_lt.mpr high)
  · refine fun _ => ⟨old.from_, reach, inside, ?_⟩
    rw [canonical.valueAt_of_mem (trimmed.kept old (by simp)) ⟨le_rfl, proper⟩]
    exact Option.some_ne_none _

theorem trimFollowing_spec (canonical : Canonical original) (turns : Nat)
    (mapAt : MapAt laws frame base map records state)
    (trimmed : Trimmed original records from_ to_ rewrite) (enough : records.length < turns) :
    Ensures (trimFollowing from_ to_ turns map rewrite) state
      (fun result reached => ∃ last, MapAt laws frame base result.1 last reached ∧
        Trimmed original last from_ to_ result.2 ∧
        ∀ address, from_ ≤ address → address ≤ to_ → valueAt last address = none)
      (RangeFails laws) := by
  induction turns generalizing map records rewrite state with
  | zero => omega
  | succ turns ih =>
    rw [trimFollowing, ensures_bind]
    refine (readAtOrAfter_spec from_ mapAt).imp ?_
    rintro found reached ⟨rfl, isFound⟩
    cases found with
    | none =>
      rw [ensures_pure]
      refine ⟨records, mapAt, trimmed, fun address low high => valueAt_eq_none.mpr ?_⟩
      intro record member covers
      have ends := trimmed.low record member (none_from isFound.symm record member).le
      exact absurd (lt_of_le_of_lt (le_trans low covers.2) ends) (lt_irrefl _)
    | some old =>
      obtain ⟨before, after, rfl, reach, below⟩ := first_from isFound.symm
      have early : ∀ record ∈ before, record.to_ < from_ := fun record member =>
        trimmed.low record (by simp [member]) (below record member).le
      have current := mapAt.canonical
      by_cases past : to_ < old.from_
      · simp only [if_pos past, ensures_pure]
        refine ⟨_, mapAt, trimmed, fun address low high => valueAt_eq_none.mpr ?_⟩
        intro record member covers
        rcases mem_append.mp member with earlier | others
        · exact absurd (lt_of_le_of_lt (le_trans low covers.2) (early record earlier))
            (lt_irrefl _)
        · have starts : to_ < record.from_ := by
            rcases mem_cons.mp others with rfl | later
            · exact past
            · exact lt_trans past (current.starts.2 record later)
          exact absurd (lt_of_lt_of_le starts covers.1) (not_lt.mpr high)
      · have inside := not_lt.mp past
        simp only [if_neg past, ensures_bind]
        refine (remove_spec mapAt).imp ?_
        intro removed reached without
        by_cases ends : to_ < old.to_
        · obtain ⟨right, made, _, _, isRight⟩ := rightPart_spec ends inside
          simp only [if_pos ends, made, ensures_bind, ensures_liftResult_ok, ensures_pure]
          have last := trimmed.without (some right) canonical current reach inside early
            isRight.rest (fun _ record later => lt_trans ends (current.around.2 record later).1)
          exact ⟨_, without, last, last.settled rfl⟩
        · rw [if_neg ends]
          have rest := trimmed.without none canonical current reach inside early
            (rest_none fun address covers above => ends (lt_of_lt_of_le above covers.2)) (by simp)
          rw [← trimmed.rightNone current reach inside] at rest
          refine ih without rest ?_
          simp only [length_append, length_cons] at enough ⊢
          omega

theorem insertPending_spec (range : Option (Record K))
    (mapAt : MapAt laws frame base map records state)
    (free : ∀ part ∈ range, part.from_ ≤ part.to_ ∧
      ∀ address, part.Covers address → valueAt records address = none) :
    Ensures (insertPending map range) state
      (fun result reached => ∃ last, MapAt laws frame base result last reached ∧
        ∀ address, valueAt last address = (pending range address <|> valueAt records address))
      (RangeFails laws) := by
  cases range with
  | none =>
    rw [insertPending, ensures_pure]
    exact ⟨records, mapAt, fun address => by simp⟩
  | some part =>
    obtain ⟨proper, gap⟩ := free part rfl
    refine (insertCoalesced_spec mapAt proper gap).imp ?_
    rintro result reached ⟨last, mapAt, values⟩
    refine ⟨last, mapAt, fun address => ?_⟩
    rw [values, overlay, pending, Option.bind_some]
    by_cases covers : part.Covers address
    · simp [covers]
    · simp [covers]

theorem pending_eq_none {range : Option (Record K)} {address : K}
    (apart : ∀ part ∈ range, ¬ part.Covers address) : pending range address = none := by
  cases range with
  | none => rfl
  | some part => simp [pending, apart part rfl]

theorem writeReplacement_spec (value : Option UInt32) (ordered : from_ ≤ to_)
    (mapAt : MapAt laws frame base map records state)
    (trimmed : Trimmed original records from_ to_ rewrite)
    (cleared : ∀ address, from_ ≤ address → address ≤ to_ → valueAt records address = none) :
    Ensures (writeReplacement map from_ to_ value rewrite) state
      (fun result reached => result.1 = (rewrite.changed || value.isSome) ∧
        ∃ last, MapAt laws frame base result.2 last reached ∧
          ∀ address, valueAt last address =
            if from_ ≤ address ∧ address ≤ to_ then value else valueAt original address)
      (RangeFails laws) := by
  have leftLow : ∀ address, from_ ≤ address → pending rewrite.left address = none :=
    fun address low => pending_eq_none fun part member covers => absurd
      (lt_of_le_of_lt covers.2 (trimmed.left part member).2.1) (not_lt.mpr low)
  have rightHigh : ∀ address, address ≤ to_ → pending rewrite.right address = none :=
    fun address high => pending_eq_none fun part member covers => absurd
      (lt_of_lt_of_le (trimmed.right part member).2.1 covers.1) (not_lt.mpr high)
  have middle : ∀ address, pending (value.map fun value => ⟨from_, to_, value⟩) address =
      if from_ ≤ address ∧ address ≤ to_ then value else none := by
    intro address
    cases value with
    | none => simp
    | some value =>
      have covers : ∀ address, (⟨from_, to_, value⟩ : Record K).Covers address ↔
          from_ ≤ address ∧ address ≤ to_ := fun _ => Iff.rfl
      exact pending_some covers rfl address
  rw [writeReplacement, ensures_bind]
  refine (insertPending_spec rewrite.left mapAt fun part member =>
    ⟨(trimmed.left part member).1, (trimmed.left part member).2.2⟩).imp ?_
  rintro map₁ state₁ ⟨records₁, mapAt₁, values₁⟩
  refine Ensures.bind (insertPending_spec _ mapAt₁ ?_) ?_
  · intro part member
    obtain ⟨value, rfl, rfl⟩ := Option.map_eq_some_iff.mp member
    refine ⟨ordered, fun address covers => ?_⟩
    rw [values₁, leftLow address covers.1, cleared address covers.1 covers.2]
    rfl
  · rintro map₂ state₂ ⟨records₂, mapAt₂, values₂⟩
    refine Ensures.bind (insertPending_spec rewrite.right mapAt₂ ?_) ?_
    · intro part member
      obtain ⟨proper, starts, free⟩ := trimmed.right part member
      refine ⟨proper, fun address covers => ?_⟩
      have above := lt_of_lt_of_le starts covers.1
      rw [values₂, values₁, middle, leftLow address (le_trans ordered above.le), free address covers,
        if_neg fun both => absurd above (not_lt.mpr both.2)]
      rfl
    · rintro map₃ state₃ ⟨records₃, mapAt₃, values₃⟩
      rw [ensures_pure]
      refine ⟨rfl, records₃, mapAt₃, fun address => ?_⟩
      rw [values₃, values₂, values₁, middle]
      by_cases inside : from_ ≤ address ∧ address ≤ to_
      · rw [if_pos inside, if_pos inside, rightHigh address inside.2, leftLow address inside.1,
          cleared address inside.1 inside.2]
        cases value with
        | none => rfl
        | some value => rfl
      · have side : address < from_ ∨ to_ < address := by
          by_contra! both
          exact inside both
        rw [if_neg inside, if_neg inside, trimmed.outside address side]
        rfl

end Trim

section Inside

variable {laws} {frame : Heap} {base : UInt32 → Int} {map : RangeRoot} {state : σ}
  {before after : List (Record K)} {old left right : Record K} {from_ to_ : K} (value : Option UInt32)

def pieces (left right : Record K) (from_ to_ : K) (value : Option UInt32) : List (Record K) :=
  left :: ((value.map fun value => ⟨from_, to_, value⟩).toList ++ [right])

section Pieces

variable (isLeft : Part old (· < from_) left) (isRight : Part old (to_ < ·) right)
include isLeft isRight

theorem pieces_canonical (canonical : Canonical (before ++ old :: after)) (ordered : from_ ≤ to_)
    (leftFrom : left.from_ = old.from_) (leftNear : left.to_ ⋖ from_)
    (rightTo : right.to_ = old.to_) (rightNear : to_ ⋖ right.from_)
    (differs : ∀ new ∈ value, new ≠ old.value) :
    Canonical (before ++ (pieces left right from_ to_ value ++ after)) := by
  obtain ⟨leftProper, leftValue, _⟩ := isLeft
  obtain ⟨rightProper, rightValue, _⟩ := isRight
  obtain ⟨low, high⟩ := canonical.around
  have beforeLeft : ∀ record ∈ before, record.Precedes left := fun record member => by
    rw [Span.Precedes, leftFrom, leftValue]
    exact low record member
  have rightAfter : ∀ record ∈ after, right.Precedes record := fun record member => by
    rw [Span.Precedes, rightTo, rightValue]
    exact high record member
  have across : left.to_ < right.from_ :=
    lt_trans leftNear.lt (lt_of_le_of_lt ordered rightNear.lt)
  have withRight : Canonical (before ++ right :: after) :=
    canonical.without.insert rightProper (precedes_through beforeLeft leftProper across) rightAfter
  have leftRight : left.Precedes right :=
    ⟨across, fun _ adjacent => adjacent.2 leftNear.lt (lt_of_le_of_lt ordered rightNear.lt)⟩
  cases value with
  | none =>
    refine withRight.insert leftProper beforeLeft fun record member => ?_
    rcases mem_cons.mp member with rfl | later
    · exact leftRight
    · exact precedes_beyond rightAfter rightProper across record later
  | some new =>
    have isNew : new ≠ old.value := differs new rfl
    have withMiddle : Canonical (before ++ ⟨from_, to_, new⟩ :: right :: after) := by
      refine withRight.insert ordered (precedes_through beforeLeft leftProper leftNear.lt) ?_
      intro record member
      rcases mem_cons.mp member with rfl | later
      · exact ⟨rightNear.lt, fun same => absurd (same.trans rightValue) isNew⟩
      · exact precedes_beyond rightAfter rightProper rightNear.lt record later
    refine withMiddle.insert leftProper beforeLeft fun record member => ?_
    rcases mem_cons.mp member with rfl | others
    · exact ⟨leftNear.lt, fun same => absurd (same.symm.trans leftValue) isNew⟩
    · rcases mem_cons.mp others with rfl | later
      · exact leftRight
      · exact precedes_beyond rightAfter rightProper across record later

theorem pieces_valueAt (canonical : Canonical (before ++ old :: after)) (starts : old.from_ ≤ from_)
    (ends : to_ ≤ old.to_) (address : K) :
    valueAt (before ++ (pieces left right from_ to_ value ++ after)) address =
      if from_ ≤ address ∧ address ≤ to_ then value
      else valueAt (before ++ old :: after) address := by
  have middle : valueAt ((value.map fun value => (⟨from_, to_, value⟩ : Record K)).toList ++
      right :: after) address =
      if from_ ≤ address ∧ address ≤ to_ ∧ value.isSome then value
      else valueAt (right :: after) address := by
    cases value with
    | none => simp
    | some new => simp [valueAt_cons, Span.Covers]
  rw [canonical.valueAt_insert]
  simp only [pieces, cons_append, append_assoc, nil_append, valueAt_append before,
    valueAt_cons left, middle, valueAt_cons right, isLeft.covers, isRight.covers, isLeft.value,
    isRight.value]
  by_cases covers : old.Covers address
  · have outside := canonical.valueAt_without covers
    rw [valueAt_append] at outside
    obtain ⟨noneBefore, noneAfter⟩ : valueAt before address = none ∧ valueAt after address = none := by
      simpa using outside
    rw [noneBefore, noneAfter]
    rcases lt_or_ge address from_ with below | above
    · simp [covers, below, not_le.mpr below]
    · rcases lt_or_ge to_ address with past | inside
      · simp [covers, not_lt.mpr above, past, not_le.mpr past]
      · cases value with
        | none => simp [not_lt.mpr above, not_lt.mpr inside, above, inside]
        | some new => simp [not_lt.mpr above, above, inside]
  · have notInside : ¬ (from_ ≤ address ∧ address ≤ to_) := fun both =>
      covers ⟨le_trans starts both.1, le_trans both.2 ends⟩
    have notMiddle : ¬ (from_ ≤ address ∧ address ≤ to_ ∧ value.isSome) := fun both =>
      notInside ⟨both.1, both.2.1⟩
    rw [if_neg notInside, if_neg notMiddle]
    simp [covers]

theorem ledger_pieces :
    ledger base (before ++ (pieces left right from_ to_ value ++ after)) =
      ledger base (before ++ old :: ((value.map fun value => ⟨from_, to_, value⟩).toList ++
        old :: after)) := by
  funext counted
  simp only [ledger, holding, pieces, cons_append, append_assoc, nil_append,
    countP_append, countP_cons, isLeft.value, isRight.value]

theorem split_accounted (recordCount : Nat) {root : Nat} {items : List (K × Record K)}
    (stands : Stands laws (rangeCodec K) frame root items (ledger base (before ++ old :: after))
      state) :
    Ensures (do
        RangeStore.rangeRecordAdded (value.getD old.value)
        if value.isSome then do
          RangeStore.rangeRecordAdded old.value
          pure (true, { root, recordCount })
        else pure (true, { root, recordCount }) : EStateM Error σ (Bool × RangeRoot)) state
      (fun result reached => result = (true, { root, recordCount }) ∧
        Stands laws (rangeCodec K) frame root items
          (ledger base (before ++ (pieces left right from_ to_ value ++ after))) reached)
      (RangeFails laws) := by
  rw [ledger_pieces value isLeft isRight, ensures_bind]
  refine (rangeRecordAdded_spec _ stands).impOr ?_
  intro _ reached stands
  cases value with
  | none =>
    simp only [Option.isSome_none, Bool.false_eq_true, if_false, ensures_pure]
    refine ⟨trivial, ?_⟩
    have grown := ledger_insert base before (old :: after) old
    exact grown ▸ stands
  | some new =>
    simp only [Option.isSome_some, if_true, ensures_bind]
    have first := ledger_insert base before (old :: after) ⟨from_, to_, new⟩
    have second := ledger_insert base before (⟨from_, to_, new⟩ :: old :: after) old
    simp only [Option.getD_some] at stands
    rw [← first] at stands
    refine (rangeRecordAdded_spec _ stands).impOr ?_
    intro _ final stands
    rw [ensures_pure]
    refine ⟨rfl, ?_⟩
    rw [← second] at stands
    exact stands

end Pieces

theorem replaceStrictlyInside_spec
    (mapAt : MapAt laws frame base map (before ++ old :: after) state) (ordered : from_ ≤ to_)
    (starts : old.from_ < from_) (ends : to_ < old.to_) (differs : ∀ new ∈ value, new ≠ old.value) :
    Ensures (replaceStrictlyInside map old from_ to_ value) state
      (fun result reached => result.1 = true ∧ ∃ last, MapAt laws frame base result.2 last reached ∧
        ∀ address, valueAt last address = if from_ ≤ address ∧ address ≤ to_ then value
          else valueAt (before ++ old :: after) address)
      (RangeFails laws) := by
  obtain ⟨stands, counted, canonical⟩ := mapAt
  obtain ⟨left, leftMade, leftFrom, leftNear, isLeft⟩ :=
    leftPart_spec starts (le_trans ordered ends.le)
  obtain ⟨right, rightMade, rightTo, rightNear, isRight⟩ :=
    rightPart_spec ends (le_trans starts.le ordered)
  have leftProper := isLeft.proper
  have rightProper := isRight.proper
  have whole := pieces_canonical value isLeft isRight canonical ordered leftFrom leftNear rightTo
    rightNear differs
  have leftEncoded : (leftPart old from_ >>= encodeRecord) = .ok (left.entry leftProper).cell := by
    rw [leftMade]
    exact if_neg (not_lt.mpr leftProper)
  have rightEncoded : (rightPart old to_ >>= encodeRecord) = .ok (right.entry rightProper).cell := by
    rw [rightMade]
    exact if_neg (not_lt.mpr rightProper)
  let middle : Option (Entry (rangeCodec K)) :=
    value.map fun value => Record.entry ⟨from_, to_, value⟩ ordered
  have middleEncoded : (value.mapM fun value => encodeRecord (⟨from_, to_, value⟩ : Record K)) =
      .ok (middle.map Entry.cell) := by
    cases value with
    | none => rfl
    | some new =>
      have encoded : encodeRecord (⟨from_, to_, new⟩ : Record K) =
          .ok (Record.entry ⟨from_, to_, new⟩ ordered).cell := if_neg (not_lt.mpr ordered)
      simp [middle, encoded, Functor.map, Except.map]
  let new : List (Entry (rangeCodec K)) :=
    left.entry leftProper :: (middle.toList ++ [right.entry rightProper])
  have cells : [(left.entry leftProper).cell] ++ (middle.map Entry.cell).toList ++
      [(right.entry rightProper).cell] = new.map Entry.cell := by
    cases value with
    | none => rfl
    | some value => rfl
  have items : new.map Entry.item = recordItems (pieces left right from_ to_ value) := by
    cases value with
    | none => rfl
    | some value => rfl
  have isSome : (middle.map Entry.cell).isSome = value.isSome := by
    cases value with
    | none => rfl
    | some value => rfl
  have promise : ∀ entry ∈ new, ∀ item ∈ recordItems (before ++ old :: after),
      old.from_ < item.1 → entry.key < item.1 := by
    intro entry member item isItem past
    obtain ⟨record, stored, rfl⟩ := mem_map.mp isItem
    have ends_ : old.to_ < record.from_ := by
      rcases mem_append.mp stored with earlier | others
      · exact absurd past (not_lt.mpr (canonical.starts.1 record earlier).le)
      · rcases mem_cons.mp others with rfl | later
        · exact absurd past (lt_irrefl _)
        · exact (canonical.around.2 record later).1
    refine lt_of_le_of_lt ?_ ends_
    simp only [new, middle, mem_cons, mem_append, Option.mem_toList, not_mem_nil,
      or_false] at member
    rcases member with rfl | isMiddle | rfl
    · exact isLeft.first.1.2
    · obtain ⟨_, _, rfl⟩ := Option.map_eq_some_iff.mp isMiddle
      exact le_trans ordered ends.le
    · exact isRight.first.1.2
  have accepted : requireReplacement (rangeCodec K) left.from_ (new.map Entry.cell) = .ok () := by
    have sorted := (whole.sublist ((sublist_append_left _ after).trans
      (sublist_append_right before _))).sorted
    have keys : new.map Entry.key = (pieces left right from_ to_ value).map Span.from_ := by
      cases value with
      | none => rfl
      | some value => rfl
    refine requireReplacement_entries rangeCodec_lawful (left.entry leftProper) ?_ ?_ ?_
    · exact pairwise_map.mp (keys ▸ pairwise_map.mpr sorted)
    · simp
    · cases value with
      | none => simp [middle]
      | some value => simp [middle]
  simp only [replaceStrictlyInside, leftEncoded, rightEncoded, middleEncoded, ensures_bind,
    ensures_liftResult_ok, cells, isSome]
  refine (replaceRetiring_spec rangeCodec_lawful old.from_ new (by simp [recordItems])
    (leftFrom ▸ accepted) promise stands).mono ?_
    fun error _ failed => failed.imp fun long => absurd long rangeCodec_small
  intro replaced reached retire
  refine retire.impOr ?_
  intro _ retired stored
  have spliced := splice_records old before [old] after (new.map Entry.item) canonical.starts.1
    (by simp) canonical.starts.2
  simp only [append_assoc, singleton_append] at spliced
  rw [spliced, items] at stored
  have fits := stored.length_lt
  simp only [recordItems, length_append, length_map] at fits
  have count : map.recordCount + (if value.isSome then 2 else 1) =
      (before ++ (pieces left right from_ to_ value ++ after)).length := by
    cases value with
    | none => simp [pieces, counted]; omega
    | some value => simp [pieces, counted]; omega
  have word : (before ++ (pieces left right from_ to_ value ++ after)).length < 2 ^ 64 := by
    simpa only [length_append, Nat.add_assoc] using fits
  simp only [checkedAdd, count, if_pos word, ensures_liftResult_ok]
  have accounted := split_accounted value isLeft isRight
    (before ++ (pieces left right from_ to_ value ++ after)).length stored
  rw [ensures_bind] at accounted
  refine accounted.imp fun _ final rest => rest.imp ?_
  rintro result last ⟨rfl, accounts⟩
  refine ⟨rfl, before ++ (pieces left right from_ to_ value ++ after), ⟨?_, rfl, whole⟩,
    pieces_valueAt value isLeft isRight canonical starts.le ends.le⟩
  simpa [recordItems] using accounts

end Inside

section Replace

variable {laws} {frame : Heap} {base : UInt32 → Int} {map : RangeRoot} {state : σ}
  {records last : List (Record K)} {from_ to_ : K} {value : Option UInt32}

def updateRange (from_ to_ : K) (value : Option UInt32) (function : K → Option UInt32) (address : K) :
    Option UInt32 :=
  if from_ ≤ address ∧ address ≤ to_ then value else function address

theorem updateRange_ne_iff (from_ to_ : K) (value : Option UInt32) (function : K → Option UInt32) :
    updateRange from_ to_ value function ≠ function ↔
      ∃ address, from_ ≤ address ∧ address ≤ to_ ∧ function address ≠ value := by
  constructor
  · intro differs
    by_contra! same
    refine differs (funext fun address => ?_)
    by_cases inside : from_ ≤ address ∧ address ≤ to_
    · rw [updateRange, if_pos inside, same address inside.1 inside.2]
    · rw [updateRange, if_neg inside]
  · rintro ⟨address, low, high, differs⟩ same
    have here := congrFun same address
    rw [updateRange, if_pos ⟨low, high⟩] at here
    exact differs here.symm

theorem predecessor_of_covers (canonical : Canonical records) {record : Record K}
    (member : record ∈ records) (covers : record.Covers from_) :
    (records.filter fun other => decide (other.from_ ≤ from_)).getLast? = some record := by
  obtain ⟨before, after, rfl⟩ := append_of_mem member
  have later : after.filter (fun other => decide (other.from_ ≤ from_)) = [] := by
    refine filter_eq_nil_iff.mpr fun other isAfter => ?_
    have past := lt_of_le_of_lt covers.2 (canonical.around.2 other isAfter).1
    simpa using past
  rw [filter_append, filter_cons_of_pos (by simpa using covers.1), later]
  exact getLast?_concat

theorem exists_other_value (canonical : Canonical records) (ordered : from_ ≤ to_) {new : UInt32}
    (missing : ∀ old, (records.filter fun other => decide (other.from_ ≤ from_)).getLast? = some old →
      to_ ≤ old.to_ → new ≠ old.value) :
    ∃ address, from_ ≤ address ∧ address ≤ to_ ∧ valueAt records address ≠ some new := by
  have := isStronglyAtomic (K := K)
  by_contra! same
  obtain ⟨record, member, low, high, isValue⟩ := canonical.constant ordered same
  have isLast := predecessor_of_covers canonical member ⟨low, le_trans ordered high⟩
  exact missing record isLast high isValue.symm

theorem replace_spec (mapAt : MapAt laws frame base map records state) (ordered : from_ ≤ to_)
    (value : Option UInt32) :
    Ensures (replace map from_ to_ value) state
      (fun result reached => ∃ last, MapAt laws frame base result.2 last reached ∧
        valueAt last = updateRange from_ to_ value (valueAt records) ∧
        (result.1 = true ↔ valueAt last ≠ valueAt records))
      (RangeFails laws) := by
  have canonical := mapAt.canonical
  rw [replace, if_neg (not_lt.mpr ordered), ensures_bind]
  refine (readPredecessor_spec from_ mapAt).imp ?_
  rintro found reached ⟨rfl, isFound⟩
  by_cases held : (value.isSome && found.any fun old =>
      decide (to_ ≤ old.to_) && decide (value = some old.value)) = true
  · rw [if_pos held, ensures_pure]
    simp only [Bool.and_eq_true, Option.any_eq_true, decide_eq_true_eq] at held
    obtain ⟨-, old, rfl, reaches, rfl⟩ := held
    obtain ⟨before, after, rfl, start, -⟩ := last_upTo canonical.sorted isFound.symm
    have unchanged : valueAt (before ++ old :: after) =
        updateRange from_ to_ (some old.value) (valueAt (before ++ old :: after)) := by
      by_contra! moved
      obtain ⟨address, low, high, other⟩ := (updateRange_ne_iff ..).mp moved.symm
      exact other (canonical.valueAt_of_mem (by simp) ⟨le_trans start low, le_trans high reaches⟩)
    exact ⟨_, mapAt, unchanged, by simp⟩
  · rw [if_neg held]
    have missing : ∀ old, found = some old → to_ ≤ old.to_ → ∀ new ∈ value, new ≠ old.value := by
      rintro old rfl reaches new rfl rfl
      exact held (by simp [reaches])
    cases inside : found.filter fun old => decide (old.from_ < from_ ∧ to_ < old.to_) with
    | some old =>
      obtain ⟨rfl, within⟩ := Option.filter_eq_some_iff.mp inside
      obtain ⟨starts, ends⟩ := of_decide_eq_true within
      obtain ⟨before, after, rfl, -, -⟩ := last_upTo canonical.sorted isFound.symm
      have differs := missing old rfl ends.le
      refine (replaceStrictlyInside_spec value mapAt ordered starts ends differs).imp ?_
      rintro result final ⟨changed, last, lastAt, values⟩
      have update := funext values
      refine ⟨last, lastAt, update, iff_of_true changed ?_⟩
      rw [update]
      refine (updateRange_ne_iff from_ to_ value _).mpr ⟨from_, le_rfl, ordered, ?_⟩
      rw [canonical.valueAt_of_mem (by simp) ⟨starts.le, le_trans ordered ends.le⟩]
      exact fun same => differs old.value same.symm rfl
    | none =>
      rw [isFound, ensures_bind]
      refine (trimPredecessor_spec mapAt ordered).imp ?_
      rintro ⟨trimmedMap, rewrite⟩ second ⟨trimmedRecords, trimmedAt, trimmed⟩
      refine Ensures.bind (trimFollowing_spec canonical _ trimmedAt trimmed
        (by rw [trimmedAt.counted]; exact Nat.lt_succ_self _)) ?_
      rintro ⟨clearedMap, rewrite⟩ third ⟨cleared, clearedAt, clearedTrim, free⟩
      refine (writeReplacement_spec value ordered clearedAt clearedTrim free).imp ?_
      rintro result final ⟨changed, last, lastAt, values⟩
      have update : valueAt last = updateRange from_ to_ value (valueAt records) := funext values
      refine ⟨last, lastAt, update, ?_⟩
      rw [update, changed, updateRange_ne_iff]
      cases value with
      | some new =>
        refine iff_of_true (by simp) (exists_other_value canonical ordered ?_)
        exact fun old isOld reaches => missing old (isFound.trans isOld) reaches new rfl
      | none =>
        rw [Option.isSome_none, Bool.or_false]
        constructor
        · exact clearedTrim.touched
        · rintro ⟨address, low, high, stored⟩
          by_contra untouched
          rw [← clearedTrim.untouched (Bool.not_eq_true _ ▸ untouched)] at stored
          exact stored (free address low high)

end Replace

end IpRange.RangeMutation
