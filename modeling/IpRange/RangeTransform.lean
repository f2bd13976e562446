import IpRange.RangeCalls

/-!
Transformation of a range: the closure sees each maximal stretch of one value
once, from left to right, although the loop rewrites the tree it walks.
-/

set_option linter.unusedSectionVars false

namespace IpRange.RangeMutation

open FixedTree

variable {K σ : Type} [IpKey K] [LawfulIpKey K] [RangeStore σ] {laws : RangeLaws σ}
  {frame : Heap} {base : UInt32 → Int} {map : RangeRoot} {state : σ}
  {records : List (Record K)} {from_ to_ cursor : K}

section Segments

variable {function other : K → Option UInt32} {segment : Segment K}

/-- The stretch that starts at `cursor`: one value throughout, and another behind it
unless the range ends there. -/
structure Stretch (function : K → Option UInt32) (to_ cursor : K) (segment : Segment K) : Prop where
  starts : cursor ≤ segment.to_
  within : segment.to_ ≤ to_
  uniform : ∀ address, cursor ≤ address → address ≤ segment.to_ → function address = segment.value
  maximal : ∀ next, segment.to_ ⋖ next → next ≤ to_ → function next ≠ segment.value

inductive Segmented (function : K → Option UInt32) (to_ : K) : K → List (Segment K) → Prop
  | last {cursor : K} {segment : Segment K} (stretch : Stretch function to_ cursor segment)
      (ends : segment.to_ = to_) : Segmented function to_ cursor [segment]
  | next {cursor following : K} {segment : Segment K} {rest : List (Segment K)}
      (stretch : Stretch function to_ cursor segment) (near : segment.to_ ⋖ following)
      (inside : following ≤ to_) (others : Segmented function to_ following rest) :
      Segmented function to_ cursor (segment :: rest)

theorem Stretch.congr (stretch : Stretch function to_ cursor segment)
    (same : ∀ address, cursor ≤ address → other address = function address) :
    Stretch other to_ cursor segment := by
  refine ⟨stretch.starts, stretch.within, fun address low high => ?_, fun next near inside => ?_⟩
  · rw [same address low]
    exact stretch.uniform address low high
  · rw [same next (le_trans stretch.starts near.lt.le)]
    exact stretch.maximal next near inside

theorem stretch_of_covers (canonical : Canonical records) {range : Record K}
    (member : range ∈ records) (covers : range.Covers cursor) (ordered : cursor ≤ to_) :
    Stretch (valueAt records) to_ cursor
      { to_ := min range.to_ to_, value := some range.value } := by
  have inside : ∀ address, cursor ≤ address → address ≤ min range.to_ to_ →
      valueAt records address = some range.value := fun address low high =>
    canonical.valueAt_of_mem member ⟨le_trans covers.1 low, le_trans high (min_le_left _ _)⟩
  refine ⟨le_min covers.2 ordered, min_le_right _ _, inside, fun next near within same => ?_⟩
  have := isStronglyAtomic (K := K)
  -- a next address of the same value would belong to the same record
  have reaches : cursor ≤ next := le_trans (le_min covers.2 ordered) near.lt.le
  obtain ⟨span, isSpan, low, high, value⟩ := canonical.constant reaches fun address low high => by
    rcases le_or_gt address (min range.to_ to_) with before | past
    · exact inside address low before
    · rw [le_antisymm high (near.ge_of_gt past)]
      exact same
  have one := predecessor_of_covers canonical member covers
  rw [predecessor_of_covers canonical isSpan ⟨low, le_trans reaches high⟩] at one
  obtain rfl := Option.some.inj one
  rcases min_lt_iff.mp (lt_of_lt_of_le near.lt le_rfl) with short | short
  · exact absurd high (not_le.mpr short)
  · exact absurd within (not_le.mpr short)

theorem stretch_of_gap (free : ∀ range ∈ records, cursor ≤ range.to_ → segment.to_ < range.from_)
    (starts : cursor ≤ segment.to_) (within : segment.to_ ≤ to_) (none_ : segment.value = none)
    (maximal : ∀ next, segment.to_ ⋖ next → next ≤ to_ → valueAt records next ≠ none) :
    Stretch (valueAt records) to_ cursor segment := by
  refine ⟨starts, within, fun address low high => ?_, by simpa [none_] using maximal⟩
  rw [none_, valueAt_eq_none]
  rintro range member ⟨above, below⟩
  exact absurd (free range member (le_trans low below)) (not_lt.mpr (le_trans above high))

variable {fail : Error → σ → Prop}

theorem gapAt_spec (mapAt : MapAt laws frame base map records state) (ordered : cursor ≤ to_)
    (bare : valueAt records cursor = none) :
    Ensures (gapAt map cursor to_) state
      (fun segment reached => reached = state ∧ Stretch (valueAt records) to_ cursor segment)
      fail := by
  have canonical := mapAt.canonical
  have past : ∀ range ∈ records, cursor ≤ range.to_ → cursor < range.from_ := by
    intro range member reaches
    by_contra low
    exact valueAt_eq_none.mp bare range member ⟨not_lt.mp low, reaches⟩
  rw [gapAt, ensures_bind]
  refine (readAtOrAfter_spec cursor mapAt).imp ?_
  rintro found reached ⟨rfl, isFound⟩
  cases found with
  | none =>
    rw [ensures_pure]
    refine ⟨rfl, stretch_of_gap ?_ ordered le_rfl rfl ?_⟩
    · intro range member reaches
      exact absurd (none_from isFound.symm range member) (not_lt.mpr (past range member reaches).le)
    · exact fun next near inside => absurd near.lt (not_lt.mpr inside)
  | some first =>
    obtain ⟨before, after, rfl, high, low⟩ := first_from isFound.symm
    have start : cursor < first.from_ :=
      past first (by simp) (le_trans high (canonical.proper first (by simp)))
    -- every record that reaches the cursor starts at or behind the first one
    have behind : ∀ range ∈ before ++ first :: after, cursor ≤ range.to_ →
        first.from_ ≤ range.from_ := by
      intro range member reaches
      rcases List.mem_append.mp member with earlier | later
      · exact absurd (low range earlier) (not_lt.mpr (past range member reaches).le)
      · rcases List.mem_cons.mp later with rfl | later
        · exact le_rfl
        · exact (canonical.starts.2 range later).le
    dsimp only
    by_cases inside : first.from_ ≤ to_
    · rw [if_pos inside]
      obtain ⟨last, isLast, reaches⟩ := exists_previous start
      have near := (checkedPrevious_iff last first.from_).mp isLast
      rw [isLast]
      simp only [ensures_pure]
      refine ⟨trivial, stretch_of_gap ?_ reaches (le_trans near.lt.le inside) rfl ?_⟩
      · exact fun range member within => lt_of_lt_of_le near.lt (behind range member within)
      · intro next adjacent _
        have same : next = first.from_ := by
          refine le_antisymm (adjacent.ge_of_gt near.lt) (near.ge_of_gt adjacent.lt)
        rw [same, canonical.valueAt_of_mem (by simp) ⟨le_rfl, canonical.proper first (by simp)⟩]
        simp
    · rw [if_neg inside, ensures_pure]
      refine ⟨rfl, stretch_of_gap ?_ ordered le_rfl rfl ?_⟩
      · exact fun range member reaches =>
          lt_of_lt_of_le (not_le.mp inside) (behind range member reaches)
      · exact fun next near within => absurd near.lt (not_lt.mpr within)

theorem segmentAt_spec (mapAt : MapAt laws frame base map records state) (ordered : cursor ≤ to_) :
    Ensures (segmentAt map cursor to_) state
      (fun segment reached => reached = state ∧ Stretch (valueAt records) to_ cursor segment)
      fail := by
  have canonical := mapAt.canonical
  rw [segmentAt, ensures_bind]
  refine (readPredecessor_spec cursor mapAt).imp ?_
  rintro found reached ⟨rfl, isFound⟩
  cases found with
  | none =>
    refine gapAt_spec mapAt ordered (valueAt_eq_none.mpr fun range member covers => ?_)
    exact absurd (none_upTo isFound.symm range member) (not_lt.mpr covers.1)
  | some range =>
    obtain ⟨before, after, rfl, low, high⟩ := last_upTo canonical.sorted isFound.symm
    dsimp only
    by_cases reaches : cursor ≤ range.to_
    · rw [if_pos reaches, ensures_pure]
      exact ⟨rfl, stretch_of_covers canonical (by simp) ⟨low, reaches⟩ ordered⟩
    · rw [if_neg reaches]
      refine gapAt_spec mapAt ordered (valueAt_eq_none.mpr fun other member covers => ?_)
      -- a record over the cursor would be its predecessor
      have one := predecessor_of_covers canonical member covers
      rw [← isFound] at one
      exact reaches (Option.some.inj one ▸ covers.2)

end Segments

section Turns

omit [LawfulIpKey K]

/-- How many stretches can still come: two for each record that ends at or behind the cursor,
one of them over when the cursor is inside it. -/
def turnsLeft (records : List (Record K)) (cursor : K) : Nat :=
  2 * records.countP (fun range => decide (cursor ≤ range.to_)) +
    if valueAt records cursor = none then 1 else 0

variable {segment : Segment K} {following : K}

theorem turnsLeft_le (cursor : K) : turnsLeft records cursor ≤ 2 * records.length + 1 := by
  have count := List.countP_le_length (p := fun range => decide (cursor ≤ range.to_)) (l := records)
  unfold turnsLeft
  split <;> omega

theorem turnsLeft_pos (cursor : K) : 0 < turnsLeft records cursor := by
  unfold turnsLeft
  split
  · omega
  · rename_i covered
    obtain ⟨value, found⟩ := Option.ne_none_iff_exists'.mp covered
    obtain ⟨range, member, covers, _⟩ := exists_of_valueAt found
    have count : 0 < records.countP fun range => decide (cursor ≤ range.to_) :=
      List.countP_pos_iff.mpr ⟨range, member, decide_eq_true covers.2⟩
    omega

theorem turnsLeft_next (canonical : Canonical records)
    (stretch : Stretch (valueAt records) to_ cursor segment) (near : segment.to_ ⋖ following)
    (inside : following ≤ to_) : turnsLeft records following < turnsLeft records cursor := by
  have forward : cursor ≤ following := le_trans stretch.starts near.lt.le
  have here := stretch.uniform cursor le_rfl stretch.starts
  have differs := stretch.maximal following near inside
  have fewer (part : List (Record K)) : part.countP (fun range => decide (following ≤ range.to_)) ≤
      part.countP fun range => decide (cursor ≤ range.to_) :=
    List.countP_mono_left fun range _ reaches =>
      decide_eq_true (le_trans forward (of_decide_eq_true reaches))
  cases value : segment.value with
  | none =>
    rw [value] at here differs
    have count := fewer records
    simp only [turnsLeft, if_pos here, if_neg differs]
    omega
  | some stored =>
    rw [value] at here differs
    obtain ⟨range, member, covers, rfl⟩ := exists_of_valueAt here
    have past : ¬ following ≤ range.to_ := fun reaches =>
      differs (canonical.valueAt_of_mem member ⟨le_trans covers.1 forward, reaches⟩)
    obtain ⟨before, after, rfl⟩ := List.append_of_mem member
    have left := fewer before
    have right := fewer after
    simp only [turnsLeft, here, List.countP_append, List.countP_cons, covers.2, past, decide_true,
      decide_false, Bool.false_eq_true, if_true, if_false, reduceCtorEq]
    split <;> omega

end Turns

section Loop

variable {μ : Type} {operation : μ → Option UInt32 → EStateM Error σ (Option UInt32 × μ)}
  {f : Option UInt32 → Option UInt32} {note : μ → Option UInt32 → μ}

/-- The closure of a value function: it leaves the store alone and notes each call in
what it captured. -/
def Applies (operation : μ → Option UInt32 → EStateM Error σ (Option UInt32 × μ))
    (f : Option UInt32 → Option UInt32) (note : μ → Option UInt32 → μ) : Prop :=
  ∀ captured value state, operation captured value state = .ok (f value, note captured value) state

def applyRange (from_ to_ : K) (f : Option UInt32 → Option UInt32) (function : K → Option UInt32)
    (address : K) : Option UInt32 :=
  if from_ ≤ address ∧ address ≤ to_ then f (function address) else function address

def applyBefore (from_ cursor : K) (f : Option UInt32 → Option UInt32)
    (function : K → Option UInt32) (address : K) : Option UInt32 :=
  if from_ ≤ address ∧ address < cursor then f (function address) else function address

variable {function : K → Option UInt32} {segment : Segment K} {following : K}

theorem applyBefore_next (near : segment.to_ ⋖ following) :
    applyBefore from_ following f function = applyRange from_ segment.to_ f function := by
  funext address
  have same : address < following ↔ address ≤ segment.to_ :=
    ⟨fun less => not_lt.mp fun past => absurd less (not_lt.mpr (near.ge_of_gt past)),
      fun less => lt_of_le_of_lt less near.lt⟩
  simp only [applyBefore, applyRange, same]

theorem applyRange_extend (low : from_ ≤ cursor) (starts : cursor ≤ segment.to_)
    (uniform : ∀ address, cursor ≤ address → address ≤ segment.to_ →
      function address = segment.value) :
    updateRange cursor segment.to_ (f segment.value) (applyBefore from_ cursor f function) =
      applyRange from_ segment.to_ f function := by
  funext address
  simp only [updateRange, applyBefore, applyRange]
  rcases lt_or_ge address cursor with before | behind
  · simp only [not_le.mpr before, before, le_trans before.le starts, and_true, if_false]
  · rcases le_or_gt address segment.to_ with within | past
    · rw [if_pos ⟨behind, within⟩, if_pos ⟨le_trans low behind, within⟩,
        uniform address behind within]
    · rw [if_neg fun inside => absurd inside.2 (not_le.mpr past),
        if_neg fun inside => absurd inside.2 (not_lt.mpr behind),
        if_neg fun inside => absurd inside.2 (not_le.mpr past)]

theorem applyBefore_behind {address : K} (behind : cursor ≤ address) :
    applyBefore from_ cursor f function address = function address :=
  if_neg fun inside => absurd inside.2 (not_lt.mpr behind)

variable {original : List (Record K)} {changed : Bool}

theorem applyValue_spec (mapAt : MapAt laws frame base map records state) (low : from_ ≤ cursor)
    (stretch : Stretch (valueAt original) to_ cursor segment)
    (done : valueAt records = applyBefore from_ cursor f (valueAt original))
    (flagged : changed = true ↔ valueAt records ≠ valueAt original) :
    Ensures (applyValue map cursor segment (f segment.value) changed) state
      (fun result reached => ∃ last : List (Record K), MapAt laws frame base result.2 last reached ∧
        valueAt last = applyRange from_ segment.to_ f (valueAt original) ∧
        (result.1 = true ↔ valueAt last ≠ valueAt original))
      (RangeFails laws) := by
  have extended := applyRange_extend (f := f) low stretch.starts stretch.uniform
  unfold applyValue
  by_cases keeps : f segment.value = segment.value
  · rw [if_neg (not_not.mpr keeps), ensures_pure]
    refine ⟨records, mapAt, ?_, flagged⟩
    rw [← extended, ← done]
    by_contra! moved
    obtain ⟨address, behind, within, other⟩ := (updateRange_ne_iff ..).mp moved.symm
    refine other ?_
    rw [done, applyBefore_behind behind, stretch.uniform address behind within, keeps]
  · rw [if_pos keeps, ensures_bind]
    refine (replace_spec mapAt stretch.starts (f segment.value)).imp ?_
    rintro ⟨_, next⟩ reached ⟨last, lastAt, updated, -⟩
    rw [ensures_pure]
    rw [done, extended] at updated
    refine ⟨last, lastAt, updated, iff_of_true rfl fun same => keeps ?_⟩
    have here := congrFun (updated.symm.trans same) cursor
    rw [applyRange, if_pos ⟨low, stretch.starts⟩, stretch.uniform cursor le_rfl stretch.starts] at here
    exact here

theorem transformFrom_spec (applies : Applies operation f note) (canonical : Canonical original)
    (turns : Nat) {captured : μ} (mapAt : MapAt laws frame base map records state)
    (low : from_ ≤ cursor) (high : cursor ≤ to_)
    (done : valueAt records = applyBefore from_ cursor f (valueAt original))
    (flagged : changed = true ↔ valueAt records ≠ valueAt original)
    (enough : turnsLeft original cursor ≤ turns) :
    Ensures (transformFrom operation to_ turns map cursor changed captured) state
      (fun result reached => ∃ last : List (Record K), MapAt laws frame base result.2.1 last reached ∧
        valueAt last = applyRange from_ to_ f (valueAt original) ∧
        (result.1 = true ↔ valueAt last ≠ valueAt original) ∧
        ∃ segments, Segmented (valueAt original) to_ cursor segments ∧
          result.2.2 = (segments.map Segment.value).foldl note captured)
      (RangeFails laws) := by
  induction turns generalizing map records state cursor changed captured with
  | zero => exact absurd enough (not_le.mpr (turnsLeft_pos cursor))
  | succ turns ih =>
    rw [transformFrom, ensures_bind]
    refine (segmentAt_spec mapAt high).imp ?_
    rintro segment reached ⟨rfl, found⟩
    -- what the loop wrote lies before the cursor, so the stretch is one of the old map
    have stretch : Stretch (valueAt original) to_ cursor segment :=
      found.congr fun address behind => by rw [done, applyBefore_behind behind]
    have asked : Ensures (operation captured segment.value) reached
        (fun result after => result = (f segment.value, note captured segment.value) ∧
          after = reached) (RangeFails laws) := by
      unfold Ensures
      rw [applies]
      exact ⟨rfl, rfl⟩
    rw [ensures_bind]
    refine asked.imp ?_
    rintro _ _ ⟨rfl, rfl⟩
    refine Ensures.bind (applyValue_spec mapAt low stretch done flagged) ?_
    rintro ⟨moved, next⟩ after ⟨current, currentAt, updated, flag⟩
    dsimp only at currentAt flag ⊢
    by_cases ends : segment.to_ = to_
    · rw [if_pos ends, ensures_pure]
      exact ⟨current, currentAt, ends ▸ updated, flag, [segment], .last stretch ends, rfl⟩
    · rw [if_neg ends]
      obtain ⟨following, isNext, inside⟩ := exists_next (lt_of_le_of_ne stretch.within ends)
      have near := (checkedNext_iff segment.to_ following).mp isNext
      have fewer := turnsLeft_next canonical stretch near inside
      rw [isNext]
      refine (ih currentAt (le_trans low (le_trans stretch.starts near.lt.le)) inside
        (by rw [updated, applyBefore_next near]) flag (by omega)).imp ?_
      rintro result final ⟨last, lastAt, whole, flags, segments, segmented, calls⟩
      refine ⟨last, lastAt, whole, flags, segment :: segments,
        .next stretch near inside segmented, ?_⟩
      rw [calls, List.map_cons, List.foldl_cons]

/-- Transforming a range applies the value function to the value of each address inside
it and calls it once for each maximal stretch. The map stays canonical, its record
count exact, and the callbacks account for the records that came and went. -/
theorem transform_applies_pointwise (applies : Applies operation f note)
    (mapAt : MapAt laws frame base map records state) (from_ to_ : K) (captured : μ) :
    Ensures (transform operation to_ map from_ captured) state
      (fun result reached => from_ ≤ to_ ∧ ∃ last : List (Record K),
        Stands laws (rangeCodec K) frame result.2.1.root (recordItems last) (laws.tally reached)
          reached ∧
        Canonical last ∧ valueAt last = applyRange from_ to_ f (valueAt records) ∧
        result.2.1.recordCount = last.length ∧
        (result.1 = true ↔ valueAt last ≠ valueAt records) ∧
        (∃ segments, Segmented (valueAt records) to_ from_ segments ∧
          result.2.2 = (segments.map Segment.value).foldl note captured) ∧
        ∀ value, laws.tally reached value - laws.tally state value =
          holding last value - holding records value)
      (fun error reached => to_ < from_ ∧ error = .invalidArgument "range start is after its end" ∨
        from_ ≤ to_ ∧ RangeFails laws error reached) := by
  rw [transform]
  by_cases reversed : to_ < from_
  · rw [if_pos reversed, ensures_throw]
    exact Or.inl ⟨reversed, rfl⟩
  · have ordered := not_lt.mp reversed
    have start : valueAt records = applyBefore from_ from_ f (valueAt records) := by
      funext address
      exact (if_neg fun inside => absurd inside.2 (not_lt.mpr inside.1)).symm
    rw [if_neg reversed]
    refine (transformFrom_spec applies mapAt.canonical _ mapAt le_rfl ordered start (by simp)
      (mapAt.counted ▸ turnsLeft_le from_)).mono ?_ fun error _ failed => Or.inr ⟨ordered, failed⟩
    rintro result reached ⟨last, lastAt, applied, flag, segmented⟩
    have after := lastAt.stands.tally
    refine ⟨ordered, last, after ▸ lastAt.stands, lastAt.canonical, applied, lastAt.counted, flag,
      segmented, ?_⟩
    intro value
    rw [after, mapAt.stands.tally, ledger, ledger]
    omega

end Loop

def sampleFunction (value : Option UInt32) : Option UInt32 :=
  if value = none then some 5 else if value = some 1 then some 2 else value

def sampleOperation (calls : List (Option UInt32)) (value : Option UInt32) :
    EStateM Error (Logged Workspace) (Option UInt32 × List (Option UInt32)) :=
  pure (sampleFunction value, calls ++ [value])

theorem transform_applies_pointwise_sample : ∃ map calls reached,
    transform sampleOperation (⟨15⟩ : Ipv4Key) ⟨2, 1⟩ ⟨5⟩ [] sampleState =
        .ok (true, map, calls) reached ∧
      calls = [none, some 1] ∧ map.recordCount = 3 ∧ ∃ last : List (Record Ipv4Key),
        Canonical last ∧ last.length = 3 ∧
        valueAt last = applyRange ⟨5⟩ ⟨15⟩ sampleFunction (valueAt [sampleRecord]) := by
  have applies : Applies sampleOperation sampleFunction fun calls value => calls ++ [value] :=
    fun _ _ _ => rfl
  have spec := transform_applies_pointwise applies sample_mapAt ⟨5⟩ ⟨15⟩ []
  have run : observed (fun result _ => (result.1, result.2.1.recordCount, result.2.2))
      (transform sampleOperation (⟨15⟩ : Ipv4Key) ⟨2, 1⟩ ⟨5⟩ [] sampleState) =
      some (true, 3, [none, some 1]) := by decide +kernel
  obtain ⟨⟨changed, map, calls⟩, reached, outcome, sight⟩ := exists_ok_of_observed run
  simp only [Prod.mk.injEq] at sight
  obtain ⟨rfl, counted, noted⟩ := sight
  obtain ⟨-, last, -, canonical, applied, length, -⟩ := spec.ok outcome
  exact ⟨map, calls, reached, outcome, noted, counted, last, canonical,
    length.symm.trans counted, applied⟩

end IpRange.RangeMutation
