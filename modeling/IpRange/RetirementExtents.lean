import IpRange.RetirementCore

/-!
The records of the retirement tree, read back from their cells, and what one page adds
to the extents of a transaction: they stay maximal runs, whichever neighbors it joins.
-/

namespace IpRange.Retirement

open Option hiding or_assoc
open List SlottedPage FixedTree

namespace Key

theorem lt_iff {left right : Key} :
    left < right ↔ left.txn < right.txn ∨ left.txn = right.txn ∧ left.first < right.first := by
  change toLex (left.txn, left.first) < toLex (right.txn, right.first) ↔ _
  rw [Prod.Lex.toLex_lt_toLex]

theorem txn_squeeze {low middle high : Key} (before : low < middle) (after : middle ≤ high)
    (same : low.txn = high.txn) : middle.txn = high.txn := by
  rcases lt_or_eq_of_le after with later | rfl
  · rw [lt_iff] at before later
    omega
  · rfl

end Key

structure Extent.Valid (extent : Extent) : Prop where
  created : 1 < extent.key.txn
  txnWord : extent.key.txn < 2 ^ 64
  real : 2 ≤ extent.key.first
  some_ : 0 < extent.count
  inside : extent.past ≤ 2 ^ 32

theorem Extent.Valid.firstWord {extent : Extent} (valid : extent.Valid) :
    extent.key.first < 2 ^ 32 := by
  have inside := valid.inside
  have positive := valid.some_
  simp only [Extent.past] at inside
  omega

theorem Extent.Valid.countWord {extent : Extent} (valid : extent.Valid) :
    extent.count < 2 ^ 32 := by
  have inside := valid.inside
  have real := valid.real
  simp only [Extent.past] at inside
  omega

section Codec

theorem length_encodeKey (key : Key) : (encodeKey key).length = keySize := by
  simp [encodeKey, keySize]

theorem length_encode (extent : Extent) : (encode extent).length = cellSize := by
  simp [encode, length_encodeKey, keySize, cellSize]

variable {key : Key} {cell : Bytes}

theorem decodeKeyRaw_encodeKey (txnWord : key.txn < 2 ^ 64) (firstWord : key.first < 2 ^ 32)
    (rest : Bytes) :
    decodeKeyRaw (encodeKey key ++ rest) = some key := by
  have size : keySize ≤ (encodeKey key ++ rest).length := by
    rw [length_append, length_encodeKey]
    exact Nat.le_add_right _ _
  have txn : leField (encodeKey key ++ rest) 0 8 = key.txn := by
    rw [encodeKey, append_assoc]
    exact leField_toLeBytes 8 key.txn _ txnWord
  have first : leField (encodeKey key ++ rest) 8 4 = key.first := by
    have skip := leField_append_right (toLeBytes 8 key.txn) (toLeBytes 4 key.first ++ rest) 0 4
    rw [toLeBytes_length, leField_toLeBytes 4 key.first _ firstWord] at skip
    rw [encodeKey, append_assoc]
    exact skip
  simp only [decodeKeyRaw, size, if_true, txn, first]

theorem decodeKey_encodeKey (txnWord : key.txn < 2 ^ 64) (firstWord : key.first < 2 ^ 32)
    (rest : Bytes) :
    decodeKey (encodeKey key ++ rest) = .ok key := by
  simp only [decodeKey, decodeKeyRaw_encodeKey txnWord firstWord]

theorem decodeKeyRaw_ok (read : decodeKeyRaw cell = some key) :
    key.txn < 2 ^ 64 ∧ key.first < 2 ^ 32 := by
  unfold decodeKeyRaw at read
  split at read
  · cases read
    exact ⟨leField_lt cell 0 8, leField_lt cell 8 4⟩
  · cases read

theorem decodeKey_ok (read : decodeKey cell = .ok key) : decodeKeyRaw cell = some key := by
  unfold decodeKey at read
  cases raw : decodeKeyRaw cell with
  | none => simp [raw] at read
  | some found =>
    simp only [raw, Except.ok.injEq] at read
    rw [read]

theorem readLeaf_encode {extent : Extent} (valid : extent.Valid) :
    readLeaf (encode extent) = .ok extent := by
  have raw : decodeRaw (encode extent) = some extent := by
    have count : leField (encode extent) 12 4 = extent.count := by
      have skip := leField_append_right (encodeKey extent.key) (toLeBytes 4 extent.count) 0 4
      have read := leField_toLeBytes 4 extent.count [] valid.countWord
      rw [append_nil] at read
      rw [length_encodeKey, read] at skip
      rw [encode]
      exact skip
    have key := decodeKeyRaw_encodeKey valid.txnWord valid.firstWord (toLeBytes 4 extent.count)
    simp only [decodeRaw, length_encode, ne_eq, not_true_eq_false, if_false]
    rw [encode] at count ⊢
    rw [key, map_some, count]
  have fields : (decide (extent.key.txn ≤ 1) || decide (extent.key.first < 2) ||
      decide (extent.count = 0)) = false := by
    have created := valid.created
    have real := valid.real
    have positive := valid.some_
    simp only [Bool.or_eq_false_iff, decide_eq_false_iff_not]
    omega
  simp only [readLeaf, decodeSlice, raw, bind, Except.bind, requireExtent, fields,
    Bool.false_eq_true, if_false, not_lt.mpr valid.inside]

theorem readLeaf_ok {extent : Extent} (read : readLeaf cell = .ok extent) :
    cell.length = cellSize ∧ decodeKeyRaw cell = some extent.key ∧ extent.Valid := by
  rw [readLeaf, bind_eq_ok] at read
  obtain ⟨decoded, slice, required⟩ := read
  have raw : decodeRaw cell = some decoded := by
    unfold decodeSlice at slice
    cases raw : decodeRaw cell with
    | none => simp [raw] at slice
    | some found =>
      simp only [raw, Except.ok.injEq] at slice
      rw [slice]
  unfold requireExtent at required
  split at required
  · cases required
  · rename_i fields
    split at required
    · cases required
    · rename_i inside
      cases required
      simp only [Bool.or_eq_true, decide_eq_true_eq, not_or] at fields
      have created : 1 < extent.key.txn := by omega
      have real : 2 ≤ extent.key.first := by omega
      have positive : 0 < extent.count := by omega
      unfold decodeRaw at raw
      split at raw
      · cases raw
      · rename_i size
        cases key : decodeKeyRaw cell with
        | none => simp [key] at raw
        | some found =>
          simp only [key, map_some, Option.some.injEq] at raw
          have same : found = extent.key := congrArg Extent.key raw
          have words := decodeKeyRaw_ok key
          rw [same] at words
          exact ⟨not_not.mp size, congrArg some same, created, words.1, real, positive,
            not_lt.mp inside⟩

theorem retirementCodec_lawful : LawfulCodec retirementCodec := by
  refine ⟨by decide, ?_, fun _ => rfl, fun _ _ => rfl, ?_, ?_⟩
  · intro cell leaf _ _ read
    obtain ⟨-, key, -⟩ := readLeaf_ok read
    exact ⟨leaf.key, by simp only [retirementCodec, decodeKey, key]⟩
  · intro entry child word
    obtain ⟨txnWord, firstWord⟩ := decodeKeyRaw_ok (decodeKey_ok entry.keyRead)
    have length := length_encodeKey entry.key
    have size : (encodeKey entry.key ++ toLeBytes 4 child).length = keySize + 4 := by
      rw [length_append, length, toLeBytes_length]
    refine ⟨_, rfl, ?_, size.le, size, ?_, ?_⟩
    · intro none
      rw [none] at size
      cases size
    · intro level _
      exact decodeKey_encodeKey txnWord firstWord _
    · have read := readFixedChild_append (encodeKey entry.key) child word
      rw [length] at read
      exact read
  · rintro entry first second left right ⟨⟩ ⟨⟩
    simp

def Extent.entry (extent : Extent) (valid : extent.Valid) : Entry retirementCodec where
  cell := encode extent
  key := extent.key
  leaf := extent
  present := by
    intro none
    have size := length_encode extent
    rw [none] at size
    cases size
  bounded := (length_encode extent).le
  layout := length_encode extent
  keyRead := by
    rw [encode]
    exact decodeKey_encodeKey valid.txnWord valid.firstWord _
  leafRead := readLeaf_encode valid

theorem entry_key (entry : Entry retirementCodec) : entry.key = entry.leaf.key := by
  have stored := (readLeaf_ok entry.leafRead).2.1
  rw [decodeKey_ok entry.keyRead, Option.some.injEq] at stored
  exact stored

theorem entry_valid (entry : Entry retirementCodec) : entry.leaf.Valid :=
  (readLeaf_ok entry.leafRead).2.2

end Codec

section Runs

def Extent.Holds (extent : Extent) (page : Nat) : Prop :=
  extent.key.first ≤ page ∧ page < extent.past

def Covered (txn : Nat) (extents : List Extent) (page : Nat) : Prop :=
  ∃ extent ∈ extents, extent.key.txn = txn ∧ extent.Holds page

def Coalesced (txn : Nat) (extents : List Extent) : Prop :=
  extents.Pairwise fun earlier later =>
    earlier.key.txn = txn → later.key.txn = txn → earlier.past < later.key.first

structure Adds (txn : Nat) (pages : List Nat) (old new : List Extent) : Prop where
  covered : ∀ page, Covered txn new page ↔ Covered txn old page ∨ page ∈ pages
  coalesced : Coalesced txn new
  others : new.filter (fun extent => extent.key.txn ≠ txn) =
    old.filter fun extent => extent.key.txn ≠ txn

variable {txn page : Nat} {left joined right : List Extent} {new : Extent}

theorem Adds.refl {extents : List Extent} (coalesced : Coalesced txn extents) :
    Adds txn [] extents extents :=
  ⟨fun _ => by simp, coalesced, rfl⟩

theorem Adds.trans {pages more : List Nat} {old middle last : List Extent}
    (first : Adds txn pages old middle) (second : Adds txn more middle last) :
    Adds txn (pages ++ more) old last := by
  refine ⟨fun page => ?_, second.coalesced, second.others.trans first.others⟩
  rw [second.covered, first.covered, mem_append, or_assoc]

theorem Adds.congr {pages others : List Nat} {old new : List Extent} (adds : Adds txn pages old new)
    (same : ∀ page, page ∈ pages ↔ page ∈ others) : Adds txn others old new :=
  ⟨fun page => by rw [adds.covered, same], adds.coalesced, adds.others⟩

theorem adds_join (newTxn : new.key.txn = txn) (joinedTxn : ∀ extent ∈ joined, extent.key.txn = txn)
    (holds : ∀ other, new.Holds other ↔ (∃ extent ∈ joined, extent.Holds other) ∨ other = page)
    (coalesced : Coalesced txn (left ++ joined ++ right))
    (low : ∀ extent ∈ left, extent.key.txn = txn → extent.past < new.key.first)
    (high : ∀ extent ∈ right, extent.key.txn = txn → new.past < extent.key.first) :
    Adds txn [page] (left ++ joined ++ right) (left ++ [new] ++ right) := by
  refine ⟨fun other => ?_, ?_, ?_⟩
  · have joinedCovers : (∃ extent ∈ joined, extent.key.txn = txn ∧ extent.Holds other) ↔
        ∃ extent ∈ joined, extent.Holds other :=
      exists_congr fun extent => and_congr_right fun member => by simp [joinedTxn extent member]
    simp only [Covered, mem_append, mem_singleton, or_and_right, exists_or,
      exists_eq_left, newTxn, true_and, holds other, joinedCovers]
    rw [← or_assoc, or_right_comm]
  · obtain ⟨lower, upper, across⟩ := pairwise_append.mp coalesced
    refine pairwise_append.mpr ⟨pairwise_append.mpr ⟨(pairwise_append.mp lower).1,
      pairwise_singleton _ _, ?_⟩, upper, ?_⟩
    · intro extent member other isNew same _
      rw [mem_singleton.mp isNew]
      exact low extent member same
    · intro extent member other inRight same also
      rcases mem_append.mp member with inLeft | isNew
      · exact across extent (mem_append_left _ inLeft) other inRight same also
      · rw [mem_singleton.mp isNew]
        exact high other inRight also
  · have gone : joined.filter (fun extent => extent.key.txn ≠ txn) = [] :=
      filter_eq_nil_iff.mpr fun extent member => by simp [joinedTxn extent member]
    have own : [new].filter (fun extent => extent.key.txn ≠ txn) = [] :=
      filter_eq_nil_iff.mpr fun extent member => by
        simp [mem_singleton.mp member, newTxn]
    rw [filter_append, filter_append, filter_append, filter_append, gone, own]

section Neighbors

variable {key : Key}

def neighborsOf : Option Extent → Option Extent → Neighbors
  | none, none => .neither
  | some before, none => .previous before
  | none, some after => .next after
  | some before, some after => .both before after

theorem joins_previous (below : ∀ extent ∈ left, extent.key < key)
    (ordered : left.Pairwise fun earlier later => earlier.key < later.key)
    (coalesced : Coalesced key.txn left) (fresh : ¬ Covered key.txn left key.first) :
    ∃ (before : List Extent) (previous : Option Extent), left = before ++ previous.toList ∧
      (left.getLast?.any fun extent =>
        decide (extent.key.txn = key.txn) && decide (extent.past = key.first)) = previous.isSome ∧
      (∀ extent ∈ previous, left.getLast? = some extent ∧ extent.key.txn = key.txn ∧
        extent.past = key.first) ∧
      ∀ extent ∈ before, extent.key.txn = key.txn →
        extent.past < (previous.map fun extent => extent.key.first).getD key.first := by
  rcases eq_nil_or_concat left with rfl | ⟨front, final, rfl⟩
  · exact ⟨[], none, rfl, rfl, by simp, by simp⟩
  · rw [concat_eq_append] at *
    have nearer : ∀ extent ∈ front, extent.key < final.key :=
      fun extent member => (pairwise_append.mp ordered).2.2 extent member final (by simp)
    have gap : ∀ extent ∈ front, extent.key.txn = key.txn → final.key.txn = key.txn →
        extent.past < final.key.first := fun extent member =>
      (pairwise_append.mp coalesced).2.2 extent member final (by simp)
    by_cases joins : final.key.txn = key.txn ∧ final.past = key.first
    · refine ⟨front, some final, rfl, by simp [joins], by simp [joins], ?_⟩
      exact fun extent member same => gap extent member same joins.1
    · refine ⟨front ++ [final], none, by simp, by simpa using joins, by simp, ?_⟩
      have short : final.key.txn = key.txn → final.past < key.first := by
        intro same
        have ahead := Key.lt_iff.mp (below final (by simp))
        have free : ¬ final.Holds key.first := fun held => fresh ⟨final, by simp, same, held⟩
        have apart : final.past ≠ key.first := fun touch => joins ⟨same, touch⟩
        simp only [Extent.Holds, not_and, not_lt] at free
        have ended := free (by omega)
        omega
      intro extent member same
      rcases mem_append.mp member with inFront | isFinal
      · have own : final.key.txn = key.txn :=
          Key.txn_squeeze (nearer extent inFront) (le_of_lt (below final (by simp))) same
        have earlier := gap extent inFront same own
        have ahead := Key.lt_iff.mp (below final (by simp))
        simp only [map_none, getD_none]
        omega
      · rw [mem_singleton.mp isFinal] at same ⊢
        exact short same

theorem joins_next (above : ∀ extent ∈ right, key < extent.key)
    (ordered : right.Pairwise fun earlier later => earlier.key < later.key)
    (coalesced : Coalesced key.txn right) (words : ∀ extent ∈ right, extent.key.first < 2 ^ 32) :
    ∃ (next : Option Extent) (after : List Extent), right = next.toList ++ after ∧
      (right.head?.any fun extent => decide (extent.key.txn = key.txn) &&
        decide (checkedSucc key.first = some extent.key.first)) = next.isSome ∧
      (∀ extent ∈ next, right.head? = some extent ∧ extent.key.txn = key.txn ∧
        extent.key.first = key.first + 1) ∧
      ∀ extent ∈ after, extent.key.txn = key.txn →
        (next.map Extent.past).getD (key.first + 1) < extent.key.first := by
  cases right with
  | nil => exact ⟨none, [], rfl, rfl, by simp, by simp⟩
  | cons head rest =>
    have word := words head (by simp)
    have succ : checkedSucc key.first = some head.key.first ↔ head.key.first = key.first + 1 := by
      unfold checkedSucc
      split
      · rw [Option.some.injEq, eq_comm]
      · rename_i large
        simp only [reduceCtorEq, false_iff]
        omega
    by_cases joins : head.key.txn = key.txn ∧ head.key.first = key.first + 1
    · refine ⟨some head, rest, rfl, by simp [succ.mpr joins.2, joins.1], by simp [joins], ?_⟩
      exact fun extent member same =>
        (pairwise_cons.mp coalesced).1 extent member joins.1 same
    · refine ⟨none, head :: rest, rfl, by simpa [succ] using joins, by simp, ?_⟩
      have ahead := Key.lt_iff.mp (above head (by simp))
      have apart : head.key.txn = key.txn → key.first + 1 < head.key.first := by
        intro same
        have other : head.key.first ≠ key.first + 1 := fun touch => joins ⟨same, touch⟩
        omega
      intro extent member same
      rcases mem_cons.mp member with rfl | later
      · exact apart same
      · have further := (pairwise_cons.mp ordered).1 extent later
        have own : head.key.txn = extent.key.txn :=
          Key.txn_squeeze (above head (by simp)) (le_of_lt further) same.symm
        have beyond := Key.lt_iff.mp further
        have here := apart (own.trans same)
        simp only [map_none, getD_none]
        omega

theorem classifyNeighbors_spec (below : ∀ extent ∈ left, extent.key < key)
    (above : ∀ extent ∈ right, key < extent.key)
    (ordered : (left ++ right).Pairwise fun earlier later => earlier.key < later.key)
    (coalesced : Coalesced key.txn (left ++ right))
    (fresh : ¬ Covered key.txn (left ++ right) key.first)
    (words : ∀ extent ∈ right, extent.key.first < 2 ^ 32) :
    ∃ (before after : List Extent) (previous next : Option Extent),
      left = before ++ previous.toList ∧ right = next.toList ++ after ∧
      classifyNeighbors key left.getLast? right.head? = .ok (neighborsOf previous next) ∧
      (∀ extent ∈ previous, extent.key.txn = key.txn ∧ extent.past = key.first) ∧
      (∀ extent ∈ next, extent.key.txn = key.txn ∧ extent.key.first = key.first + 1) ∧
      (∀ extent ∈ before, extent.key.txn = key.txn →
        extent.past < (previous.map fun extent => extent.key.first).getD key.first) ∧
      ∀ extent ∈ after, extent.key.txn = key.txn →
        (next.map Extent.past).getD (key.first + 1) < extent.key.first := by
  obtain ⟨leftOrdered, rightOrdered, -⟩ := pairwise_append.mp ordered
  obtain ⟨leftCoalesced, rightCoalesced, -⟩ := pairwise_append.mp coalesced
  have leftFresh : ¬ Covered key.txn left key.first :=
    fun ⟨extent, member, held⟩ => fresh ⟨extent, mem_append_left _ member, held⟩
  obtain ⟨before, previous, leftCut, joinsPrevious, isPrevious, low⟩ :=
    joins_previous below leftOrdered leftCoalesced leftFresh
  obtain ⟨next, after, rightCut, joinsNext, isNext, high⟩ :=
    joins_next above rightOrdered rightCoalesced words
  refine ⟨before, after, previous, next, leftCut, rightCut, ?_,
    fun extent member => (isPrevious extent member).2, fun extent member => (isNext extent member).2,
    low, high⟩
  have unlisted : (right.head?.any fun extent => decide (extent.key = key)) = false := by
    cases right with
    | nil => rfl
    | cons head rest => simpa using (above head (by simp)).ne'
  have unheld : (left.getLast?.any fun extent =>
      decide (extent.key.txn = key.txn) && decide (key.first < extent.past)) = false := by
    cases found : left.getLast? with
    | none => rfl
    | some final =>
      have member := mem_of_getLast? found
      have ahead := Key.lt_iff.mp (below final member)
      simp only [any_some, Bool.and_eq_false_imp, decide_eq_true_eq,
        decide_eq_false_iff_not]
      intro same held
      exact leftFresh ⟨final, member, same, by omega, held⟩
  simp only [classifyNeighbors, unlisted, unheld, Bool.or_false, Bool.false_eq_true, if_false,
    joinsPrevious, joinsNext]
  cases previous with
  | none =>
    cases next with
    | none => rfl
    | some following =>
      simp only [(isNext following rfl).1, isSome_none, isSome_some]
      rfl
  | some preceding =>
    cases next with
    | none =>
      simp only [(isPrevious preceding rfl).1, isSome_none, isSome_some]
      rfl
    | some following =>
      simp only [(isPrevious preceding rfl).1, (isNext following rfl).1, isSome_some]
      rfl

def joinPage (key : Key) (previous next : Option Extent) : Extent where
  key := (previous.map Extent.key).getD key
  count := (previous.map Extent.count).getD 0 + 1 + (next.map Extent.count).getD 0

variable {previous next : Option Extent}

theorem joinPage_first (key : Key) (previous next : Option Extent) :
    (joinPage key previous next).key.first =
      (previous.map fun extent => extent.key.first).getD key.first := by
  cases previous with
  | none => rfl
  | some extent => rfl

section

variable (ends : ∀ extent ∈ previous, extent.past = key.first)
  (starts : ∀ extent ∈ next, extent.key.first = key.first + 1)

include ends starts

theorem joinPage_past :
    (joinPage key previous next).past = (next.map Extent.past).getD (key.first + 1) := by
  cases previous with
  | none =>
    cases next with
    | none => simp [joinPage, Extent.past]
    | some after =>
      have start := starts after rfl
      simp only [joinPage, Extent.past, map_none, map_some, getD_none,
        getD_some]
      omega
  | some before =>
    have finish := ends before rfl
    simp only [Extent.past] at finish
    cases next with
    | none =>
      simp only [joinPage, Extent.past, map_none, map_some, getD_none,
        getD_some]
      omega
    | some after =>
      have start := starts after rfl
      simp only [joinPage, Extent.past, map_some, getD_some]
      omega

theorem joinPage_holds (somePrevious : ∀ extent ∈ previous, 0 < extent.count)
    (someNext : ∀ extent ∈ next, 0 < extent.count) (page : Nat) :
    (joinPage key previous next).Holds page ↔
      (∃ extent ∈ previous.toList ++ next.toList, extent.Holds page) ∨ page = key.first := by
  rw [Extent.Holds, joinPage_past ends starts, joinPage_first]
  cases previous with
  | none =>
    cases next with
    | none =>
      simp only [map_none, getD_none, toList_none, append_nil,
        not_mem_nil, false_and, exists_false, false_or]
      omega
    | some after =>
      have start := starts after rfl
      simp only [map_none, map_some, getD_none, getD_some,
        toList_none, toList_some, nil_append, mem_singleton,
        exists_eq_left, Extent.Holds]
      have positive := someNext after rfl
      simp only [Extent.past]
      omega
  | some before =>
    have finish := ends before rfl
    have positive := somePrevious before rfl
    simp only [Extent.past] at finish
    cases next with
    | none =>
      simp only [map_none, map_some, getD_none, getD_some,
        toList_none, toList_some, append_nil, mem_singleton,
        exists_eq_left, Extent.Holds, Extent.past]
      omega
    | some after =>
      have start := starts after rfl
      have more := someNext after rfl
      simp only [map_some, getD_some, toList_some, singleton_append,
        mem_cons, not_mem_nil, or_false, exists_eq_or_imp, exists_eq_left,
        Extent.Holds, Extent.past]
      omega

end

end Neighbors

end Runs

end IpRange.Retirement
