import IpRange.Library.SortedMap
import IpRange.SlottedPage
import IpRange.FixedTreeEditCore

/-!
Reading and searching canonical tree pages, and the laws a codec keeps so that
its records can be read back.
-/

namespace IpRange.FixedTree

open List SlottedPage

variable {Key Leaf : Type} (codec : Codec Key Leaf)

@[ext] structure Entry where
  cell : Bytes
  key : Key
  leaf : Leaf
  present : cell ≠ []
  bounded : cell.length ≤ codec.maxLeafSize
  layout : codec.leafLayout.Accepts cell
  keyRead : codec.readKey cell 0 = .ok key
  leafRead : codec.readLeaf cell = .ok leaf

variable {codec} in
theorem Entry.cell_injective : Function.Injective (Entry.cell : Entry codec → Bytes) := by
  intro left right same
  have keys := left.keyRead.symm.trans (same ▸ right.keyRead)
  have leaves := left.leafRead.symm.trans (same ▸ right.leafRead)
  exact Entry.ext same (Except.ok.inj keys) (Except.ok.inj leaves)

def LaidOut (cell : Bytes) : Prop :=
  ∀ leaf, codec.readLeaf cell = .ok leaf → codec.leafLayout.Accepts cell

/-- What a tree relies on: sizes that fit a page, and branch records that read back as written,
whose length depends on the key alone. -/
structure LawfulCodec : Prop where
  valid : requireCodec codec = .ok ()
  leafKey : ∀ cell leaf, cell ≠ [] → cell.length ≤ codec.maxLeafSize →
    codec.readLeaf cell = .ok leaf → ∃ key, codec.readKey cell 0 = .ok key
  leafFixed : codec.leafSize ≠ 0 → codec.leafLayout = .fixed codec.leafSize
  branchFixed : codec.keySize ≠ 0 → codec.maxBranchSize = codec.keySize + 4 →
    codec.branchLayout = .fixed (codec.keySize + 4)
  branchWrite : ∀ (entry : Entry codec) (child : Nat), child < 2 ^ 32 →
    ∃ cell, codec.writeBranch entry.key child = .ok cell ∧ cell ≠ [] ∧
      cell.length ≤ codec.maxBranchSize ∧ codec.branchLayout.Accepts cell ∧
      (∀ level, level ≠ 0 → codec.readKey cell level = .ok entry.key) ∧
      codec.readBranchChild cell = .ok child
  branchLength : ∀ (entry : Entry codec) (first second : Nat) (left right : Bytes),
    codec.writeBranch entry.key first = .ok left →
    codec.writeBranch entry.key second = .ok right → left.length = right.length

def layoutAt (level : Nat) : CellLayout :=
  if level = 0 then codec.leafLayout else codec.branchLayout

structure Reads (level : Nat) (cell : Bytes) (key : Key) : Prop where
  present : cell ≠ []
  layout : (layoutAt codec level).Accepts cell
  read : codec.readKey cell level = .ok key

section

variable (born level : Nat) (cells : List Bytes)

def treePage : Page :=
  filledPage (pageTypeAt codec level) born level codec.aux cells

@[simp] theorem treePage_hasMagic : (treePage codec born level cells).hasMagic = true := by
  simp [treePage, filledPage, initializePage, Page.hasMagic]

@[simp] theorem treePage_bornTxn : (treePage codec born level cells).bornTxn = born := rfl

end

variable {codec}

theorem fixedCellSize_layout (lawful : LawfulCodec codec) (level cellLen : Nat)
    (fixed : fixedCellSize codec level = some cellLen) :
    layoutAt codec level = .fixed cellLen ∧ 0 < cellLen := by
  unfold fixedCellSize at fixed
  by_cases leaf : level = 0
  · simp only [leaf, if_true] at fixed
    split at fixed
    · cases fixed
    · rename_i sized
      cases fixed
      exact ⟨by simp [layoutAt, leaf, lawful.leafFixed sized], Nat.pos_of_ne_zero sized⟩
  · simp only [leaf, if_false] at fixed
    split at fixed
    · rename_i sized
      cases fixed
      exact ⟨by simp [layoutAt, leaf, lawful.branchFixed sized.1 sized.2], by omega⟩
    · cases fixed

theorem reads_length (lawful : LawfulCodec codec) (level cellLen : Nat) (cell : Bytes) (key : Key)
    (fixed : fixedCellSize codec level = some cellLen) (reads : Reads codec level cell key) :
    cell.length = cellLen := by
  have accepted := reads.layout
  rw [(fixedCellSize_layout lawful level cellLen fixed).1] at accepted
  exact accepted

abbrev Readable (codec : Codec Key Leaf) (level : Nat) (cells : List Bytes) : Prop :=
  ∀ cell ∈ cells, ∃ key, Reads codec level cell key

variable {level : Nat} {cells : List Bytes}

theorem Readable.present (readable : Readable codec level cells) : ∀ cell ∈ cells, cell ≠ [] := by
  intro cell member
  obtain ⟨key, reads⟩ := readable cell member
  exact reads.present

theorem Readable.sublist {fewer : List Bytes} (readable : Readable codec level cells)
    (sub : fewer.Sublist cells) :
    Readable codec level fewer :=
  fun cell member => readable cell (sub.subset member)

theorem forall_replaced {α : Type} {P : α → Prop} {left new right : List α} {old : α}
    (all : ∀ item ∈ left ++ old :: right, P item) (fresh : ∀ item ∈ new, P item) :
    ∀ item ∈ left ++ new ++ right, P item := by
  simp only [forall_mem_append, forall_mem_cons] at all ⊢
  exact ⟨⟨all.1, fresh⟩, all.2.2⟩

theorem Readable.lengths (lawful : LawfulCodec codec) {cellLen : Nat}
    (readable : Readable codec level cells) (fixed : fixedCellSize codec level = some cellLen) :
    ∀ cell ∈ cells, cell.length = cellLen := by
  intro cell member
  obtain ⟨key, reads⟩ := readable cell member
  exact reads_length lawful level cellLen cell key fixed reads

section Read

variable (born level : Nat) (cells : List Bytes)

variable (codec) in
theorem parse_treePage (selectedTxn : Nat) (expectedLevel : Option Nat)
    (storable : Storable cells) (positive : 0 < born) (selected : born ≤ selectedTxn)
    (height : level ≤ maxTreeLevel) (expected : ∀ wanted ∈ expectedLevel, wanted = level) :
    parse codec (treePage codec born level cells) selectedTxn expectedLevel =
      .ok (filledHeader level cells) :=
  parseTree_filledPage born level selectedTxn codec.branchType codec.leafType codec.aux
    expectedLevel cells storable positive selected height expected

theorem codecCell_treePage (index : Nat) (bound : index < cells.length)
    (readable : Readable codec level cells) :
    codecCell codec (treePage codec born level cells) (filledHeader level cells) index =
      .ok cells[index] := by
  obtain ⟨key, reads⟩ := readable cells[index] (getElem_mem bound)
  exact layoutCell_filledPage _ _ _ _ _ _ index bound reads.layout

variable (codec) in
theorem keyAt_treePage (index : Nat) (key : Key) (bound : index < cells.length)
    (reads : Reads codec level cells[index] key) :
    keyAt codec (treePage codec born level cells) (filledHeader level cells) index = .ok key := by
  have found : codecCell codec (treePage codec born level cells) (filledHeader level cells) index =
      .ok cells[index] := layoutCell_filledPage _ _ _ _ _ _ index bound reads.layout
  simp only [keyAt, found, bind, Except.bind, filledHeader_level, reads.read]

end Read

section Search

variable [LinearOrder Key] (key : Key) (keys : List Key) (probe : Nat → Except Error Key)
  (sorted : keys.Pairwise (· < ·))
  (probed : ∀ index (bound : index < keys.length), probe index = .ok keys[index])
include sorted probed

theorem lowerBoundLoop_spec (fuel lower upper : Nat) (last : Option (Nat × Key))
    (enough : upper - lower ≤ fuel) (order : lower ≤ upper) (bound : upper ≤ keys.length)
    (below : ∀ index (inside : index < keys.length), index < lower → keys[index] < key)
    (above : ∀ index (inside : index < keys.length), upper ≤ index → key ≤ keys[index])
    (remembered : ∀ index current, last = some (index, current) → keys[index]? = some current) :
    ∃ position memory, lowerBoundLoop key probe fuel lower upper last = .ok (position, memory) ∧
      position ≤ keys.length ∧
      (∀ index (inside : index < keys.length), index < position → keys[index] < key) ∧
      (∀ index (inside : index < keys.length), position ≤ index → key ≤ keys[index]) ∧
      ∀ index current, memory = some (index, current) → keys[index]? = some current := by
  induction fuel generalizing lower upper last with
  | zero =>
    have same : lower = upper := by omega
    subst upper
    exact ⟨lower, last, rfl, bound, below, above, remembered⟩
  | succ fuel ih =>
    simp only [lowerBoundLoop]
    by_cases more : lower < upper
    · have inside : lower + (upper - lower) / 2 < keys.length := by omega
      simp only [if_pos more, probed _ inside, bind, Except.bind]
      have recorded : ∀ index current,
          some (lower + (upper - lower) / 2, keys[lower + (upper - lower) / 2]) =
            some (index, current) → keys[index]? = some current := by
        intro index current same
        cases same
        exact getElem?_eq_getElem inside
      have ordered := pairwise_iff_getElem.mp sorted
      by_cases smaller : keys[lower + (upper - lower) / 2] < key
      · rw [if_pos smaller]
        refine ih _ _ _ (by omega) (by omega) bound ?_ above recorded
        intro index indexBound before
        by_cases last : index = lower + (upper - lower) / 2
        · subst index
          exact smaller
        · exact lt_trans (ordered index _ indexBound inside (by omega)) smaller
      · rw [if_neg smaller]
        refine ih _ _ _ (by omega) (by omega) (by omega) below ?_ recorded
        intro index indexBound after
        by_cases first : index = lower + (upper - lower) / 2
        · subst index
          exact not_lt.mp smaller
        · exact le_trans (not_lt.mp smaller)
            (le_of_lt (ordered _ index inside indexBound (by omega)))
    · have same : lower = upper := by omega
      subst upper
      rw [if_neg more]
      exact ⟨lower, last, rfl, bound, below, above, remembered⟩

theorem lowerBoundBy_cut :
    ∃ smaller larger, keys = smaller ++ larger ∧ (∀ item ∈ smaller, item < key) ∧
      (∀ item ∈ larger, key ≤ item) ∧
      ∀ insertion, lowerBoundBy keys.length key insertion probe =
        if insertion || decide (larger.head? = some key) || smaller.length == 0 then
          .ok (smaller.length, decide (larger.head? = some key))
        else .ok (smaller.length - 1, false) := by
  obtain ⟨position, memory, run, bound, below, above, remembered⟩ :=
    lowerBoundLoop_spec key keys probe sorted probed keys.length 0 keys.length none (by omega)
      (by omega) (by omega) (by intros; omega) (by intros; omega) (by simp)
  refine ⟨keys.take position, keys.drop position, (take_append_drop _ _).symm, ?_, ?_, ?_⟩
  · intro item member
    obtain ⟨index, indexBound, rfl⟩ := mem_take_iff_getElem.mp member
    exact below index (by omega) (by omega)
  · intro item member
    obtain ⟨index, indexBound, rfl⟩ := mem_drop_iff_getElem.mp member
    exact above _ _ (by omega)
  · intro insertion
    have width : (keys.take position).length = position := by simp [bound]
    simp only [lowerBoundBy, run, bind, Except.bind, width, head?_drop]
    by_cases past : keys.length ≤ position
    · simp [past]
    · have inside : position < keys.length := by omega
      have current : keys[position]? = some keys[position] := getElem?_eq_getElem inside
      have fetched : probedKey probe position memory = .ok keys[position] := by
        cases memory with
        | none => exact probed position inside
        | some pair =>
          obtain ⟨index, value⟩ := pair
          by_cases same : index = position
          · subst index
            have stored := remembered _ value rfl
            rw [current] at stored
            cases stored
            simp [probedKey]
          · simp [probedKey, same, probed position inside]
      simp only [if_neg past, fetched, current, Option.some.injEq, Functor.map, Except.map]

theorem lowerBoundBy_insertion :
    ∃ smaller larger, keys = smaller ++ larger ∧ (∀ item ∈ smaller, item < key) ∧
      (∀ item ∈ larger, key ≤ item) ∧
      lowerBoundBy keys.length key true probe =
        .ok (smaller.length, decide (larger.head? = some key)) := by
  obtain ⟨smaller, larger, cut, below, above, run⟩ :=
    lowerBoundBy_cut key keys probe sorted probed
  exact ⟨smaller, larger, cut, below, above, by simp [run true]⟩

theorem lowerBoundBy_route (inhabited : keys ≠ []) :
    ∃ left fence right, keys = left ++ fence :: right ∧ (left = [] ∨ fence ≤ key) ∧
      (∀ item ∈ right, key < item) ∧
      ∃ exact_, lowerBoundBy keys.length key false probe = .ok (left.length, exact_) := by
  obtain ⟨smaller, larger, cut, below, above, run⟩ :=
    lowerBoundBy_cut key keys probe sorted probed
  have route := run false
  rw [cut] at sorted
  by_cases found : larger.head? = some key
  · obtain ⟨rest, same⟩ : ∃ rest, larger = key :: rest := by
      cases larger with
      | nil => simp at found
      | cons head rest => exact ⟨rest, by simpa using found⟩
    subst larger
    refine ⟨smaller, key, rest, cut, Or.inr le_rfl, ?_, true, by simp [route]⟩
    intro item member
    have later := (pairwise_append.mp sorted).2.1
    exact (pairwise_cons.mp later).1 item member
  · have strict : ∀ item ∈ larger, key < item := above_of_head_ne id
      (pairwise_append.mp sorted).2.1 above (by simpa using found)
    rcases eq_nil_or_concat smaller with none | ⟨left, fence, split⟩
    · subst smaller
      cases larger with
      | nil => exact absurd (by simpa using cut) inhabited
      | cons head rest =>
        refine ⟨[], head, rest, by simpa using cut, Or.inl rfl, ?_, _, by simpa using route⟩
        exact fun item member => strict item (by simp [member])
    · rw [concat_eq_append] at split
      subst smaller
      refine ⟨left, fence, larger, by simp [cut], Or.inr (le_of_lt (below fence (by simp))), strict,
        false, ?_⟩
      simp [route, found]

end Search

section Search

variable [LinearOrder Key] (born level : Nat) (cells : List Bytes)

theorem lowerBound_treePage (lawful : LawfulCodec codec) (keys : List Key)
    (storable : Storable cells) (reads : List.Forall₂ (Reads codec level) cells keys) :
    ∃ probe : Nat → Except Error Key,
      (∀ index (bound : index < keys.length), probe index = .ok keys[index]) ∧
      ∀ key insertion,
        lowerBound codec (treePage codec born level cells) (filledHeader level cells) key insertion =
          lowerBoundBy keys.length key insertion probe := by
  have sameLength := reads.length_eq
  have readsAt : ∀ index (bound : index < keys.length) (inside : index < cells.length),
      Reads codec level cells[index] keys[index] :=
    fun index bound inside => List.Forall₂.get reads inside bound
  cases fixed : fixedCellSize codec level with
  | none =>
    refine ⟨keyAt codec (treePage codec born level cells) (filledHeader level cells), ?_, ?_⟩
    · exact fun index bound =>
        keyAt_treePage codec born level cells index _ (by omega) (readsAt index bound (by omega))
    · intro key insertion
      simp only [lowerBound, filledHeader_level, fixed, filledHeader_itemCount, sameLength]
  | some cellLen =>
    obtain ⟨layout, positive⟩ := fixedCellSize_layout lawful level cellLen fixed
    have lengths : ∀ index (inside : index < cells.length), cells[index].length = cellLen :=
      fun index inside =>
        reads_length lawful level cellLen _ _ fixed (readsAt index (by omega) inside)
    refine ⟨fun index => do
      codec.readKey (← cell (treePage codec born level cells) (filledHeader level cells) index cellLen)
        (filledHeader level cells).level, ?_, ?_⟩
    · intro index bound
      have inside : index < cells.length := by omega
      have fetched : cell (treePage codec born level cells) (filledHeader level cells) index
          cellLen = .ok cells[index] :=
        layoutCell_filledPage (.fixed cellLen) (pageTypeAt codec level) born level codec.aux cells
          index inside (lengths index inside)
      simp only [fetched, bind, Except.bind, filledHeader_level, (readsAt index bound inside).read]
    · intro key insertion
      have some_ := length_pos_iff.mpr storable.inhabited
      have first := lengths 0 (by omega)
      have inside : cells[0].length ≤ pageSize := by
        have used := storable.fits
        have split : cells = [cells[0]] ++ cells.tail := by
          cases cells with
          | nil => exact absurd rfl storable.inhabited
          | cons head rest => rfl
        rw [split] at used
        simp only [usedBytes, payload_append, payload_cons, payload_nil] at used
        omega
      have guard : (!shapeValid (filledHeader level cells) || cellLen == 0 ||
          decide (pageSize < cellLen)) = false := by
        simp [shapeValid_filledHeader level cells storable]
        omega
      simp only [lowerBound, filledHeader_level, fixed, guard, Bool.false_eq_true, if_false,
        filledHeader_itemCount, sameLength]

end Search

end IpRange.FixedTree
