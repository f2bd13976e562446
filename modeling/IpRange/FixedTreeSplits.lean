import IpRange.FixedTreeOperations
import IpRange.MembershipCodec
import IpRange.Workspace

/-!
Splitting a full page. A branch page can always be split, and so can a leaf page
around a record that takes no more than half of a page or has a fixed size. A
longer record needs the room that its neighbours on one side leave it.
-/

namespace IpRange.FixedTree

open List SlottedPage

variable {Key Leaf σ : Type} {codec : Codec Key Leaf}

def Divides (codec : Codec Key Leaf) (born level : Nat) (page : Page) (cells : List Bytes)
    (chosen : Except Error Nat) (keepLeft buildRight : Nat → EStateM Error Page Unit) : Prop :=
  ∃ left right, left ++ right = cells ∧ Storable left ∧ Storable right ∧
    chosen = .ok left.length ∧
    keepLeft left.length page = .ok () (treePage codec born level left) ∧
    ∀ output, buildRight left.length output = .ok () (treePage codec born level right)

theorem SplitsAt.divides {born level middle : Nat} {page : Page} {cells : List Bytes}
    {chosen : Except Error Nat} {keepLeft buildRight : Nat → EStateM Error Page Unit}
    (splits : SplitsAt cells middle) (present : ∀ record ∈ cells, record ≠ [])
    (found : chosen = .ok middle)
    (kept : keepLeft middle page = .ok () (treePage codec born level (cells.take middle)))
    (built : ∀ output, buildRight middle output =
      .ok () (treePage codec born level (cells.drop middle))) :
    Divides codec born level page cells chosen keepLeft buildRight := by
  have length : (cells.take middle).length = middle := by
    have bound := splits.right
    rw [length_take]
    omega
  refine ⟨cells.take middle, cells.drop middle, take_append_drop _ _,
    splits.storable_left present, splits.storable_right present, ?_, ?_, ?_⟩
  · rw [length]
    exact found
  · rw [length]
    exact kept
  · rw [length]
    exact built

section Leaves

variable (born : Nat) (left right : List Bytes) (stored : Option Bytes) (record : Bytes)

def leafPage (codec : Codec Key Leaf) : Page :=
  treePage codec born 0 (left ++ stored.toList ++ right)

def leafHeader : Header := filledHeader 0 (left ++ stored.toList ++ right)

structure LeafPending (codec : Codec Key Leaf) : Prop where
  readable : Readable codec 0 (left ++ stored.toList ++ right)
  packed : usedBytes (left ++ stored.toList ++ right) ≤ pageSize
  reads : ∃ key, Reads codec 0 record key
  bounded : record.length ≤ codec.maxLeafSize
  full : editFits codec (leafPage born left right stored codec) (leafHeader left right stored)
    (leafEdit left stored record) = .ok false

def LeafDivides (codec : Codec Key Leaf) (chosen : Except Error Nat) : Prop :=
  Divides codec born 0 (leafPage born left right stored codec) (left ++ record :: right) chosen
    (keepLeftRecord codec born (leafHeader left right stored) (leafEdit left stored record))
    fun middle => buildEdit codec (leafPage born left right stored codec)
      (leafHeader left right stored) (leafEdit left stored record) middle
      ((leafEdit left stored record).total (leafHeader left right stored).itemCount)

variable {born left right stored record}

namespace LeafPending

variable (lawful : LawfulCodec codec) (pending : LeafPending born left right stored record codec)

include pending

theorem overflows : ¬ usedBytes (left ++ record :: right) ≤ pageSize := by
  obtain ⟨key, reads⟩ := pending.reads
  have measured := editFits_leafEdit born 0 left right stored record pending.readable reads.present
    pending.packed
  have full := pending.full
  rw [leafPage, leafHeader, measured] at full
  simpa using full

theorem kept : usedBytes (left ++ right) ≤ pageSize :=
  le_trans (usedBytes_sublist (List.Sublist.append_right (sublist_append_left _ _) _))
    pending.packed

theorem whole : Readable codec 0 (left ++ record :: right) := by
  have others := pending.readable
  simp only [Readable, forall_mem_append, forall_mem_cons] at others ⊢
  exact ⟨others.1.1, pending.reads, others.2⟩

include lawful

theorem several : 2 ≤ (left ++ record :: right).length := by
  have two := two_of_full left [record] right (by simp)
    (by simpa using alone_fits lawful record (Or.inr pending.bounded))
    (by simpa using pending.overflows)
  simpa using two

theorem divides {middle : Nat} {chosen : Except Error Nat}
    (splits : SplitsAt (left ++ record :: right) middle) (found : chosen = .ok middle) :
    LeafDivides born left right stored record codec chosen := by
  obtain ⟨key, reads⟩ := pending.reads
  refine splits.divides pending.whole.present found ?_ fun output => ?_
  · exact keepLeftRecord_leafEdit born 0 left right stored record pending.readable reads.present
      pending.packed lawful middle splits
  · rw [leafHeader, leafEdit_total]
    exact buildEdit_leafEdit born 0 left right stored record pending.readable reads.present output
      middle splits

theorem split_chosen :
    (Separable left right record → LeafDivides born left right stored record codec
      (splitIndex codec (leafPage born left right stored codec) (leafHeader left right stored)
        (leafEdit left stored record))) ∧
    (¬ Separable left right record → splitIndex codec (leafPage born left right stored codec)
        (leafHeader left right stored) (leafEdit left stored record) =
      .error (.invalidArgument "B+tree record cannot be split")) := by
  obtain ⟨key, reads⟩ := pending.reads
  have chosen := splitIndex_leafEdit born 0 left right stored record pending.readable lawful key
    reads (pending.several lawful)
  refine ⟨fun separable => ?_, fun stuck => ?_⟩
  · rcases chosen with ⟨middle, found, splits⟩ | ⟨nowhere, _⟩
    · exact pending.divides lawful splits found
    · obtain ⟨middle, splits⟩ := separable.exists_split pending.kept
      exact absurd splits (nowhere middle)
  · rcases chosen with ⟨middle, _, splits⟩ | ⟨_, refused⟩
    · exact absurd splits.separable stuck
    · exact refused

theorem separable (modest : codec.leafSize ≠ 0 ∨ record.length ≤ maxSplitCell) :
    Separable left right record := by
  rcases modest with fixed | small
  · have sized := pending.whole.lengths lawful (if_neg fixed : fixedCellSize codec 0 = _)
    refine separable_of_fixed (fun other member => sized other ?_) (sized record (by simp))
      (alone_fits lawful record (Or.inr pending.bounded)) pending.kept pending.overflows
    simp only [mem_append, mem_cons] at member ⊢
    tauto
  · exact separable_of_small small pending.kept pending.overflows

end LeafPending

end Leaves

section Edges

variable {born : Nat} {cells : List Bytes} {record : Bytes}

def Edge.around (cells : List Bytes) : Edge → List Bytes × List Bytes
  | .first => ([], cells)
  | .last => (cells, [])

theorem edge_divides (lawful : LawfulCodec codec) (edge : Edge)
    (pending : LeafPending born (edge.around cells).1 (edge.around cells).2 none record codec) :
    let edit := edgeEdit record cells.length edge
    edit.1 = leafEdit (edge.around cells).1 none record ∧
      LeafDivides born (edge.around cells).1 (edge.around cells).2 none record codec
        (.ok edit.2) := by
  have several := pending.several lawful
  have alone := alone_fits lawful record (Or.inr pending.bounded)
  have packed := pending.kept
  cases edge with
  | first =>
    refine ⟨rfl, pending.divides lawful ⟨Nat.one_pos, ?_, ?_, ?_⟩ rfl⟩
    · exact several
    · simpa [Edge.around] using alone
    · simpa [Edge.around] using packed
  | last =>
    refine ⟨rfl, pending.divides lawful ⟨?_, ?_, ?_, ?_⟩ rfl⟩
    · simpa [Edge.around, edgeEdit, Nat.succ_le_iff] using several
    · simp [Edge.around, edgeEdit]
    · simpa [Edge.around, edgeEdit] using packed
    · simpa [Edge.around, edgeEdit] using alone

end Edges

section Branches

variable {born level : Nat} {left new right : List Bytes} {old : Bytes}

structure BranchPending (codec : Codec Key Leaf) (born level : Nat) (left new right : List Bytes)
    (old : Bytes) : Prop where
  branch : level ≠ 0
  height : level ≤ maxTreeLevel
  positive : 0 < born
  word : born < 2 ^ 64
  readable : Readable codec level (left ++ old :: right)
  reads : Readable codec level new
  packed : usedBytes (left ++ old :: right) ≤ pageSize
  bounded : ∀ cell ∈ left ++ new ++ right, cell.length ≤ codec.maxBranchSize
  some_ : new ≠ []
  few : new.length ≤ 3
  full : replacementFits codec (treePage codec born level (left ++ old :: right))
    (filledHeader level (left ++ old :: right)) { index := left.length, cells := new } = .ok false

theorem branch_divides (lawful : LawfulCodec codec)
    (pending : BranchPending codec born level left new right old) :
    let page := treePage codec born level (left ++ old :: right)
    let header := filledHeader level (left ++ old :: right)
    let edit : Replacement := { index := left.length, cells := new }
    Divides codec born level page (left ++ new ++ right)
      (replacementSplitIndex codec page header edit) (keepLeftCells codec header edit)
      fun middle => buildReplacement codec page header edit middle (edit.total header.itemCount) := by
  have small : ∀ cell ∈ left ++ new ++ right, cell.length ≤ maxTreeCell := fun cell member =>
    le_trans (pending.bounded cell member) (codec_sizes lawful).1
  have full : ¬ usedBytes (left ++ new ++ right) ≤ pageSize := by
    have measured := replacementFits_treePage born level left new right old pending.readable
      pending.some_ pending.packed
    have refused := pending.full
    rw [measured] at refused
    simpa using refused
  have present := Readable.present (forall_replaced pending.readable pending.reads)
  have several := two_of_full left new right pending.some_
    (fun cell member => alone_fits lawful cell (Or.inl (pending.bounded cell (by simp [member]))))
    full
  rcases replacementSplitIndex_treePage born level left new right old pending.readable lawful
    pending.reads pending.some_ several with ⟨middle, found, splits⟩ | ⟨nowhere, _⟩
  · refine splits.divides present found ?_ fun output => ?_
    · exact keepLeftCells_treePage born level left new right old pending.readable lawful
        pending.height pending.positive pending.word middle pending.some_ pending.reads.present
        pending.packed splits
    · exact buildReplacement_treePage born level left new right old pending.readable output middle
        pending.some_ pending.reads.present splits
  · obtain ⟨middle, splits⟩ := exists_split_of_few pending.packed pending.few small full
    exact absurd splits (nowhere middle)

end Branches

variable [LinearOrder Key] [Store σ]

/-- Full pages split: branch pages and edges always, and leaf pages around every record
that can share a page with its neighbours on one side, as each record of fixed size and
each of no more than half a page can. No insertion of such a record fails for want of a
split. -/
theorem full_pages_split (lawful : LawfulCodec codec) :
    (∀ born left right stored record, LeafPending born left right stored record codec →
      ((Separable left right record → LeafDivides born left right stored record codec
        (splitIndex codec (leafPage born left right stored codec) (leafHeader left right stored)
          (leafEdit left stored record))) ∧
      (¬ Separable left right record → splitIndex codec (leafPage born left right stored codec)
          (leafHeader left right stored) (leafEdit left stored record) =
        .error (.invalidArgument "B+tree record cannot be split") ∧
        ∀ middle, ¬ SplitsAt (left ++ record :: right) middle)) ∧
      (codec.leafSize ≠ 0 ∨ record.length ≤ maxSplitCell → Separable left right record)) ∧
    (∀ born (edge : Edge) cells record,
      LeafPending born (edge.around cells).1 (edge.around cells).2 none record codec →
      (edgeEdit record cells.length edge).1 = leafEdit (edge.around cells).1 none record ∧
        LeafDivides born (edge.around cells).1 (edge.around cells).2 none record codec
          (.ok (edgeEdit record cells.length edge).2)) ∧
    (∀ born level left new right old, BranchPending codec born level left new right old →
      Divides codec born level (treePage codec born level (left ++ old :: right))
        (left ++ new ++ right)
        (replacementSplitIndex codec (treePage codec born level (left ++ old :: right))
          (filledHeader level (left ++ old :: right)) { index := left.length, cells := new })
        (keepLeftCells codec (filledHeader level (left ++ old :: right))
          { index := left.length, cells := new })
        fun middle => buildReplacement codec (treePage codec born level (left ++ old :: right))
          (filledHeader level (left ++ old :: right)) { index := left.length, cells := new } middle
          (Replacement.total { index := left.length, cells := new }
            (filledHeader level (left ++ old :: right)).itemCount)) ∧
    ∀ (laws : StoreLaws σ) (state : σ) (heap : Heap) (root : Nat) (entries : List (Entry codec))
      (pages retired : List Nat) (entry : Entry codec), laws.Owns state heap →
      WellFormed laws heap root entries pages →
      codec.leafSize ≠ 0 ∨ entry.cell.length ≤ maxSplitCell →
      (∀ result reached, insert codec root entry.cell retired state = .ok result reached →
        ∃ after kept, ∃ last : List (Entry codec), laws.Owns reached after ∧
          WellFormed laws after result.root last kept ∧
          last.map Entry.item = splice entry.key [entry.item] (entries.map Entry.item)) ∧
      ∀ error reached, insert codec root entry.cell retired state = .error error reached →
        laws.Fails error reached ∨
          TooTall laws reached ∧ error = .invalidArgument "B+tree height limit reached" ∨
          maxPath < retired.length + maxTreeLevel ∧
            error = .corrupt "COW path exceeds the maximum tree height" := by
  refine ⟨fun born left right stored record pending => ⟨⟨(pending.split_chosen lawful).1,
    fun stuck => ⟨(pending.split_chosen lawful).2 stuck, fun middle splits => stuck splits.separable⟩⟩,
    pending.separable lawful⟩, fun born edge cells record pending => edge_divides lawful edge pending,
    fun born level left new right old pending => branch_divides lawful pending, ?_⟩
  intro laws state heap root entries pages retired entry owns wellFormed modest
  have run : Ensures (insert codec root entry.cell retired) state _ _ :=
    insert_opens laws lawful owns wellFormed entry
  refine ⟨fun result reached ran => ?_, fun error reached ran => ?_⟩
  · obtain ⟨_, gone, _, last, ⟨after, kept, ownsAfter, tree, moves, _⟩, sorted, items⟩ := run.ok ran
    exact ⟨after, kept, last, ownsAfter, ⟨tree, List.Nodup.of_append_left moves.nodup, sorted⟩, items⟩
  · rcases run.error ran with (store | tall | ⟨bulky, _⟩) | long
    · exact Or.inl store
    · exact Or.inr (Or.inl tall)
    · rcases modest with fixed | small
      · exact absurd bulky.1 fixed
      · exact absurd bulky.2 (Nat.not_lt.mpr small)
    · exact Or.inr (Or.inr long)

section Sample

open IpRange.Membership (idCodec idCodec_lawful)

def bitmapRecord (id words : Nat) : Bytes :=
  toLeBytes 2 (64 + 8 * words) ++ ([0, 0] ++ (toLeBytes 4 id ++ (toLeBytes 8 1 ++
    (toLeBytes 4 words ++ (toLeBytes 4 (8 * words) ++ (List.replicate 40 0 ++
      List.replicate (8 * words) 1))))))

theorem bitmapRecord_length (id words : Nat) : (bitmapRecord id words).length = 64 + 8 * words := by
  simp only [bitmapRecord, length_append, toLeBytes_length, length_replicate,
    length_cons, length_nil]
  omega

theorem bitmapRecord_reads (id : Nat) {words : Nat} (short : words ≤ 499) :
    ∃ key, Reads idCodec 0 (bitmapRecord id words) key := by
  have size := bitmapRecord_length id words
  refine ⟨_, ?_, ⟨?_, ?_, ?_⟩, rfl⟩
  · intro none
    rw [none, length_nil] at size
    omega
  · rw [size]
    exact leField_toLeBytes 2 _ _ (by omega)
  · rw [size]
    exact Nat.le_add_right _ _
  · rw [size]
    simp only [Membership.maxIdRecord, pageSize, headerSize]
    omega

theorem crowded_pending {words : Nat} (many : 0 < words) (short : words ≤ 499) :
    LeafPending 7 [bitmapRecord 1 250] [bitmapRecord 3 240] none (bitmapRecord 2 words) idCodec := by
  have packed : usedBytes ([bitmapRecord 1 250] ++ (none : Option Bytes).toList ++
      [bitmapRecord 3 240]) ≤ pageSize := by
    simp [usedBytes, bitmapRecord_length, payload, pageSize, headerSize]
  have readable : Readable idCodec 0 ([bitmapRecord 1 250] ++ (none : Option Bytes).toList ++
      [bitmapRecord 3 240]) := by
    intro cell member
    simp only [Option.toList_none, append_nil, mem_append, mem_singleton] at member
    rcases member with rfl | rfl
    · exact bitmapRecord_reads 1 (by decide)
    · exact bitmapRecord_reads 3 (by decide)
  obtain ⟨key, reads⟩ := bitmapRecord_reads 2 short
  refine ⟨readable, packed, ⟨key, reads⟩, ?_, ?_⟩
  · rw [bitmapRecord_length]
    simp only [idCodec, Membership.maxIdRecord, pageSize, headerSize]
    omega
  · refine (editFits_leafEdit 7 0 _ _ none _ readable reads.present packed).trans ?_
    refine congrArg Except.ok (decide_eq_false ?_)
    simp only [usedBytes, payload, bitmapRecord_length, cons_append, nil_append,
      length_cons, length_nil, map_cons, map_nil, sum_cons, sum_nil,
      pageSize, headerSize]
    omega

def crowdedHeap : Heap := fun page =>
  if page = 2 then some (treePage idCodec 7 0 [bitmapRecord 1 250, bitmapRecord 3 240]) else none

def crowdedWorkspace : Workspace where
  mapping page := (crowdedHeap page).getD default
  first := 2
  limit := 64
  next := 3
  free := 0
  txn := 7

theorem long_record_is_not_split :
    LeafPending 7 [bitmapRecord 1 250] [bitmapRecord 3 240] none (bitmapRecord 2 499) idCodec ∧
      (match insert idCodec 2 (bitmapRecord 2 499) [] crowdedWorkspace with
        | .error error _ => some error
        | .ok _ _ => none) = some (.invalidArgument "B+tree record cannot be split") := by
  refine ⟨crowded_pending (by decide) (by decide), ?_⟩
  decide +kernel

theorem bitmapRecord_bounded (id : Membership.Id) {words : Nat} (short : words ≤ 499) :
    (bitmapRecord id words).length ≤ idCodec.maxLeafSize := by
  rw [bitmapRecord_length]
  simp only [idCodec, Membership.maxIdRecord, pageSize, headerSize]
  omega

def bitmapEntry (id : Membership.Id) (words : Nat) (short : words ≤ 499)
    (keyRead : idCodec.readKey (bitmapRecord id words) 0 = .ok id)
    (leafRead : Membership.decodeCanonical (bitmapRecord id words) =
      .ok ⟨id, 1, words, List.replicate 32 0, .inline⟩) : Entry idCodec where
  cell := bitmapRecord id words
  key := id
  leaf := ⟨id, 1, words, List.replicate 32 0, .inline⟩
  present := (bitmapRecord_reads id short).elim fun _ reads => reads.present
  bounded := bitmapRecord_bounded id short
  layout := (bitmapRecord_reads id short).elim fun _ reads => reads.layout
  keyRead := keyRead
  leafRead := leafRead

def crowdedEntries : List (Entry idCodec) :=
  [bitmapEntry 1 250 (by decide) (by decide +kernel) (by decide +kernel),
    bitmapEntry 3 240 (by decide) (by decide +kernel) (by decide +kernel)]

def pendingEntry : Entry idCodec :=
  bitmapEntry 2 56 (by decide) (by decide +kernel) (by decide +kernel)

theorem crowded_owned : Workspace.Holds 7 crowdedWorkspace crowdedHeap := by
  refine Workspace.Holds.of_heap (by decide) (by decide) (by decide) fun address page stored => ?_
  obtain ⟨rfl, -⟩ := Option.ite_none_right_eq_some.mp stored
  decide

theorem crowded_wellFormed :
    WellFormed (Workspace.laws 7 (by decide) (by decide)) crowdedHeap 2 crowdedEntries [2] := by
  have pending := crowded_pending (by decide : 0 < 499) (by decide)
  refine ⟨Or.inr ⟨0, leafNode 2 crowdedEntries (by simp [crowdedEntries]), by decide,
    ⟨rfl, 7, ?_⟩, rfl, rfl, rfl⟩, by decide, by decide⟩
  exact ⟨by decide, by decide, ⟨cons_ne_nil _ _, pending.readable.present, pending.packed⟩,
    rfl⟩

theorem full_pages_split_crowded :
    LeafPending 7 [bitmapRecord 1 250] [bitmapRecord 3 240] none (bitmapRecord 2 56) idCodec ∧
      LeafDivides 7 [bitmapRecord 1 250] [bitmapRecord 3 240] none (bitmapRecord 2 56) idCodec
        (splitIndex idCodec (leafPage 7 [bitmapRecord 1 250] [bitmapRecord 3 240] none idCodec)
          (leafHeader [bitmapRecord 1 250] [bitmapRecord 3 240] none)
          (leafEdit [bitmapRecord 1 250] none (bitmapRecord 2 56))) ∧
      ∃ result reached,
        insert idCodec 2 (bitmapRecord 2 56) [] crowdedWorkspace = .ok result reached ∧
        ∃ after kept, ∃ last : List (Entry idCodec),
          WellFormed (Workspace.laws 7 (by decide) (by decide)) after result.root last kept ∧
          last.map Entry.key = [1, 2, 3] := by
  have pending := crowded_pending (by decide : 0 < 56) (by decide)
  obtain ⟨leaves, _, _, inserts⟩ := @full_pages_split _ _ Workspace _ _ _ idCodec_lawful
  have short : (bitmapRecord 2 56).length ≤ maxSplitCell := by decide +kernel
  refine ⟨pending, (leaves _ _ _ _ _ pending).1.1 ((leaves _ _ _ _ _ pending).2 (Or.inr short)), ?_⟩
  have run : (match insert idCodec 2 (bitmapRecord 2 56) [] crowdedWorkspace with
      | .ok _ _ => true
      | .error _ _ => false) = true := by decide +kernel
  have spec := inserts (Workspace.laws 7 (by decide) (by decide)) crowdedWorkspace crowdedHeap 2
    crowdedEntries [2] [] pendingEntry crowded_owned crowded_wellFormed (Or.inr short)
  cases ran : insert idCodec 2 (bitmapRecord 2 56) [] crowdedWorkspace with
  | error error reached =>
    rw [ran] at run
    cases run
  | ok result reached =>
    obtain ⟨after, kept, last, _, wellFormed, items⟩ := spec.1 result reached ran
    refine ⟨result, reached, rfl, after, kept, last, wellFormed, ?_⟩
    have keys := congrArg (List.map Prod.fst) items
    rw [map_map] at keys
    exact keys

end Sample

end IpRange.FixedTree
