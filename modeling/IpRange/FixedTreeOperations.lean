import IpRange.FixedTreeOpened

/-!
The operations of the tree as a client sees them: each keeps the tree well
formed, acts on its leaves as on an ordered map, and retires exactly the
committed pages it no longer reaches.
-/

namespace IpRange.FixedTree

open Option List SlottedPage

variable {Key Leaf σ τ : Type} [Store σ] {codec : Codec Key Leaf} (laws : StoreLaws σ)

def Mutates (heap : Heap) (held : List Nat) (entries : List (Entry codec)) (gone : List Nat)
    (root : Nat) (reached : σ) : Prop :=
  ∃ after kept, laws.Owns reached after ∧ RootAt after laws.txn root entries kept ∧
    Moves laws.txn heap after held (kept ++ gone) ∧
    ∀ address ∈ gone, address ∈ held ∧ ∃ page, heap address = some page ∧ Committed laws.txn page

def MutatesTo (heap : Heap) (held : List Nat) (entries : List (Entry codec)) (gone : List Nat)
    (shape : Heap → Nat → Prop) (root : Nat) (reached : σ) : Prop :=
  ∃ after kept, laws.Owns reached after ∧ RootAt after laws.txn root entries kept ∧
    Moves laws.txn heap after held (kept ++ gone) ∧
    (∀ address ∈ gone, address ∈ held ∧
      ∃ page, heap address = some page ∧ Committed laws.txn page) ∧ shape after root

section Operations

variable [LinearOrder Key] {key : Key}

def MutatesAt (key : Key) (heap : Heap) (held : List Nat) (old entries : List (Entry codec))
    (gone : List Nat) (shape : Heap → Nat → Prop) (root : Nat) (reached : σ) : Prop :=
  ∃ after kept, laws.Owns reached after ∧ RootAt after laws.txn root entries kept ∧
    Moves laws.txn heap after held (kept ++ gone) ∧
    (∀ address ∈ gone, address ∈ held ∧
      ∃ page, heap address = some page ∧ Committed laws.txn page) ∧ shape after root ∧
    (old ≠ [] → ∃ records, Opened laws key heap old held gone kept after records)

structure WellFormed (heap : Heap) (root : Nat) (entries : List (Entry codec)) (pages : List Nat) :
    Prop where
  tree : RootAt heap laws.txn root entries pages
  nodup : pages.Nodup
  sorted : KeysSorted entries

/-- The leaf page that stores the entry's key has room for the entry in place of the
one it stores. -/
def HasRoom (heap : Heap) (pages : List Nat) (entry : Entry codec) : Prop :=
  ∀ page ∈ pages, ∀ born, ∀ entries : List (Entry codec),
    heap page = some (treePage codec born 0 (entries.map Entry.cell)) →
    ∀ old ∈ entries, old.key = entry.key →
      usedBytes (entries.map Entry.cell) + entry.cell.length ≤ pageSize + old.cell.length

variable {heap : Heap} {pages : List Nat} {root : Nat} {entries : List (Entry codec)}
  {shape : List (Entry codec) → Heap → Nat → Prop} {items : List (Key × Leaf)}

omit [LinearOrder Key] in
theorem HasRoom.congr {other : Heap} {entry : Entry codec}
    (same : ∀ address ∈ pages, other address = heap address) :
    HasRoom other pages entry ↔ HasRoom heap pages entry :=
  forall₂_congr fun page member => by rw [same page member]

theorem WellFormed.treePages {laws : StoreLaws σ}
    (wellFormed : WellFormed laws heap root entries pages) :
    ∀ address ∈ pages, ∃ born height cells, born ≤ laws.txn ∧
      heap address = some (treePage codec born height cells) := by
  rcases wellFormed.tree with ⟨_, _, none⟩ | ⟨height, node, _, whole, _, _, rfl⟩
  · simp [none]
  · exact whole.pages

section WellFormed

variable {laws} (wellFormed : WellFormed laws heap root entries pages)

include wellFormed

theorem WellFormed.length_le {state : σ} (owns : laws.Owns state heap) :
    entries.length ≤ 2 ^ 32 * pageSize := by
  have few : pages.length ≤ 2 ^ 32 := by
    refine length_le_of_nodup wellFormed.nodup fun address member => ?_
    obtain ⟨born, height, cells, _, stored⟩ := wellFormed.treePages address member
    exact laws.word owns stored
  exact le_trans wellFormed.tree.length_le (Nat.mul_le_mul_right pageSize few)

theorem WellFormed.congr {other : Heap} (same : ∀ address ∈ pages, other address = heap address) :
    WellFormed laws other root entries pages :=
  ⟨wellFormed.tree.congr same, wellFormed.nodup, wellFormed.sorted⟩

theorem WellFormed.hasRoom {size : Nat} (fixed : codec.leafLayout = .fixed size)
    (entry : Entry codec) : HasRoom heap pages entry := by
  have sized : ∀ record : Entry codec, record.cell.length = size := by
    intro record
    have layout := record.layout
    rw [fixed] at layout
    exact layout
  intro page member born records stored old inRecords _
  rw [sized entry, sized old]
  refine Nat.add_le_add_right ?_ _
  rcases wellFormed.tree with ⟨-, -, rfl⟩ | ⟨height, node, -, whole, -, -, rfl⟩
  · cases member
  · exact (whole.storable member stored).fits

end WellFormed

def Resettles (heap : Heap) (txn root : Nat) (left : List (Entry codec)) (after : Heap)
    (top : Nat) : Prop :=
  (Lonely codec after top → RootTopples heap txn root left ∨ Lonely codec heap root) ∧
    (RootTopples heap txn root left → Lonely codec after top)

section Found

variable {heap after : Heap} {node leaf : Node codec} {retired gone : List Nat}
  {result : Mutated (PrivateLeaf (Nat × Bool))} {path : List (Level codec)}
  {smaller larger : List (Entry codec)}

section

variable {laws}
  (found : Found laws key heap node retired result after leaf path smaller larger gone)

include found

theorem Found.moves_rebuilt {last : Heap} {kept : List Nat}
    (moves : Moves laws.txn after last (leaf.pages ++ contextPages path) kept) :
    Moves laws.txn heap last node.pages (kept ++ gone) := by
  obtain ⟨_, goneNodup, apart⟩ := nodup_append.mp found.moves.nodup
  have aside : ∀ address ∈ gone,
      address ∉ leaf.pages ++ contextPages path ∧ after address ≠ none := by
    intro address member
    obtain ⟨inNode, page, stored, isCommitted⟩ := found.committed address member
    refine ⟨fun inHole => apart address inHole address member rfl, ?_⟩
    rw [(found.moves.fixed address page inNode stored isCommitted).2]
    exact some_ne_none _
  exact found.moves.trans (moves.append goneNodup aside)

theorem Found.finish {entries : List (Entry codec)} {shape other : Heap → Nat → Prop} {root : Nat}
    {reached : σ}
    (rebuilt : Rebuilt laws after (leaf.pages ++ contextPages path) entries shape root reached)
    (weaker : ∀ last top, shape last top → other last top) :
    MutatesTo laws heap node.pages entries gone other root reached := by
  obtain ⟨last, kept, owns, tree, moves, shaped⟩ := rebuilt
  exact ⟨last, kept, owns, tree, found.moves_rebuilt moves, found.committed, weaker _ _ shaped⟩

theorem Found.stored (sorted : KeysSorted node.entries) :
    ∃ stored : Option (Entry codec), ∃ rest, larger = stored.toList ++ rest ∧
      (∀ entry ∈ stored.toList, entry.key = key) ∧
      (∀ entry ∈ rest ++ entriesAfter path, key < entry.key) ∧
      result.value.selection = (smaller.length, stored.isSome) := by
  have selection : result.value.selection =
      (smaller.length, decide (larger.head?.map Entry.key = some key)) := by
    rw [found.result_]
  have ordered : KeysSorted larger := by
    rw [found.entries, found.cut] at sorted
    exact (pairwise_append.mp
      (pairwise_append.mp (pairwise_append.mp sorted).1).2.1).2.1
  cases larger with
  | nil => exact ⟨none, [], rfl, by simp, by simpa using found.beyond, by simpa using selection⟩
  | cons head rest =>
    have later : ∀ entry ∈ rest, head.key < entry.key := (pairwise_cons.mp ordered).1
    have lower : key ≤ head.key := found.above head (by simp)
    have past : ∀ entry ∈ rest ++ entriesAfter path, key < entry.key := by
      intro entry member
      rcases mem_append.mp member with inRest | after
      · exact lt_of_le_of_lt lower (later entry inRest)
      · exact found.beyond entry after
    by_cases same : head.key = key
    · exact ⟨some head, rest, rfl, by simpa using same, past, by simpa [same] using selection⟩
    · refine ⟨none, head :: rest, rfl, by simp, ?_, by simpa [same] using selection⟩
      intro entry member
      rcases mem_cons.mp member with isHead | isLater
      · exact isHead ▸ lt_of_le_of_ne lower (Ne.symm same)
      · exact past entry isLater

end

end Found

structure Located (key : Key) (heap : Heap) (entries : List (Entry codec)) (pages retired : List Nat)
    (result : Mutated (PrivateLeaf (Nat × Bool))) (after : Heap) (node leaf : Node codec)
    (path : List (Level codec)) (smaller : List (Entry codec)) (stored : Option (Entry codec))
    (rest : List (Entry codec)) (gone : List Nat) : Prop where
  found : Found laws key heap node retired result after leaf path smaller (stored.toList ++ rest)
    gone
  entries_ : node.entries = entries
  pages_ : node.pages = pages
  here : ∀ entry ∈ stored.toList, entry.key = key
  past : ∀ entry ∈ rest ++ entriesAfter path, key < entry.key
  result_ : result = {
    value := {
      path := path.map Level.frame
      pageNumber := leaf.page
      header := filledHeader 0 ((smaller ++ stored.toList ++ rest).map Entry.cell)
      selection := (smaller.length, stored.isSome) }
    root := rootOf leaf.page path
    retired := retired ++ gone }

theorem locate_spec (lawful : LawfulCodec codec) (key : Key) {state : σ} {retired : List Nat}
    (owns : laws.Owns state heap) (wellFormed : WellFormed laws heap root entries pages) :
    Ensures (privatePath codec key root retired) state
      (fun result reached => ∃ after node leaf path smaller stored rest gone,
        laws.Owns reached after ∧ Located laws key heap entries pages retired result after node leaf
          path smaller stored rest gone)
      (fun error reached => PathFails laws False (retired.length + maxTreeLevel) error reached ∨
        entries = [] ∧ Store.inspectPage reached 0 = .error error) := by
  obtain ⟨tree, nodup, sorted⟩ := wellFormed
  rcases tree with ⟨rfl, none, _⟩ | ⟨height, node, bound, whole, rfl, rfl, rfl⟩
  · obtain ⟨error, unreadable⟩ := laws.reserved owns
    simp only [privatePath, privatePathSelect]
    rw [descend]
    simp only [ensures_bind, ensures_get, viewPage, unreadable, ensures_liftResult_error]
    exact Or.inr ⟨none, trivial⟩
  · refine (privatePath_spec laws key lawful owns whole nodup sorted bound).mono ?_
      fun error _ failed => Or.inl (PathFails.mono laws failed (by omega))
    rintro result reached ⟨after, leaf, path, smaller, larger, gone, ownsAfter, found⟩
    obtain ⟨stored, rest, rfl, here, past, selection⟩ := found.stored sorted
    refine ⟨after, node, leaf, path, smaller, stored, rest, gone, ownsAfter, found, rfl, rfl, here,
      past, ?_⟩
    have shape := found.result_
    rw [shape] at selection ⊢
    rw [← selection, found.cut, append_assoc]

section Located

variable {laws} {heap after last : Heap} {entries rest smaller : List (Entry codec)}
  {pages retired : List Nat} {result : Mutated (PrivateLeaf (Nat × Bool))} {node leaf : Node codec}
  {path : List (Level codec)} {stored : Option (Entry codec)} {gone : List Nat} {root top : Nat}

section Any

variable
  (located : Located laws key heap entries pages retired result after node leaf path smaller stored
    rest gone)

include located

theorem Located.cut : leaf.entries = smaller ++ stored.toList ++ rest := by
  rw [located.found.cut, append_assoc]

theorem Located.place : OnLeaf laws after leaf path (smaller ++ stored.toList ++ rest) :=
  ⟨located.found.hole, located.found.bound, located.cut, located.cut ▸ located.found.holds⟩

theorem Located.whole :
    entries = entriesBefore path ++ smaller ++ stored.toList ++ (rest ++ entriesAfter path) := by
  rw [← located.entries_, located.found.entries, located.cut]
  simp

theorem Located.splice (new : List (Entry codec)) :
    (entriesBefore path ++ (smaller ++ new ++ rest) ++ entriesAfter path).map Entry.item =
      IpRange.splice key (new.map Entry.item) (entries.map Entry.item) := by
  have below : ∀ item ∈ (entriesBefore path ++ smaller).map Entry.item, item.1 < key := by
    intro item member
    obtain ⟨entry, inSmaller, rfl⟩ := mem_map.mp member
    exact located.found.below entry inSmaller
  have here : ∀ item ∈ stored.toList.map Entry.item, item.1 = key := by
    intro item member
    obtain ⟨entry, isStored, rfl⟩ := mem_map.mp member
    exact located.here entry isStored
  have above : ∀ item ∈ (rest ++ entriesAfter path).map Entry.item, key < item.1 := by
    intro item member
    obtain ⟨entry, inRest, rfl⟩ := mem_map.mp member
    exact located.past entry inRest
  calc (entriesBefore path ++ (smaller ++ new ++ rest) ++ entriesAfter path).map Entry.item
      = (entriesBefore path ++ smaller).map Entry.item ++ new.map Entry.item ++
          (rest ++ entriesAfter path).map Entry.item := by simp
    _ = IpRange.splice key (new.map Entry.item) ((entriesBefore path ++ smaller).map Entry.item ++
          stored.toList.map Entry.item ++ (rest ++ entriesAfter path).map Entry.item) :=
        (splice_cut key (new.map Entry.item) below here above).symm
    _ = IpRange.splice key (new.map Entry.item) (entries.map Entry.item) := by
        rw [located.whole]
        simp only [map_append]

theorem Located.sorted (sorted : KeysSorted entries) (new : List (Entry codec))
    (inner : KeysSorted new) (low : ∀ entry ∈ new, key ≤ entry.key)
    (high : ∀ entry ∈ new, ∀ other ∈ entries, key < other.key → entry.key < other.key) :
    KeysSorted (entriesBefore path ++ (smaller ++ new ++ rest) ++ entriesAfter path) := by
  have whole := located.whole
  have ordered : (entriesBefore path ++ smaller ++ new ++ (rest ++ entriesAfter path)).Pairwise
      fun earlier later => earlier.key < later.key := by
    refine pairwise_replace (whole ▸ sorted) inner ?_ ?_
    · exact fun entry member other inNew =>
        lt_of_lt_of_le (located.found.below entry member) (low other inNew)
    · intro entry inNew other member
      refine high entry inNew other ?_ (located.past other member)
      rw [whole]
      exact mem_append_right _ member
  simpa using ordered

variable {state : σ}

theorem Located.finish (lawful : LawfulCodec codec) {reached : σ} {shape other : Heap → Nat → Prop}
    {new : List (Entry codec)} (owns : laws.Owns state heap) (sorted : KeysSorted entries)
    (rebuilt : Rebuilt laws after (leaf.pages ++ contextPages path) new shape root reached)
    (weaker : ∀ last top, shape last top → other last top) :
    MutatesAt laws key heap pages entries new gone other root reached := by
  obtain ⟨last, kept, ownsLast, tree, moves, shaped⟩ := rebuilt
  have whole := located.found.moves_rebuilt moves
  have committed := located.found.committed
  rw [located.pages_] at whole committed
  exact ⟨last, kept, ownsLast, tree, whole, committed, weaker _ _ shaped, fun _ => ⟨leaf.entries,
    located.found.opened lawful owns sorted located.entries_ located.pages_ moves⟩⟩

theorem Located.root_page (wellFormed : WellFormed laws heap root entries pages) :
    node.page = root := by
  rcases wellFormed.tree with ⟨-, -, none⟩ | ⟨height, twin, -, -, page, -, pages_⟩
  · exact absurd (located.pages_.trans none) (cons_ne_nil _ _)
  · have heads := congrArg List.head? (located.pages_.trans pages_.symm)
    rw [← page]
    exact Option.some.inj heads

section

variable (lawful : LawfulCodec codec) (owns : laws.Owns state heap)
  (wellFormed : WellFormed laws heap root entries pages)

include lawful owns wellFormed

theorem Located.resettles {kept : List (Entry codec)}
    (settles : Settles (kept = []) after path last top) :
    Resettles heap laws.txn root (entriesBefore path ++ kept ++ entriesAfter path) last top := by
  obtain ⟨first, firstTree, -, origin⟩ := located.found.origin
  have same : Topples after path ↔ Topples heap path := Topples.congr fun level member kid sibling =>
    located.found.aside level member kid sibling kid.page (by simp [Node.pages])
  rw [← located.root_page wellFormed]
  refine ⟨fun lonely => ?_, fun toppled => settles.1 ?_⟩
  · rcases settles.2 lonely with ⟨rfl, toppled⟩ | narrow
    · rw [append_nil]
      exact Or.inl (origin.rootTopples firstTree (same.mp toppled))
    · exact Or.inr (origin.lonely narrow)
  · rw [same]
    have sorted : KeysSorted node.entries := by
      rw [located.entries_]
      exact wellFormed.sorted
    refine origin.topples lawful (laws.views owns) kept firstTree ?_ sorted toppled
    rintro rfl
    obtain rfl : first = node := origin
    obtain ⟨below, born, holds⟩ := firstTree
    obtain ⟨height, later, kids, kid, -, -, shown, -⟩ := toppled
    rw [holds.stored, Option.some.injEq] at shown
    exact absurd (congrArg Page.level shown) (Nat.succ_ne_zero height).symm

theorem Located.keeps (kept : List (Entry codec))
    (some_ : kept ≠ []) (widens : Widens codec False path last top) :
    Resettles heap laws.txn root (entriesBefore path ++ kept ++ entriesAfter path) last top :=
  located.resettles lawful owns wellFormed (widens.settles after some_ last top)

end

end Any

theorem Located.hasRoom {old entry : Entry codec}
    (located : Located laws entry.key heap entries pages retired result after node leaf path smaller
      (some old) rest gone) (wellFormed : WellFormed laws heap root entries pages) :
    HasRoom heap pages entry ↔
      usedBytes ((smaller ++ entry :: rest).map Entry.cell) ≤ pageSize := by
  obtain ⟨first, firstTree, firstEntries, origin⟩ := located.found.origin
  obtain ⟨below, born, holds⟩ := id firstTree
  have here : old.key = entry.key := located.here old (by simp)
  have records : first.entries = smaller ++ old :: rest := by
    rw [firstEntries, located.cut]
    simp
  have inPages : first.page ∈ node.pages := origin.inside.1 _ (by simp [Node.pages])
  have size : usedBytes ((smaller ++ old :: rest).map Entry.cell) + entry.cell.length =
      usedBytes ((smaller ++ entry :: rest).map Entry.cell) + old.cell.length := by
    simp only [usedBytes, map_append, map_cons, length_append, length_cons,
      payload_append, payload_cons]
    omega
  constructor
  · intro room
    have fits := room first.page (located.pages_ ▸ inPages) born first.entries holds.stored old
      (by simp [records]) here
    rw [records] at fits
    omega
  · intro fits page member later others shown twin inOthers same
    rcases wellFormed.tree with ⟨-, -, none⟩ | ⟨height, whole, -, tree, -, wholeEntries, wholePages⟩
    · rw [none] at member
      cases member
    · have sorted : KeysSorted whole.entries := by
        rw [wholeEntries]
        exact wellFormed.sorted
      have inWhole : first.page ∈ whole.pages := by
        rw [wholePages, ← located.pages_]
        exact inPages
      rw [← wholePages] at member
      have inFirst : old ∈ first.entries := by simp [records]
      obtain rfl := tree.leaf_unique sorted inWhole member holds.stored shown inFirst inOthers
        (here.trans same.symm)
      obtain rfl := sorted.eq_of_key (tree.leaf_entries inWhole holds.stored old inFirst)
        (tree.leaf_entries member shown twin inOthers) (here.trans same.symm)
      rw [records]
      omega

theorem Located.missing
    (located : Located laws key heap entries pages retired result after node leaf path smaller none
      rest gone) : key ∉ entries.map Entry.key := by
  rw [located.whole]
  intro member
  obtain ⟨entry, inEntries, same⟩ := mem_map.mp member
  simp only [toList_none, append_nil] at inEntries
  rcases mem_append.mp inEntries with before | past
  · exact absurd (located.found.below entry before) (by simp [same])
  · exact absurd (located.past entry past) (by simp [same])

end Located

def Yields (heap : Heap) (pages : List Nat) (gone : List Nat) (root : Nat) (reached : σ)
    (codec : Codec Key Leaf) (items : List (Key × Leaf)) : Prop :=
  ∃ entries : List (Entry codec), Mutates laws heap pages entries gone root reached ∧
    KeysSorted entries ∧ entries.map Entry.item = items

def YieldsTo (heap : Heap) (pages : List Nat) (gone : List Nat) (root : Nat) (reached : σ)
    (codec : Codec Key Leaf) (shape : List (Entry codec) → Heap → Nat → Prop)
    (items : List (Key × Leaf)) : Prop :=
  ∃ entries : List (Entry codec), MutatesTo laws heap pages entries gone (shape entries) root reached ∧
    KeysSorted entries ∧ entries.map Entry.item = items

def YieldsAt (key : Key) (heap : Heap) (old : List (Entry codec)) (pages : List Nat) (gone : List Nat)
    (root : Nat) (reached : σ) (shape : List (Entry codec) → Heap → Nat → Prop)
    (items : List (Key × Leaf)) : Prop :=
  ∃ entries : List (Entry codec),
    MutatesAt laws key heap pages old entries gone (shape entries) root reached ∧
    KeysSorted entries ∧ entries.map Entry.item = items

theorem YieldsAt.yieldsTo {laws : StoreLaws σ} {old : List (Entry codec)} {gone : List Nat}
    {reached : σ} (yields : YieldsAt laws key heap old pages gone root reached shape items) :
    YieldsTo laws heap pages gone root reached codec shape items := by
  obtain ⟨entries, ⟨after, kept, owns, tree, moves, committed, shaped, -⟩, sorted, same⟩ := yields
  exact ⟨entries, ⟨after, kept, owns, tree, moves, committed, shaped⟩, sorted, same⟩

theorem YieldsTo.yields {laws : StoreLaws σ} {gone : List Nat} {reached : σ}
    (yields : YieldsTo laws heap pages gone root reached codec shape items) :
    Yields laws heap pages gone root reached codec items := by
  obtain ⟨entries, ⟨after, kept, owns, tree, moves, committed, -⟩, sorted, same⟩ := yields
  exact ⟨entries, ⟨after, kept, owns, tree, moves, committed⟩, sorted, same⟩

section

variable (lawful : LawfulCodec codec)

include lawful

omit [LinearOrder Key] in
theorem requireLeaf_entry (entry : Entry codec) : requireLeaf codec entry.cell = .ok () := by
  have size : (entry.cell.isEmpty || decide (codec.maxLeafSize < entry.cell.length)) = false := by
    simpa [entry.present] using entry.bounded
  simp only [requireLeaf, lawful.valid, bind, Except.bind, size, Bool.false_eq_true, if_false,
    entry.leafRead]

theorem requireIncreasing_entries (previous : Option Key) (entries : List (Entry codec))
    (sorted : KeysSorted entries) (past : ∀ key ∈ previous, ∀ entry ∈ entries, key < entry.key) :
    requireIncreasing codec previous (entries.map Entry.cell) = .ok () := by
  induction entries generalizing previous with
  | nil => rfl
  | cons entry rest ih =>
    obtain ⟨follows, later⟩ := pairwise_cons.mp sorted
    have forward : ¬ previous.any (entry.key ≤ ·) = true := by
      intro backward
      obtain ⟨key, isPrevious, reaches⟩ := (Option.any_eq_true ..).mp backward
      exact absurd (past key isPrevious entry (by simp)) (not_lt.mpr (of_decide_eq_true reaches))
    simp only [map_cons, requireIncreasing, requireLeaf_entry lawful, entry.keyRead, bind,
      Except.bind, forward, Bool.false_eq_true, if_false]
    refine ih (some entry.key) later ?_
    rintro _ ⟨⟩ other member
    exact follows other member

theorem requireReplacement_entries (first : Entry codec) {more : List (Entry codec)}
    (sorted : KeysSorted (first :: more)) (some_ : more ≠ []) (few : more.length ≤ 2) :
    requireReplacement codec first.key ((first :: more).map Entry.cell) = .ok () := by
  have count : (decide (((first :: more).map Entry.cell).length < 2) ||
      decide (3 < ((first :: more).map Entry.cell).length)) = false := by
    have several := length_pos_iff.mpr some_
    simp only [length_map, length_cons, Bool.or_eq_false_iff, decide_eq_false_iff_not]
    omega
  have increasing := requireIncreasing_entries lawful none (first :: more) sorted (by simp)
  rw [map_cons] at count increasing ⊢
  simp only [requireReplacement, count, increasing, headD_cons, first.keyRead, bind,
    Except.bind, Bool.false_eq_true, ne_eq, not_true_eq_false, if_false]

omit [LinearOrder Key] in
theorem requireLeaf_spec {cell : Bytes} (laid : LaidOut codec cell) :
    (∃ error, requireLeaf codec cell = .error error) ∨
      requireLeaf codec cell = .ok () ∧ ∃ entry : Entry codec, entry.cell = cell := by
  by_cases size : (cell.isEmpty || decide (codec.maxLeafSize < cell.length)) = true
  · refine Or.inl ⟨.invalidArgument "wrong B+tree leaf size", ?_⟩
    simp only [requireLeaf, lawful.valid, bind, Except.bind, size, if_true]
  · rw [Bool.not_eq_true] at size
    simp only [Bool.or_eq_false_iff, isEmpty_eq_false_iff, decide_eq_false_iff_not,
      Nat.not_lt] at size
    have sized : (cell.isEmpty || decide (codec.maxLeafSize < cell.length)) = false := by
      simpa [size.1] using size.2
    cases decoded : codec.readLeaf cell with
    | error error =>
      refine Or.inl ⟨error, ?_⟩
      simp only [requireLeaf, lawful.valid, bind, Except.bind, sized, Bool.false_eq_true, if_false,
        decoded]
    | ok leaf =>
      obtain ⟨key, keyRead⟩ := lawful.leafKey cell leaf size.1 size.2 decoded
      refine Or.inr ⟨?_, ⟨cell, key, leaf, size.1, size.2, laid leaf decoded, keyRead, decoded⟩, rfl⟩
      simp only [requireLeaf, lawful.valid, bind, Except.bind, sized, Bool.false_eq_true, if_false,
        decoded]

theorem requireIncreasing_spec (previous : Option Key)
    {cells : List Bytes} (laid : ∀ cell ∈ cells, LaidOut codec cell) :
    (∃ error, requireIncreasing codec previous cells = .error error) ∨
      requireIncreasing codec previous cells = .ok () ∧ ∃ entries : List (Entry codec),
        cells = entries.map Entry.cell ∧ KeysSorted entries ∧
        ∀ key ∈ previous, ∀ entry ∈ entries, key < entry.key := by
  induction cells generalizing previous with
  | nil => exact Or.inr ⟨rfl, [], rfl, List.Pairwise.nil, by simp⟩
  | cons cell rest ih =>
    obtain ⟨here, later⟩ := forall_mem_cons.mp laid
    rcases requireLeaf_spec lawful here with ⟨error, refused⟩ | ⟨accepted, entry, rfl⟩
    · exact Or.inl ⟨error, by simp only [requireIncreasing, refused, bind, Except.bind]⟩
    · by_cases backward : previous.any (entry.key ≤ ·) = true
      · refine Or.inl ⟨.invalidArgument "B+tree replacement keys are not increasing", ?_⟩
        simp only [requireIncreasing, accepted, entry.keyRead, bind, Except.bind, backward,
          if_true]
      · have step : requireIncreasing codec previous (entry.cell :: rest) =
            requireIncreasing codec (some entry.key) rest := by
          simp only [requireIncreasing, accepted, entry.keyRead, bind, Except.bind, backward,
            Bool.false_eq_true, if_false]
        rw [step]
        rcases ih (some entry.key) later with refused | ⟨run, entries, rfl, sorted, later⟩
        · exact Or.inl refused
        · have follows : ∀ other ∈ entries, entry.key < other.key := later entry.key rfl
          refine Or.inr ⟨run, entry :: entries, rfl, pairwise_cons.mpr ⟨follows, sorted⟩, ?_⟩
          intro key isPrevious other member
          obtain rfl : previous = some key := isPrevious
          have first : key < entry.key := by simpa using backward
          rcases mem_cons.mp member with same | inRest
          · exact same ▸ first
          · exact lt_trans first (follows other inRest)

theorem requireReplacement_spec (key : Key) {cells : List Bytes}
    (laid : ∀ cell ∈ cells, LaidOut codec cell) :
    (∃ error, requireReplacement codec key cells = .error error) ∨
      requireReplacement codec key cells = .ok () ∧ ∃ (first : Entry codec)
        (more : List (Entry codec)), KeysSorted (first :: more) ∧ first.key = key ∧
        (first :: more).length ≤ 3 ∧ cells = (first :: more).map Entry.cell := by
  unfold requireReplacement
  by_cases count : (decide (cells.length < 2) || decide (3 < cells.length)) = true
  · exact Or.inl ⟨_, if_pos count⟩
  · rw [if_neg count]
    rcases requireIncreasing_spec lawful none laid with ⟨error, refused⟩ |
      ⟨run, entries, rfl, sorted, _⟩
    · exact Or.inl ⟨error, by simp only [refused, bind, Except.bind]⟩
    · cases entries with
      | nil => simp at count
      | cons first more =>
        by_cases same : first.key = key
        · have few : (first :: more).length ≤ 3 := by
            simp only [Bool.or_eq_true, decide_eq_true_eq, length_map, not_or] at count
            omega
          refine Or.inr ⟨?_, first, more, sorted, same, few, rfl⟩
          rw [map_cons] at run ⊢
          simp only [run, headD_cons, first.keyRead, bind, Except.bind, same,
            ne_eq, not_true_eq_false, if_false]
        · refine Or.inl ⟨.invalidArgument "B+tree replacement changed its first key", ?_⟩
          rw [map_cons] at run ⊢
          simp only [run, headD_cons, first.keyRead, bind, Except.bind, same,
            ne_eq, not_false_eq_true, if_true]

end

omit [LinearOrder Key] in
theorem scan_fails (step : Leaf → τ → Except Error (Bool × τ)) (leaves : List Leaf) (memory : τ)
    (error : Error) (failed : scan step leaves memory = .error error) :
    ∃ leaf ∈ leaves, ∃ now, step leaf now = .error error := by
  induction leaves generalizing memory with
  | nil => cases failed
  | cons leaf rest ih =>
    simp only [scan, bind, Except.bind] at failed
    split at failed
    · rename_i raised decided
      cases failed
      exact ⟨leaf, by simp, memory, decided⟩
    · rename_i outcome decided
      split at failed
      · split at failed
        · rename_i raised found
          cases failed
          obtain ⟨raiser, member, cause⟩ := ih _ found
          exact ⟨raiser, mem_cons_of_mem _ member, cause⟩
        · cases failed
      · cases failed

/-- The call wants the key's record: an empty tree has no page to look at, and any other tree ends
at a leaf without the record. -/
def Missing (detail : String) (key : Key) (items : List (Key × Leaf)) (error : Error) (state : σ) :
    Prop :=
  key ∉ items.map Prod.fst ∧ (items = [] ∧ Store.inspectPage state 0 = .error error ∨
    error = .corrupt detail)

/-- A run removal works on the draft's own pages, in leaves of one record size, and passes on what
its callback raises at a record of the tree. -/
def RunFails (codec : Codec Key Leaf) (step : Leaf → τ → Except Error (Bool × τ))
    (items : List (Key × Leaf)) (error : Error) (state : σ) : Prop :=
  (∃ heap address page, laws.Owns state heap ∧ heap address = some page ∧
      Committed laws.txn page) ∧ error = .corrupt "private B+tree run retired a page" ∨
    codec.leafSize = 0 ∧ error = .unsupported "B+tree run removal requires fixed leaf cells" ∨
    ∃ item ∈ items, ∃ memory, step item.2 memory = .error error

section Calls

variable {heap : Heap} {state : σ} {root : Nat} {entries : List (Entry codec)}
  {pages retired : List Nat}

omit [LinearOrder Key] in
theorem missing_of_empty {error : Error} (detail : String)
    (failed : PathFails laws False (retired.length + maxTreeLevel) error state ∨
      entries = [] ∧ Store.inspectPage state 0 = .error error) :
    PathFails laws False (retired.length + maxTreeLevel) error state ∨
      Missing detail key (entries.map Entry.item) error state :=
  failed.imp_right fun ⟨empty, unreadable⟩ => by simp [Missing, empty, unreadable]

omit [LinearOrder Key] in
theorem keys_of_items (entries : List (Entry codec)) :
    (entries.map Entry.item).map Prod.fst = entries.map Entry.key :=
  List.map_map

variable (lawful : LawfulCodec codec) (owns : laws.Owns state heap)
  (wellFormed : WellFormed laws heap root entries pages)

include lawful owns wellFormed

theorem insert_opens (entry : Entry codec) :
    Ensures (insert codec root entry.cell retired) state
      (fun result reached => (result.value = true ↔
          entry.key ∉ entries.map Entry.key ∨ ¬ HasRoom heap pages entry) ∧
        ∃ gone, result.retired = retired ++ gone ∧
        YieldsAt laws entry.key heap entries pages gone result.root reached
          (Resettles heap laws.txn root) (splice entry.key [entry.item] (entries.map Entry.item)))
      (PathFails laws (Bulky codec entry.cell) (retired.length + maxTreeLevel)) := by
  unfold insert
  simp only [requireLeaf_entry lawful, ensures_bind, ensures_liftResult_ok]
  by_cases empty : root = 0
  · have none : entries = [] ∧ pages = [] := by
      rcases wellFormed.tree with ⟨_, none, noPages⟩ | ⟨height, node, _, whole, page, _, _⟩
      · exact ⟨none, noPages⟩
      · obtain ⟨born, cells, holds⟩ := whole.stored
        have real := (laws.bounds owns holds.stored).1
        omega
    obtain ⟨rfl, rfl⟩ := none
    simp only [empty, if_true, ensures_bind]
    refine (newLeaf_spec laws lawful owns).mono ?_ fun error _ failed => Or.inl (failed.imp False.elim)
    rintro page reached ⟨after, kept, ownsAfter, tree, moves, wide⟩
    rw [ensures_pure]
    have settled : Resettles heap laws.txn 0 [entry] after page := by
      refine ⟨fun lonely => absurd lonely wide, ?_⟩
      rintro ⟨height, born, kids, kid, -, -, stored, -⟩
      have real := (laws.bounds owns stored).1
      omega
    refine ⟨by simp, [], by simp, [entry], ⟨after, kept, ownsAfter, tree, by simpa using moves,
      by simp, settled, fun some_ => absurd rfl some_⟩, pairwise_singleton _ _, ?_⟩
    simp [splice]
  · simp only [empty, if_false, entry.keyRead, ensures_bind, ensures_liftResult_ok]
    refine (locate_spec laws lawful entry.key owns wellFormed).mono ?_ ?_
    · rintro result reached ⟨after, node, leaf, path, smaller, stored, rest, gone, ownsAfter,
        located⟩
      have run := editLeaf_spec laws entry lawful ownsAfter located.place
      simp only [targetAt] at run
      simp only [located.result_]
      refine run.impOr ?_
      rintro ⟨added, top⟩ done ⟨added_, rebuilt⟩
      rw [ensures_pure]
      have finished := located.finish lawful owns wellFormed.sorted rebuilt fun _ _ =>
        located.keeps lawful owns wellFormed (smaller ++ entry :: rest) (by simp)
      refine ⟨?_, gone, rfl, _, finished, ?_, ?_⟩
      · rw [added_]
        cases stored with
        | none => simp [located.missing]
        | some old =>
          rw [located.hasRoom wellFormed]
          have present : entry.key ∈ entries.map Entry.key := by
            rw [located.whole, ← located.here old (by simp)]
            simp
          simp [present]
      · have ordered := located.sorted wellFormed.sorted [entry] (pairwise_singleton _ _)
          (by simp) (by simp)
        simpa using ordered
      · have spliced := located.splice [entry]
        simpa using spliced
    · rintro error done (failed | ⟨none, -⟩)
      · exact PathFails.imp laws failed False.elim
      · rcases wellFormed.tree with ⟨zero, _, _⟩ | ⟨height, node, _, _, _, same, _⟩
        · exact absurd zero empty
        · exact absurd (same.trans none) node.inhabited

theorem deleteExisting_opens (key : Key) :
    Ensures (deleteExisting codec root key retired) state
      (fun result reached => key ∈ entries.map Entry.key ∧ ∃ gone,
        result.retired = retired ++ gone ∧ YieldsAt laws key heap entries pages gone result.root
          reached (Resettles heap laws.txn root) (splice key [] (entries.map Entry.item)))
      (fun error reached => PathFails laws False (retired.length + maxTreeLevel) error reached ∨
        Missing "B+tree key disappeared during deletion" key (entries.map Entry.item) error
          reached) := by
  unfold deleteExisting
  rw [ensures_bind]
  refine (locate_spec laws lawful key owns wellFormed).mono ?_
    fun error _ failed => missing_of_empty laws _ failed
  rintro result reached ⟨after, node, leaf, path, smaller, stored, rest, gone, ownsAfter, located⟩
  cases stored with
  | none =>
    simp only [located.result_, isSome_none, Bool.not_false, if_true, ensures_throw]
    exact Or.inr ⟨by rw [keys_of_items]; exact located.missing, Or.inr rfl⟩
  | some old =>
    have here : old.key = key := located.here old (by simp)
    have run := deleteTarget_spec laws lawful ownsAfter (by simpa using located.place)
    simp only [located.result_, isSome_some, Bool.not_true, Bool.false_eq_true, if_false,
      ensures_bind]
    have shape : smaller ++ (some old).toList ++ rest = smaller ++ old :: rest := by simp
    rw [shape]
    refine run.mono ?_ fun error _ failed => Or.inl (Or.inl failed)
    intro top done rebuilt
    rw [ensures_pure]
    have finished := located.finish lawful owns wellFormed.sorted rebuilt
      fun _ _ => located.resettles lawful owns wellFormed
    refine ⟨?_, gone, rfl, _, finished, ?_, ?_⟩
    · rw [located.whole, ← here]
      simp
    · have ordered := located.sorted wellFormed.sorted [] List.Pairwise.nil (by simp) (by simp)
      simpa using ordered
    · have spliced := located.splice []
      simpa using spliced

theorem replaceLeafWith_spec (key : Key) {cells : List Bytes}
    (laid : ∀ cell ∈ cells, LaidOut codec cell)
    (promise : ∀ cell ∈ cells, ∀ new, codec.readKey cell 0 = .ok new →
      ∀ entry ∈ entries, key < entry.key → new < entry.key) :
    Ensures (replaceLeafWith codec root key cells retired) state
      (fun result reached => key ∈ entries.map Entry.key ∧ ∃ new : List (Entry codec),
        cells = new.map Entry.cell ∧ ∃ gone, result.retired = retired ++ gone ∧
        YieldsTo laws heap pages gone result.root reached codec (Resettles heap laws.txn root)
          (splice key (new.map Entry.item) (entries.map Entry.item)))
      (fun error reached => EditFails laws codec (retired.length + maxTreeLevel) error reached ∨
        Missing "B+tree replacement key is missing" key (entries.map Entry.item) error reached ∨
        requireReplacement codec key cells = .error error) := by
  unfold replaceLeafWith
  rw [ensures_bind]
  rcases requireReplacement_spec lawful key laid with ⟨error, refused⟩ |
    ⟨accepted, first, more, sorted, starts, few, rfl⟩
  · rw [refused, ensures_liftResult_error]
    exact Or.inr (Or.inr rfl)
  · rw [accepted, ensures_liftResult_ok, ensures_bind]
    refine (locate_spec laws lawful key owns wellFormed).mono ?_
      fun error _ failed => (missing_of_empty laws _ failed).imp
        (fun cause => PathFails.imp laws cause False.elim) Or.inl
    rintro result reached ⟨after, node, leaf, path, smaller, stored, rest, gone, ownsAfter, located⟩
    cases stored with
    | none =>
      simp only [located.result_, isSome_none, Bool.not_false, if_true, ensures_throw]
      exact Or.inr (Or.inl ⟨by rw [keys_of_items]; exact located.missing, Or.inr rfl⟩)
    | some old =>
      have here : old.key = key := located.here old (by simp)
      have run := replaceTarget_spec laws more lawful ownsAfter (by simpa using located.place)
        (starts.trans here.symm) few
      simp only [targetAt] at run
      simp only [located.result_, isSome_some, Bool.not_true, Bool.false_eq_true, if_false,
        ensures_bind]
      refine run.mono ?_ fun error _ failed => Or.inl (Or.inl failed)
      intro top done rebuilt
      rw [ensures_pure]
      have finished := located.found.finish rebuilt fun _ _ =>
        located.keeps lawful owns wellFormed (smaller ++ first :: more ++ rest) (by simp)
      rw [located.pages_] at finished
      refine ⟨?_, first :: more, rfl, gone, rfl, _, finished, ?_, ?_⟩
      · rw [located.whole, ← here]
        simp
      · refine located.sorted wellFormed.sorted (first :: more) sorted ?_ ?_
        · intro entry member
          rcases mem_cons.mp member with same | later
          · exact le_of_eq (by rw [same, starts])
          · exact le_of_lt (starts ▸ (pairwise_cons.mp sorted).1 entry later)
        · exact fun entry member other stored past =>
            promise entry.cell (mem_map_of_mem member) entry.key entry.keyRead other stored past
      · exact located.splice (first :: more)

theorem removeLeafRun_spec (key : Key) (step : Leaf → τ → Except Error (Bool × τ)) (memory : τ) :
    Ensures (removeLeafRun codec root key step memory) state
      (fun result reached => ∃ smaller scanned beyond : List (Entry codec),
        entries = smaller ++ (scanned ++ beyond) ∧ (∀ entry ∈ smaller, entry.key < key) ∧
        scanned.head?.map Entry.key = some key ∧
        scan step (scanned.map Entry.leaf) memory = .ok (result.1.removed, result.2.1) ∧
        result.1.following = ((scanned ++ beyond).drop result.1.removed).head?.map Entry.item ∧
        YieldsTo laws heap pages [] result.2.2 reached codec (Resettles heap laws.txn root)
          ((smaller ++ (scanned ++ beyond).drop result.1.removed).map Entry.item))
      (fun error reached => PathFails laws False maxTreeLevel error reached ∨
        Missing "B+tree run start key is missing" key (entries.map Entry.item) error reached ∨
        RunFails laws codec step (entries.map Entry.item) error reached) := by
  unfold removeLeafRun
  rw [ensures_bind]
  refine (locate_spec laws lawful key owns wellFormed).mono ?_ ?_
  · rintro result reached ⟨after, node, leaf, path, smaller, stored, rest, gone, ownsAfter, located⟩
    simp only [located.result_, nil_append]
    by_cases retires : gone = []
    · subst retires
      simp only [ne_eq, not_true_eq_false, if_false]
      cases stored with
      | none =>
        simp only [isSome_none, Bool.not_false, if_true, ensures_throw]
        exact Or.inr (Or.inl ⟨by rw [keys_of_items]; exact located.missing, Or.inr rfl⟩)
      | some old =>
        have shape : smaller ++ (some old).toList ++ rest = smaller ++ old :: rest := by simp
        have all : entries =
            entriesBefore path ++ smaller ++ ((old :: rest) ++ entriesAfter path) := by
          rw [located.whole]
          simp
        have place := located.place
        have scanned := scanRun_treePage step laws.txn smaller (old :: rest) memory
        have count : (filledHeader 0 ((smaller ++ old :: rest).map Entry.cell)).itemCount -
            smaller.length = (old :: rest).length := by simp
        rw [shape] at place ⊢
        simp only [isSome_some, Bool.not_true, Bool.false_eq_true, if_false, count,
          ensures_bind, viewPage, ensures_get, laws.inspect ownsAfter place.holds.stored,
          ensures_liftResult_ok]
        rw [scanned]
        cases ran : scan step ((old :: rest).map Entry.leaf) memory with
        | error error =>
          simp only [Except.map, ensures_liftResult_error]
          obtain ⟨leaf, member, cause⟩ := scan_fails step _ memory error ran
          obtain ⟨entry, scanned, rfl⟩ := mem_map.mp member
          refine Or.inr (Or.inr (Or.inr (Or.inr ⟨entry.item, mem_map_of_mem ?_, cause⟩)))
          rw [all]
          exact mem_append_right _ (mem_append_left _ scanned)
        | ok outcome =>
          obtain ⟨removed, last⟩ := outcome
          have inside := scan_le step _ memory removed last ran
          rw [length_map] at inside
          have run := finishRun_spec laws lawful removed ownsAfter place inside (by simp)
          simp only [Except.map, ensures_liftResult_ok]
          refine run.mono ?_ ?_
          · rintro ⟨report, top⟩ done ⟨rfl, following, rebuilt⟩
            rw [ensures_pure]
            have finished := located.found.finish rebuilt
              fun _ _ => located.resettles lawful owns wellFormed
            rw [located.pages_] at finished
            have dropped : (old :: rest ++ entriesAfter path).drop report.removed =
                (old :: rest).drop report.removed ++ entriesAfter path :=
              drop_append_of_le_length inside
            refine ⟨entriesBefore path ++ smaller, old :: rest, entriesAfter path, all,
              located.found.below, ?_, ran, following, _, finished, ?_, ?_⟩
            · simpa using located.here old (by simp)
            · refine List.Pairwise.sublist ?_ wellFormed.sorted
              rw [all]
              simp only [append_assoc]
              refine List.Sublist.append_left (List.Sublist.append_left ?_ _) _
              exact List.Sublist.append_right (drop_sublist _ _) _
            · rw [dropped]
              simp only [append_assoc]
          · rintro error done (failed | unsupported)
            · exact Or.inl (Or.inl failed)
            · exact Or.inr (Or.inr (Or.inr (Or.inl unsupported)))
    · simp only [ne_eq, retires, not_false_eq_true, if_true, ensures_throw]
      obtain ⟨address, member⟩ := exists_mem_of_ne_nil gone retires
      obtain ⟨inNode, page, stored, isCommitted⟩ := located.found.committed address member
      exact Or.inr (Or.inr (Or.inl ⟨⟨after, address, page, ownsAfter,
        (located.found.moves.fixed address page inNode stored isCommitted).2, isCommitted⟩, rfl⟩))
  · intro error done failed
    simpa using (missing_of_empty laws _ failed).imp_right Or.inl

end Calls

end Operations

end IpRange.FixedTree
