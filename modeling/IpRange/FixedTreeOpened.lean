import IpRange.FixedTreeRoots

/-!
What a descent leaves of the page it opens. Committed pages point at committed pages
only, so a descent to a private leaf page retires nothing; and the records of the
opened page stand on private pages afterwards, whatever was done there.
-/

namespace IpRange.FixedTree

open List SlottedPage

variable {Key Leaf σ : Type} {codec : Codec Key Leaf}

section Pages

variable {heap : Heap} {txn height : Nat}

variable {address born : Nat} {path : List (Level codec)} {node : Node codec}

theorem ContextAt.leaf_entries {hole : Nat} {fence : Key} {records : List (Entry codec)}
    (context : ContextAt heap txn height hole fence path) (member : address ∈ contextPages path)
    (stored : heap address = some (treePage codec born 0 (records.map Entry.cell))) :
    ∀ entry ∈ records, entry ∈ entriesBefore path ++ entriesAfter path := by
  induction path generalizing height hole fence with
  | nil => cases member
  | cons level rest ih =>
    obtain ⟨known, holds, siblings, above⟩ := context
    simp only [contextPages, flatMap_cons, Level.pages, cons_append, mem_cons,
      mem_append] at member
    intro entry inRecords
    rcases member with rfl | inSiblings | inRest
    · rw [holds.stored, Option.some.injEq] at stored
      exact absurd (congrArg Page.level stored) (Nat.succ_ne_zero height)
    · obtain ⟨kid, inKids, inKid⟩ := mem_flatMap.mp inSiblings
      have below := (siblings kid inKids).leaf_entries inKid stored entry inRecords
      rcases mem_append.mp inKids with isLeft | isRight
      · refine mem_append_left _ (mem_append_right _ ?_)
        exact mem_flatMap.mpr ⟨kid, isLeft, below⟩
      · refine mem_append_right _ (mem_append_left _ ?_)
        exact mem_flatMap.mpr ⟨kid, isRight, below⟩
    · rcases mem_append.mp (ih above inRest entry inRecords) with before | after
      · exact mem_append_left _ (mem_append_left _ before)
      · exact mem_append_right _ (mem_append_right _ after)

variable (codec) in
def Closed (heap : Heap) (txn : Nat) (pages : List Nat) : Prop :=
  ∀ address ∈ pages, ∀ born level cells,
    heap address = some (treePage codec born (level + 1) cells) → born ≠ txn →
    ∀ cell ∈ cells, ∀ child, codec.readBranchChild cell = .ok child →
      ∃ page, heap child = some page ∧ Committed txn page

theorem Closed.moves {after : Heap} {pages kept gone : List Nat} (closed : Closed codec heap txn pages)
    (moves : Moves txn heap after pages (kept ++ gone)) : Closed codec after txn kept := by
  intro address member born level cells stored old cell inCells child read
  obtain ⟨inPages, was⟩ := moves.origin address _ (mem_append_left _ member) stored old
  obtain ⟨page, found, isCommitted⟩ :=
    closed address inPages born level cells was old cell inCells child read
  refine ⟨page, ?_, isCommitted⟩
  by_cases inside : child ∈ pages
  · exact (moves.fixed child page inside found isCommitted).2
  · rw [moves.frame child inside (by simp [found]), found]

theorem TreeAt.child_inside (lawful : LawfulCodec codec)
    (words : ∀ address page, heap address = some page → address < 2 ^ 32) {level child : Nat}
    {cells : List Bytes} {cell : Bytes} (tree : TreeAt heap txn height node)
    (member : address ∈ node.pages)
    (stored : heap address = some (treePage codec born (level + 1) cells)) (inCells : cell ∈ cells)
    (read : codec.readBranchChild cell = .ok child) : child ∈ node.pages := by
  obtain ⟨lower, sub, found, rfl, -, inside⟩ := tree.subtree member
  cases lower with
  | zero =>
    obtain ⟨_, earlier, holds⟩ := found
    rw [holds.stored, Option.some.injEq] at stored
    exact absurd (congrArg Page.level stored).symm (Nat.succ_ne_zero level)
  | succ lower =>
    obtain ⟨kids, _, below, ⟨earlier, holds⟩, trees⟩ := found
    rw [holds.stored, Option.some.injEq] at stored
    have same : kids.map Node.cell = cells := congrArg Page.cells stored
    rw [← same] at inCells
    obtain ⟨kid, inKids, rfl⟩ := mem_map.mp inCells
    obtain ⟨kidBorn, kidCells, kidHolds⟩ := (trees kid inKids).stored
    rw [readBranchChild_cell lawful kid (words _ _ kidHolds.stored), Except.ok.injEq] at read
    rw [← read]
    refine inside (mem_cons_of_mem _ ?_)
    rw [below]
    exact mem_flatMap.mpr ⟨kid, inKids, by simp [Node.pages]⟩

theorem OriginAt.private_above (lawful : LawfulCodec codec)
    (words : ∀ address page, heap address = some page → address < 2 ^ 32) {whole : Node codec}
    (closed : Closed codec heap txn whole.pages) (stored : heap node.page ≠ none)
    (origin : OriginAt heap txn whole height node path)
    (isPrivate : ∀ page, heap node.page = some page → ¬ Committed txn page) :
    ∀ address ∈ whole.pages, address ∈ node.pages ∨
      (∃ level ∈ path, ∃ kid ∈ level.siblings, address ∈ kid.pages) ∨
      ∀ page, heap address = some page → ¬ Committed txn page := by
  induction path generalizing height node with
  | nil =>
    obtain rfl : node = whole := origin
    exact fun address member => Or.inl member
  | cons level rest ih =>
    obtain ⟨top, born, holds, siblings, above⟩ := origin
    have inWhole : top ∈ whole.pages := above.inside.1 top (by simp [join, Node.pages])
    -- a committed parent would point at a committed child
    have same : born = txn := by
      by_contra old
      obtain ⟨content, here⟩ := Option.ne_none_iff_exists'.mp stored
      obtain ⟨page, found, isCommitted⟩ := closed top inWhole born _ _ holds.stored old node.cell
        (mem_map.mpr ⟨node, by simp, rfl⟩) node.page
        (readBranchChild_cell lawful node (words _ _ here))
      exact isPrivate page found isCommitted
    have parent : ∀ page, heap top = some page → ¬ Committed txn page := by
      intro page shown
      rw [holds.stored, Option.some.injEq] at shown
      rw [← shown, same]
      exact treePage_not_committed _ _ _
    have held : heap top ≠ none := by
      rw [holds.stored]
      exact Option.some_ne_none _
    intro address member
    rcases ih held above parent address member with
      inParent | ⟨other, inRest, kid, sibling, inKid⟩ | free
    · rcases mem_cons.mp inParent with rfl | below
      · exact Or.inr (Or.inr parent)
      · obtain ⟨kid, inKids, inKid⟩ := mem_flatMap.mp below
        rcases mem_append.mp inKids with isLeft | isRight
        · exact Or.inr (Or.inl ⟨level, by simp, kid, mem_append_left _ isLeft, inKid⟩)
        · rcases mem_cons.mp isRight with rfl | later
          · exact Or.inl inKid
          · exact Or.inr (Or.inl ⟨level, by simp, kid, mem_append_right _ later, inKid⟩)
    · exact Or.inr (Or.inl ⟨other, mem_cons_of_mem _ inRest, kid, sibling, inKid⟩)
    · exact Or.inr (Or.inr free)

theorem TreeAt.storable {level : Nat} {cells : List Bytes} (tree : TreeAt heap txn height node)
    (member : address ∈ node.pages) (stored : heap address = some (treePage codec born level cells)) :
    Storable cells := by
  obtain ⟨lower, sub, found, rfl, -, -⟩ := tree.subtree member
  obtain ⟨earlier, others, holds⟩ := found.stored
  rw [holds.stored, Option.some.injEq] at stored
  have same : others = cells := congrArg Page.cells stored
  exact same ▸ holds.storable

theorem flatMap_length_le (kids : List (Node codec))
    (bounded : ∀ kid ∈ kids, kid.entries.length ≤ kid.pages.length * pageSize) :
    (kids.flatMap Node.entries).length ≤ (kids.flatMap Node.pages).length * pageSize := by
  induction kids with
  | nil => simp
  | cons kid rest ih =>
    have here := bounded kid (by simp)
    have later := ih fun other member => bounded other (mem_cons_of_mem _ member)
    simp only [flatMap_cons, length_append, Nat.add_mul]
    omega

theorem TreeAt.length_le (tree : TreeAt heap txn height node) :
    node.entries.length ≤ node.pages.length * pageSize := by
  induction height generalizing node with
  | zero =>
    obtain ⟨below, born, holds⟩ := tree
    have fits := holds.storable.fits
    simp only [usedBytes, length_map] at fits
    simp only [Node.pages, below, length_singleton]
    omega
  | succ height ih =>
    obtain ⟨kids, entries, below, -, trees⟩ := tree
    have kidsBound := flatMap_length_le kids fun kid member => ih (trees kid member)
    rw [entries, Node.pages, below, length_cons, Nat.add_mul]
    omega

theorem RootAt.length_le {root : Nat} {entries : List (Entry codec)} {pages : List Nat}
    (tree : RootAt heap txn root entries pages) : entries.length ≤ pages.length * pageSize := by
  rcases tree with ⟨-, rfl, -⟩ | ⟨height, node, -, whole, -, rfl, rfl⟩
  · exact Nat.zero_le _
  · exact whole.length_le

end Pages

variable [Store σ] [LinearOrder Key] (laws : StoreLaws σ)

structure Opened (key : Key) (heap : Heap) (entries : List (Entry codec)) (pages gone kept : List Nat)
    (after : Heap) (held : List (Entry codec)) : Prop where
  cut : ∃ before beyond, entries = before ++ held ++ beyond ∧
    (∀ entry ∈ before, entry.key < key) ∧ ∀ entry ∈ beyond, key < entry.key
  inhabited : held ≠ []
  page : ∃ page ∈ pages, ∃ born, heap page = some (treePage codec born 0 (held.map Entry.cell)) ∧
    (Closed codec heap laws.txn pages → gone ≠ [] → born ≠ laws.txn)
  moved : ∀ address ∈ kept, ∀ born, ∀ records : List (Entry codec),
    after address = some (treePage codec born 0 (records.map Entry.cell)) → born ≠ laws.txn →
    ∀ entry ∈ held, ∀ record ∈ records, record.key ≠ entry.key

variable {laws} {key : Key} {heap after : Heap} {node leaf : Node codec} {retired gone : List Nat}
  {result : Mutated (PrivateLeaf (Nat × Bool))} {path : List (Level codec)}
  {smaller larger : List (Entry codec)} {state : σ} (lawful : LawfulCodec codec)
  (owns : laws.Owns state heap)
  (found : Found laws key heap node retired result after leaf path smaller larger gone)

include lawful owns found

theorem Found.gone_nil {first : Node codec} (closed : Closed codec heap laws.txn node.pages)
    (tree : TreeAt heap laws.txn 0 first) (origin : OriginAt heap laws.txn node 0 first path)
    (isPrivate : ∀ page, heap first.page = some page → ¬ Committed laws.txn page) : gone = [] := by
  refine eq_nil_iff_forall_not_mem.mpr fun address member => ?_
  obtain ⟨inNode, page, stored, isCommitted⟩ := found.committed address member
  have held := tree.held first.page (by simp [Node.pages])
  rcases origin.private_above lawful (fun _ _ shown => laws.word owns shown) closed held isPrivate
    address inNode with
    inFirst | ⟨level, inPath, kid, sibling, inKid⟩ | free
  · rw [Node.pages, tree.1, mem_singleton] at inFirst
    rw [inFirst] at stored
    exact isPrivate page stored isCommitted
  · -- the pages beside the way are still part of the tree
    have beside : address ∈ contextPages path := by
      refine mem_flatMap.mpr ⟨level, inPath, mem_cons_of_mem _ ?_⟩
      exact mem_flatMap.mpr ⟨kid, sibling, inKid⟩
    exact (nodup_append.mp found.moves.nodup).2.2 address
      (mem_append_right _ beside) address member rfl
  · exact free page stored isCommitted

theorem Found.opened {last : Heap} {kept : List Nat} {entries : List (Entry codec)} {pages : List Nat}
    (sorted : KeysSorted entries) (entries_ : node.entries = entries) (pages_ : node.pages = pages)
    (moves : Moves laws.txn after last (leaf.pages ++ contextPages path) kept) :
    Opened laws key heap entries pages gone kept last leaf.entries := by
  subst entries_ pages_
  obtain ⟨first, tree, firstEntries, origin⟩ := found.origin
  obtain ⟨below, born, holds⟩ := id tree
  refine ⟨⟨entriesBefore path, entriesAfter path, found.entries, ?_, found.beyond⟩, leaf.inhabited,
    ⟨first.page, origin.inside.1 _ (by simp [Node.pages]), born, ?_, ?_⟩, ?_⟩
  · exact fun entry member => found.below entry (mem_append_left _ member)
  · rw [← firstEntries]
    exact holds.stored
  · intro closed retires same
    refine retires (found.gone_nil lawful owns closed tree origin fun page stored => ?_)
    rw [holds.stored, Option.some.injEq] at stored
    rw [← stored, same]
    exact treePage_not_committed _ _ _
  · intro address member born records stored old entry inLeaf record inRecords same
    obtain ⟨inHole, was⟩ := moves.origin address _ member stored old
    rcases mem_append.mp inHole with isLeaf | inContext
    · -- the opened page itself was copied
      rw [Node.pages, found.hole.tree.1, mem_singleton] at isLeaf
      rw [isLeaf, found.holds.stored, Option.some.injEq] at was
      exact old (congrArg Page.bornTxn was).symm
    · have beside := found.hole.context.leaf_entries inContext was record inRecords
      rw [found.entries] at sorted
      obtain ⟨lower, -, upper⟩ := pairwise_append.mp sorted
      rcases mem_append.mp beside with before | after
      · exact absurd same (ne_of_lt ((pairwise_append.mp lower).2.2 record before entry inLeaf))
      · exact absurd same.symm
          (ne_of_lt (upper entry (mem_append_right _ inLeaf) record after))

end IpRange.FixedTree
