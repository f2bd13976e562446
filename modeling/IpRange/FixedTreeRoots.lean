import IpRange.FixedTreeRun

/-!
What the pages of a tree determine: the tree itself, the leaf page of a key, and
the shape of the root page before a mutation that only the path of the descent
remembers.
-/

namespace IpRange.FixedTree

open List SlottedPage

variable {Key Leaf σ ρ : Type} [Store σ] {codec : Codec Key Leaf}

section Unique

variable [PageSource ρ] {state : ρ} {heap other : Heap} {txn : Nat}

theorem Views.same {address : Nat} {page shown : Page} (views : Views state txn heap)
    (also : Views state txn other) (held : heap address = some page)
    (seen : other address = some shown) : page = shown := by
  have both := (views.found held).symm.trans (also.found seen)
  exact Except.ok.inj both

section

variable (lawful : LawfulCodec codec) (views : Views state txn heap) (also : Views state txn other)

include lawful views also

theorem nodes_eq {height : Nat} {kids others : List (Node codec)}
    (unique : ∀ kid ∈ kids, ∀ twin ∈ others, kid.page = twin.page → kid = twin)
    (trees : ∀ kid ∈ kids, TreeAt heap txn height kid)
    (twins : ∀ twin ∈ others, TreeAt other txn height twin)
    (same : kids.map Node.cell = others.map Node.cell) : kids = others := by
  induction kids generalizing others with
  | nil => exact (map_eq_nil_iff.mp same.symm).symm
  | cons kid rest ih =>
    cases others with
    | nil => cases same
    | cons twin more =>
      obtain ⟨first, later⟩ := List.cons.inj same
      have here := (node_reads lawful views (trees kid (by simp)) 1 (by omega)).2.1
      have there := (node_reads lawful also (twins twin (by simp)) 1 (by omega)).2.1
      rw [first, there, Except.ok.injEq] at here
      rw [unique kid (by simp) twin (by simp) here.symm, ih ?_ ?_ ?_ later]
      · exact fun kid member twin inMore => unique kid (mem_cons_of_mem _ member) twin
          (mem_cons_of_mem _ inMore)
      · exact fun kid member => trees kid (mem_cons_of_mem _ member)
      · exact fun twin member => twins twin (mem_cons_of_mem _ member)

theorem TreeAt.unique {height : Nat} {node twin : Node codec} (tree : TreeAt heap txn height node)
    (another : TreeAt other txn height twin) (same : node.page = twin.page) : node = twin := by
  induction height generalizing node twin with
  | zero =>
    obtain ⟨below, born, holds⟩ := tree
    obtain ⟨belowTwin, bornTwin, holdsTwin⟩ := another
    have page := Views.same views also holds.stored (same ▸ holdsTwin.stored)
    have cells : node.entries.map Entry.cell = twin.entries.map Entry.cell :=
      congrArg Page.cells page
    refine Node.ext same ?_ (below.trans belowTwin.symm)
    exact map_injective_iff.mpr Entry.cell_injective cells
  | succ height ih =>
    obtain ⟨kids, _, shape, ⟨born, holds⟩, trees⟩ := tree.branch
    obtain ⟨others, _, shapeTwin, ⟨bornTwin, holdsTwin⟩, twins⟩ := another.branch
    have page := Views.same views also holds.stored (same ▸ holdsTwin.stored)
    have cells : kids.map Node.cell = others.map Node.cell := congrArg Page.cells page
    have kidsSame := nodes_eq lawful views also
      (fun kid member twin inOthers pages => ih (trees kid member) (twins twin inOthers) pages)
      trees twins cells
    subst kidsSame
    rw [shape, shapeTwin, same]

theorem RootAt.unique {root : Nat} {entries others : List (Entry codec)}
    {pages more : List Nat} (tree : RootAt heap txn root entries pages)
    (another : RootAt other txn root others more) : entries = others ∧ pages = more := by
  rcases tree with ⟨rfl, rfl, rfl⟩ | ⟨height, node, bound, whole, page, rfl, rfl⟩
  · rcases another with ⟨-, rfl, rfl⟩ | ⟨height, node, bound, whole, page, rfl, rfl⟩
    · exact ⟨rfl, rfl⟩
    · obtain ⟨born, cells, holds⟩ := whole.stored
      have real := (also.bounds holds.stored).1
      omega
  · obtain ⟨born, cells, holds⟩ := whole.stored
    rcases another with ⟨rfl, -, -⟩ | ⟨heightTwin, twin, _, wholeTwin, pageTwin, rfl, rfl⟩
    · have real := (views.bounds holds.stored).1
      omega
    · obtain ⟨bornTwin, cellsTwin, holdsTwin⟩ := wholeTwin.stored
      have same : node.page = twin.page := page.trans pageTwin.symm
      have levels := congrArg Page.level
        (Views.same views also holds.stored (same ▸ holdsTwin.stored))
      obtain rfl : height = heightTwin := levels
      rw [whole.unique lawful views also wholeTwin same]
      exact ⟨rfl, rfl⟩

end

end Unique

section LeafPages

variable [LinearOrder Key] {heap : Heap} {txn height : Nat} {node : Node codec}

variable {entries : List (Entry codec)} {right : Entry codec}

omit [LinearOrder Key] in
theorem TreeAt.leaf_entries {page born : Nat} (tree : TreeAt heap txn height node)
    (member : page ∈ node.pages)
    (stored : heap page = some (treePage codec born 0 (entries.map Entry.cell))) :
    ∀ entry ∈ entries, entry ∈ node.entries := by
  obtain ⟨level, sub, found, rfl, inside, -⟩ := tree.subtree member
  cases level with
  | zero =>
    obtain ⟨_, earlier, holds⟩ := found
    rw [holds.stored, Option.some.injEq] at stored
    have cells : sub.entries.map Entry.cell = entries.map Entry.cell :=
      congrArg Page.cells stored
    rw [← map_injective_iff.mpr Entry.cell_injective cells]
    exact inside
  | succ level =>
    obtain ⟨earlier, cells, holds⟩ := found.stored
    rw [holds.stored, Option.some.injEq] at stored
    exact absurd (congrArg Page.level stored) (Nat.succ_ne_zero level)

theorem pairwise_cases {α : Type} {R : α → α → Prop} {items : List α} (related : items.Pairwise R)
    {left right : α} (inLeft : left ∈ items) (inRight : right ∈ items) :
    left = right ∨ R left right ∨ R right left := by
  induction items with
  | nil => cases inLeft
  | cons first rest ih =>
    obtain ⟨ahead, later⟩ := pairwise_cons.mp related
    rcases mem_cons.mp inLeft with rfl | leftLater
    · rcases mem_cons.mp inRight with same | rightLater
      · exact Or.inl same.symm
      · exact Or.inr (Or.inl (ahead right rightLater))
    · rcases mem_cons.mp inRight with rfl | rightLater
      · exact Or.inr (Or.inr (ahead left leftLater))
      · exact ih later leftLater rightLater

theorem KeysSorted.eq_of_key (sorted : KeysSorted entries) {left : Entry codec}
    (inLeft : left ∈ entries) (inRight : right ∈ entries) (same : left.key = right.key) :
    left = right := by
  rcases pairwise_cases sorted inLeft inRight with equal | before | after
  · exact equal
  · exact absurd same (ne_of_lt before)
  · exact absurd same.symm (ne_of_lt after)

theorem TreeAt.leaf_unique {page another born later : Nat} {others : List (Entry codec)}
    {left : Entry codec} (tree : TreeAt heap txn height node) (sorted : KeysSorted node.entries)
    (member : page ∈ node.pages) (also : another ∈ node.pages)
    (stored : heap page = some (treePage codec born 0 (entries.map Entry.cell)))
    (storedAlso : heap another = some (treePage codec later 0 (others.map Entry.cell)))
    (inLeft : left ∈ entries) (inRight : right ∈ others) (same : left.key = right.key) :
    entries = others := by
  induction height generalizing node with
  | zero =>
    obtain ⟨below, earlier, holds⟩ := tree
    rw [Node.pages, below, mem_singleton] at member also
    rw [member.trans also.symm, storedAlso, Option.some.injEq] at stored
    have cells : others.map Entry.cell = entries.map Entry.cell := congrArg Page.cells stored
    exact (map_injective_iff.mpr Entry.cell_injective cells).symm
  | succ height ih =>
    obtain ⟨kids, _, shape, ⟨earlier, holds⟩, trees⟩ := tree.branch
    have inside : ∀ {address born : Nat} {records : List (Entry codec)}, address ∈ node.pages →
        heap address = some (treePage codec born 0 (records.map Entry.cell)) →
        ∃ kid ∈ kids, address ∈ kid.pages := by
      intro address born records inNode shown
      rw [shape] at inNode
      rcases mem_cons.mp inNode with rfl | below
      · rw [join, holds.stored, Option.some.injEq] at shown
        exact absurd (congrArg Page.level shown) (Nat.succ_ne_zero height)
      · exact mem_flatMap.mp below
    obtain ⟨kid, inKids, inKid⟩ := inside member stored
    obtain ⟨twin, twinKids, inTwin⟩ := inside also storedAlso
    have ordered : KeysSorted (kids.flatMap Node.entries) := by
      rw [shape] at sorted
      exact sorted
    have apart := (pairwise_flatMap.mp ordered).2
    have below := (trees kid inKids).leaf_entries inKid stored left inLeft
    have belowTwin := (trees twin twinKids).leaf_entries inTwin storedAlso right inRight
    obtain rfl : kid = twin := by
      rcases pairwise_cases apart inKids twinKids with equal | before | after
      · exact equal
      · exact absurd same (ne_of_lt (before left below right belowTwin))
      · exact absurd same.symm (ne_of_lt (after right belowTwin left below))
    have kidSorted : KeysSorted kid.entries := (pairwise_flatMap.mp ordered).1 kid inKids
    exact ih (trees kid inKids) kidSorted inKid inTwin

end LeafPages

section Roots

variable {heap : Heap} {txn : Nat}

def RootTopples (heap : Heap) (txn root : Nat) (left : List (Entry codec)) : Prop :=
  ∃ height born, ∃ kids : List (Node codec), ∃ kid ∈ kids, kids.length = 2 ∧
    heap root = some (treePage codec born (height + 1) (kids.map Node.cell)) ∧
    (∀ child ∈ kids, TreeAt heap txn height child) ∧ kid.entries = left ∧
    Lonely codec heap kid.page

variable {height : Nat} {whole node : Node codec} {path : List (Level codec)}

theorem OriginAt.lonely (origin : OriginAt heap txn whole height node path)
    (narrow : Narrow False path) :
    Lonely codec heap whole.page := by
  induction path generalizing height node with
  | nil => exact narrow.elim
  | cons level rest ih =>
    obtain ⟨page, born, holds, siblings, above⟩ := origin
    cases rest with
    | cons upper others => exact ih above narrow
    | nil =>
      obtain rfl : _ = whole := above
      have alone : level.siblings = [] := narrow
      obtain ⟨noLeft, noRight⟩ := append_eq_nil_iff.mp alone
      refine (lonely_iff holds.stored).mpr ⟨Nat.succ_ne_zero _, ?_⟩
      simp [noLeft, noRight]

theorem OriginAt.rootTopples (origin : OriginAt heap txn whole height node path)
    (tree : TreeAt heap txn height node) (toppled : Topples heap path) :
    RootTopples heap txn whole.page (entriesBefore path ++ entriesAfter path) := by
  induction path generalizing height node with
  | nil => exact toppled.elim
  | cons level rest ih =>
    obtain ⟨page, born, holds, siblings, above⟩ := origin
    have trees := level.forall_kids siblings tree
    rcases toppled with ⟨alone, higher⟩ | ⟨rfl, kid, single, lonely⟩
    · obtain ⟨noLeft, noRight⟩ := append_eq_nil_iff.mp alone
      have found := ih above (treeAt_join (by simp) holds trees) higher
      simpa [entriesBefore, entriesAfter, noLeft, noRight] using found
    · obtain rfl : _ = whole := above
      have one := congrArg List.length single
      have all := congrArg (List.flatMap Node.entries) single
      refine ⟨height, born, _, kid, ?_, ?_, holds.stored, trees, ?_, lonely⟩
      · have sibling : kid ∈ level.left ++ level.right := by
          rw [show level.left ++ level.right = [kid] from single]
          simp
        rcases mem_append.mp sibling with inLeft | inRight
        · simp [inLeft]
        · simp [inRight]
      · simp only [Level.siblings, length_append, length_singleton] at one
        simp only [length_append, length_cons]
        omega
      · simpa [entriesBefore, entriesAfter, Level.siblings] using all.symm

variable [LinearOrder Key] [PageSource ρ] {state : ρ}

theorem OriginAt.topples (lawful : LawfulCodec codec) (views : Views state txn heap)
    (kept : List (Entry codec)) (origin : OriginAt heap txn whole height node path)
    (tree : TreeAt heap txn height node) (some_ : path ≠ []) (sorted : KeysSorted whole.entries)
    (toppled : RootTopples heap txn whole.page (entriesBefore path ++ kept ++ entriesAfter path)) :
    kept = [] ∧ Topples heap path := by
  induction path generalizing height node kept with
  | nil => exact absurd rfl some_
  | cons level rest ih =>
    obtain ⟨page, born, holds, siblings, above⟩ := origin
    have trees := level.forall_kids siblings tree
    by_cases last : rest = []
    · subst last
      obtain rfl : _ = whole := above
      obtain ⟨other, later, kids, kid, inKids, two, stored, others, left, lonely⟩ := toppled
      have page_ := Option.some.inj (holds.stored.symm.trans stored)
      obtain rfl : height = other := Nat.succ.inj (congrArg Page.level page_)
      have cells : (level.left ++ node :: level.right).map Node.cell = kids.map Node.cell :=
        congrArg Page.cells page_
      obtain rfl := nodes_eq lawful views views
        (fun _ member _ inKids pages => (trees _ member).unique lawful views views
          (others _ inKids) pages) trees others cells
      -- the child on the path shares no leaf with its sibling, so it is not the one left
      have apart := pairwise_flatMap.mp (show KeysSorted ((level.left ++ node ::
        level.right).flatMap Node.entries) from sorted)
      obtain ⟨shown, leftKids, rightKids⟩ := level
      have sizes : leftKids.length + rightKids.length = 1 := by
        simp only [length_append, length_cons] at two
        omega
      rcases Nat.eq_zero_or_pos leftKids.length with none | some
      · obtain rfl := length_eq_zero_iff.mp none
        obtain ⟨sibling, rfl⟩ := length_eq_one_iff.mp
          (show rightKids.length = 1 by simpa using sizes)
        simp only [entriesBefore, entriesAfter, flatMap_nil, flatMap_cons,
          nil_append, append_nil] at left
        simp only [nil_append, mem_cons, not_mem_nil, or_false] at inKids
        rcases inKids with rfl | rfl
        · have below := (pairwise_cons.mp apart.2).1 sibling (by simp) sibling.first
            (by rw [left]; simp [node_first_mem]) sibling.first (node_first_mem sibling)
          exact absurd below (lt_irrefl _)
        · exact ⟨by simpa using left, Or.inr ⟨rfl, kid, rfl, lonely⟩⟩
      · obtain rfl := length_eq_zero_iff.mp (show rightKids.length = 0 by omega)
        obtain ⟨sibling, rfl⟩ := length_eq_one_iff.mp
          (show leftKids.length = 1 by omega)
        simp only [entriesBefore, entriesAfter, flatMap_nil, flatMap_cons,
          nil_append, append_nil] at left
        simp only [singleton_append, mem_cons, not_mem_nil, or_false] at inKids
        rcases inKids with rfl | rfl
        · exact ⟨by simpa using left, Or.inr ⟨rfl, kid, rfl, lonely⟩⟩
        · have below := (pairwise_cons.mp apart.2).1 kid (by simp) sibling.first
            (node_first_mem sibling) sibling.first (by rw [left]; simp [node_first_mem])
          exact absurd below (lt_irrefl _)
    · obtain ⟨none, higher⟩ := ih (level.left.flatMap Node.entries ++ kept ++
        level.right.flatMap Node.entries) above (treeAt_join (by simp) holds trees) last (by
          simpa [entriesBefore, entriesAfter] using toppled)
      simp only [append_eq_nil_iff] at none
      obtain ⟨⟨noLeft, noKept⟩, noRight⟩ := none
      have leftNone : level.left = [] :=
        by_contra fun some => flatMap_entries_ne_nil level.left some noLeft
      have rightNone : level.right = [] :=
        by_contra fun some => flatMap_entries_ne_nil level.right some noRight
      exact ⟨noKept, Or.inl ⟨by simp [Level.siblings, leftNone, rightNone], higher⟩⟩

end Roots

end IpRange.FixedTree
