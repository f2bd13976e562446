import IpRange.FixedTreeStore

/-!
The shape of a tree in a heap. A node describes a subtree by its top page, its
leaves in order and the pages below; a context is the way from a hole up to the
root, each level with the siblings on both sides of it.
-/

namespace IpRange.FixedTree

open List SlottedPage

variable {Key Leaf : Type} (codec : Codec Key Leaf)

@[ext] structure Node where
  page : Nat
  entries : List (Entry codec)
  below : List Nat
  inhabited : entries ≠ []

def branchBytes (key : Key) (child : Nat) : Bytes :=
  match codec.writeBranch key child with
  | .ok cell => cell
  | .error _ => []

variable {codec}

namespace Node

section

variable (node : Node codec)

def first : Entry codec := node.entries.head node.inhabited

def pages : List Nat := node.page :: node.below

def cell : Bytes := branchBytes codec node.first.key node.page

def moved (page : Nat) : Node codec := { node with page }

@[simp] theorem moved_first (page : Nat) : (node.moved page).first = node.first :=
  rfl

@[simp] theorem moved_page (page : Nat) : (node.moved page).page = page := rfl

@[simp] theorem moved_entries (page : Nat) : (node.moved page).entries = node.entries := rfl

end

end Node

theorem readBranchChild_cell (lawful : LawfulCodec codec) (node : Node codec)
    (word : node.page < 2 ^ 32) : codec.readBranchChild node.cell = .ok node.page := by
  obtain ⟨cell, written, -, -, -, -, read⟩ := lawful.branchWrite node.first node.page word
  have same : node.cell = cell := by simp [Node.cell, branchBytes, written]
  rw [same]
  exact read

structure Holds (heap : Heap) (txn born level page : Nat) (codec : Codec Key Leaf)
    (cells : List Bytes) : Prop where
  positive : 0 < born
  selected : born ≤ txn
  storable : Storable cells
  stored : heap page = some (treePage codec born level cells)

/-- A subtree of the given level: leaf pages at level zero, each branch record
carrying the first key of its child. -/
def TreeAt (heap : Heap) (txn : Nat) : Nat → Node codec → Prop
  | 0, node => node.below = [] ∧
      ∃ born, Holds heap txn born 0 node.page codec (node.entries.map Entry.cell)
  | level + 1, node => ∃ kids : List (Node codec),
      node.entries = kids.flatMap Node.entries ∧ node.below = kids.flatMap Node.pages ∧
      (∃ born, Holds heap txn born (level + 1) node.page codec (kids.map Node.cell)) ∧
      ∀ kid ∈ kids, TreeAt heap txn level kid

theorem flatMap_entries_ne_nil (kids : List (Node codec)) (some_ : kids ≠ []) :
    kids.flatMap Node.entries ≠ [] := by
  cases kids with
  | nil => exact absurd rfl some_
  | cons kid rest => simp [kid.inhabited]

def join (page : Nat) (kids : List (Node codec)) (some_ : kids ≠ []) : Node codec where
  page := page
  entries := kids.flatMap Node.entries
  below := kids.flatMap Node.pages
  inhabited := flatMap_entries_ne_nil kids some_

theorem join_first (page : Nat) (kids : List (Node codec)) (some_ : kids ≠ []) :
    (join page kids some_).first = (kids.head some_).first := by
  cases kids with
  | nil => exact absurd rfl some_
  | cons kid rest =>
    simp only [join, Node.first, flatMap_cons, head_cons]
    exact head_append_of_ne_nil kid.inhabited

variable {heap : Heap} {txn born level page : Nat} {entries : List (Entry codec)}

theorem treeAt_join {kids : List (Node codec)} (some_ : kids ≠ [])
    (holds : Holds heap txn born (level + 1) page codec (kids.map Node.cell))
    (subtrees : ∀ kid ∈ kids, TreeAt heap txn level kid) :
    TreeAt heap txn (level + 1) (join page kids some_) :=
  ⟨kids, rfl, rfl, ⟨born, holds⟩, subtrees⟩

theorem TreeAt.branch {node : Node codec} (tree : TreeAt heap txn (level + 1) node) :
    ∃ kids, ∃ some_ : kids ≠ [], node = join node.page kids some_ ∧
      (∃ born, Holds heap txn born (level + 1) node.page codec (kids.map Node.cell)) ∧
      ∀ kid ∈ kids, TreeAt heap txn level kid := by
  obtain ⟨kids, entries, below, ⟨born, holds⟩, subtrees⟩ := tree
  have some_ : kids ≠ [] := by
    rintro rfl
    exact holds.storable.inhabited rfl
  exact ⟨kids, some_, Node.ext rfl entries below, ⟨born, holds⟩, subtrees⟩

theorem Holds.parsed {cells : List Bytes} (holds : Holds heap txn born level page codec cells)
    (expectedLevel : Option Nat) (height : level ≤ maxTreeLevel)
    (expected : ∀ wanted ∈ expectedLevel, wanted = level) :
    parse codec (treePage codec born level cells) txn expectedLevel =
      .ok (filledHeader level cells) :=
  parse_treePage codec born level cells txn expectedLevel holds.storable holds.positive
    holds.selected height expected

theorem Holds.congr {other : Heap} {cells : List Bytes}
    (holds : Holds heap txn born level page codec cells) (same : other page = heap page) :
    Holds other txn born level page codec cells :=
  ⟨holds.positive, holds.selected, holds.storable, same.trans holds.stored⟩

section Tree

variable {heap other : Heap} {txn level : Nat} {node : Node codec}
  (tree : TreeAt heap txn level node)

include tree

theorem TreeAt.stored : ∃ born cells, Holds heap txn born level node.page codec cells := by
  cases level with
  | zero => exact ⟨tree.2.choose, _, tree.2.choose_spec⟩
  | succ level =>
    obtain ⟨kids, _, _, ⟨born, holds⟩, _⟩ := tree
    exact ⟨born, _, holds⟩

theorem TreeAt.later {later : Nat} (order : txn ≤ later) : TreeAt heap later level node := by
  induction level generalizing node with
  | zero =>
    obtain ⟨leaf, born, holds⟩ := tree
    exact ⟨leaf, born, holds.positive, le_trans holds.selected order, holds.storable, holds.stored⟩
  | succ level ih =>
    obtain ⟨kids, entries, below, ⟨born, holds⟩, subtrees⟩ := tree
    exact ⟨kids, entries, below,
      ⟨born, holds.positive, le_trans holds.selected order, holds.storable, holds.stored⟩,
      fun kid member => ih (subtrees kid member)⟩

theorem TreeAt.congr (same : ∀ address ∈ node.pages, other address = heap address) :
    TreeAt other txn level node := by
  induction level generalizing node with
  | zero =>
    obtain ⟨leaf, born, holds⟩ := tree
    exact ⟨leaf, born, holds.congr (same node.page (by simp [Node.pages]))⟩
  | succ level ih =>
    obtain ⟨kids, entries, below, ⟨born, holds⟩, subtrees⟩ := tree
    refine ⟨kids, entries, below, ⟨born, holds.congr (same node.page (by simp [Node.pages]))⟩, ?_⟩
    intro kid member
    refine ih (subtrees kid member) fun address inKid => same address ?_
    rw [Node.pages, below]
    exact mem_cons_of_mem _ (mem_flatMap.mpr ⟨kid, member, inKid⟩)

theorem TreeAt.subtree {address : Nat} (member : address ∈ node.pages) :
    ∃ height, ∃ sub : Node codec, TreeAt heap txn height sub ∧ sub.page = address ∧
      sub.entries ⊆ node.entries ∧ sub.pages ⊆ node.pages := by
  induction level generalizing node with
  | zero =>
    have same : address = node.page := by simpa [Node.pages, tree.1] using member
    exact ⟨0, node, tree, same.symm, List.Subset.refl _, List.Subset.refl _⟩
  | succ level ih =>
    rcases mem_cons.mp member with same | inBelow
    · exact ⟨level + 1, node, tree, same.symm, List.Subset.refl _, List.Subset.refl _⟩
    · obtain ⟨kids, entries, below, _, subtrees⟩ := tree
      rw [below] at inBelow
      obtain ⟨kid, inKids, inKid⟩ := mem_flatMap.mp inBelow
      obtain ⟨height, sub, found, page, inEntries, inPages⟩ := ih (subtrees kid inKids) inKid
      refine ⟨height, sub, found, page, fun entry inSub => ?_, fun other inSub => ?_⟩
      · rw [entries]
        exact mem_flatMap.mpr ⟨kid, inKids, inEntries inSub⟩
      · rw [Node.pages, below]
        exact mem_cons_of_mem _ (mem_flatMap.mpr ⟨kid, inKids, inPages inSub⟩)

theorem TreeAt.pages :
    ∀ address ∈ node.pages, ∃ born height cells, born ≤ txn ∧
      heap address = some (treePage codec born height cells) := by
  intro address member
  obtain ⟨height, sub, found, rfl, -, -⟩ := tree.subtree member
  obtain ⟨born, cells, holds⟩ := found.stored
  exact ⟨born, height, cells, holds.selected, holds.stored⟩

theorem TreeAt.held : ∀ address ∈ node.pages, heap address ≠ none := by
  intro address member
  obtain ⟨born, height, cells, _, stored⟩ := tree.pages address member
  rw [stored]
  exact Option.some_ne_none _

theorem TreeAt.moved {copy : Nat} {page : Page} (positive : 0 < txn)
    (stored : heap node.page = some page) (copied : other copy = some { page with bornTxn := txn })
    (same : ∀ address ∈ node.below, other address = heap address) :
    TreeAt other txn level (node.moved copy) := by
  cases level with
  | zero =>
    obtain ⟨leaf, born, holds⟩ := tree
    have content := Option.some.inj (holds.stored.symm.trans stored)
    subst content
    exact ⟨leaf, txn, positive, Nat.le_refl _, holds.storable, copied⟩
  | succ level =>
    obtain ⟨kids, entries, below, ⟨born, holds⟩, subtrees⟩ := tree
    have content := Option.some.inj (holds.stored.symm.trans stored)
    subst content
    refine ⟨kids, entries, below, ⟨txn, positive, Nat.le_refl _, holds.storable, copied⟩, ?_⟩
    intro kid member
    refine (subtrees kid member).congr fun address inKid => same address ?_
    rw [below]
    exact mem_flatMap.mpr ⟨kid, member, inKid⟩

end Tree

variable (codec) in
structure Level where
  page : Nat
  left : List (Node codec)
  right : List (Node codec)

namespace Level

section

variable (level : Level codec)

def frame : Frame :=
  { pageNumber := level.page
    index := level.left.length
    itemCount := level.left.length + 1 + level.right.length }

def cells (fence : Key) (hole : Nat) : List Bytes :=
  level.left.map Node.cell ++ branchBytes codec fence hole :: level.right.map Node.cell

def fence (hole : Key) : Key :=
  match level.left with
  | [] => hole
  | kid :: _ => kid.first.key

def siblings : List (Node codec) := level.left ++ level.right

def pages : List Nat := level.page :: level.siblings.flatMap Node.pages

theorem forall_kids {P : Node codec → Prop} {node : Node codec}
    (siblings : ∀ kid ∈ level.siblings, P kid) (here : P node) :
    ∀ kid ∈ level.left ++ node :: level.right, P kid := by
  obtain ⟨left, right⟩ := forall_mem_append.mp siblings
  exact forall_mem_append.mpr ⟨left, forall_mem_cons.mpr ⟨here, right⟩⟩

end

end Level

/-- The levels above a hole whose record stores `fence`: while a mutation runs it may be stale,
so it is not tied to the hole's first key. -/
def ContextAt (heap : Heap) (txn : Nat) : Nat → Nat → Key → List (Level codec) → Prop
  | _, _, _, [] => True
  | height, hole, fence, level :: rest => (∃ entry : Entry codec, entry.key = fence) ∧
      Holds heap txn txn (height + 1) level.page codec (level.cells fence hole) ∧
      (∀ kid ∈ level.siblings, TreeAt heap txn height kid) ∧
      ContextAt heap txn (height + 1) level.page (level.fence fence) rest

def entriesBefore : List (Level codec) → List (Entry codec)
  | [] => []
  | level :: rest => entriesBefore rest ++ level.left.flatMap Node.entries

def entriesAfter : List (Level codec) → List (Entry codec)
  | [] => []
  | level :: rest => level.right.flatMap Node.entries ++ entriesAfter rest

def contextPages (path : List (Level codec)) : List Nat := path.flatMap Level.pages

def rootOf (hole : Nat) : List (Level codec) → Nat
  | [] => hole
  | level :: rest => rootOf level.page rest

theorem join_fence (level : Level codec) (new : List (Node codec)) (some_ : new ≠ [])
    (all : level.left ++ new ++ level.right ≠ []) :
    (join level.page (level.left ++ new ++ level.right) all).first.key =
      level.fence (new.head some_).first.key := by
  obtain ⟨page, left, right⟩ := level
  rw [join_first]
  cases left with
  | cons kid others => rfl
  | nil =>
    cases new with
    | nil => exact absurd rfl some_
    | cons node others => rfl

section Context

variable {heap other : Heap} {txn height hole : Nat} {fence : Key} {path : List (Level codec)}

theorem ContextAt.congr (context : ContextAt heap txn height hole fence path)
    (same : ∀ address ∈ contextPages path, other address = heap address) :
    ContextAt other txn height hole fence path := by
  induction path generalizing height hole fence with
  | nil => trivial
  | cons level rest ih =>
    obtain ⟨known, holds, siblings, above⟩ := context
    have here : ∀ address ∈ level.pages, other address = heap address := fun address member =>
      same address (by simp [contextPages, member])
    refine ⟨known, holds.congr (here level.page (by simp [Level.pages])), ?_, ih above ?_⟩
    · intro kid member
      refine (siblings kid member).congr fun address inKid => here address ?_
      exact mem_cons_of_mem _ (mem_flatMap.mpr ⟨kid, member, inKid⟩)
    · exact fun address member => same address (by
        simp only [contextPages, flatMap_cons, mem_append] at member ⊢
        exact Or.inr member)

theorem ContextAt.held (context : ContextAt heap txn height hole fence path) :
    ∀ address ∈ contextPages path, heap address ≠ none := by
  induction path generalizing height hole fence with
  | nil => simp [contextPages]
  | cons level rest ih =>
    obtain ⟨known, holds, siblings, above⟩ := context
    intro address member
    simp only [contextPages, flatMap_cons, Level.pages, cons_append, mem_cons,
      mem_append] at member
    rcases member with same | inSiblings | inRest
    · rw [same, holds.stored]
      exact Option.some_ne_none _
    · obtain ⟨kid, inKids, inKid⟩ := mem_flatMap.mp inSiblings
      exact (siblings kid inKids).held address inKid
    · exact ih above address inRest

variable {level : Level codec} {node : Node codec} {born address : Nat}

theorem context_outside (nodup : (contextPages (level :: path)).Nodup) :
    ∀ address ∈ level.siblings.flatMap Node.pages ++ contextPages path,
      address ≠ level.page ∧ address ∈ contextPages (level :: path) := by
  simp only [contextPages, flatMap_cons, Level.pages, cons_append,
    nodup_cons] at nodup ⊢
  exact fun address member =>
    ⟨fun same => nodup.1 (same ▸ member), mem_cons_of_mem _ member⟩

theorem ContextAt.written (content : Option Page)
    (context : ContextAt heap txn height hole fence (level :: path))
    (nodup : (contextPages (level :: path)).Nodup) :
    (∀ kid ∈ level.siblings, TreeAt (Function.update heap level.page content) txn height kid) ∧
      ContextAt (Function.update heap level.page content) txn (height + 1) level.page
        (level.fence fence) path := by
  obtain ⟨_, _, siblings, above⟩ := context
  have outside := context_outside nodup
  refine ⟨fun kid member => ?_, ?_⟩
  · refine (siblings kid member).congr fun address inKid => Function.update_of_ne
      (outside address ?_).1 _ _
    exact mem_append_left _ (mem_flatMap.mpr ⟨kid, member, inKid⟩)
  · exact above.congr fun address member =>
      Function.update_of_ne (outside address (mem_append_right _ member)).1 _ _

theorem plug (tree : TreeAt heap txn height node)
    (context : ContextAt heap txn height node.page node.first.key path) :
    ∃ top : Node codec, TreeAt heap txn (height + path.length) top ∧
      top.page = rootOf node.page path ∧
      top.entries = entriesBefore path ++ node.entries ++ entriesAfter path ∧
      top.pages.Perm (node.pages ++ contextPages path) := by
  induction path generalizing height node with
  | nil => exact ⟨node, tree, rfl, by simp [entriesBefore, entriesAfter], by simp [contextPages]⟩
  | cons level rest ih =>
    obtain ⟨known, holds, siblings, above⟩ := context
    have some_ : level.left ++ node :: level.right ≠ [] := by simp
    have parent : TreeAt heap txn (height + 1)
        (join level.page (level.left ++ node :: level.right) some_) := by
      refine treeAt_join some_ (?_ : Holds heap txn txn _ _ _ _) ?_
      · simpa [Level.cells, Node.cell] using holds
      · exact level.forall_kids siblings tree
    have fence := join_fence level [node] (by simp) (by simp)
    simp only [append_assoc, singleton_append, head_cons] at fence
    obtain ⟨top, whole, page, entries, pages⟩ := ih parent (by rw [fence]; exact above)
    refine ⟨top, ?_, page, ?_, pages.trans ?_⟩
    · have height_ : height + (level :: rest).length = height + 1 + rest.length := by
        simp
        omega
      rw [height_]
      exact whole
    · rw [entries]
      simp [join, entriesBefore, entriesAfter]
    · simp only [join, Node.pages, contextPages, flatMap_cons, Level.pages, Level.siblings,
        flatMap_append]
      refine perm_iff_count.mpr fun address => ?_
      simp only [count_append, count_cons]
      omega

/-- The way from a subtree up to the `whole` tree, over pages a mutation may since have copied:
only the siblings on each level of the path are meant. -/
def OriginAt (heap : Heap) (txn : Nat) (whole : Node codec) : Nat → Node codec →
    List (Level codec) → Prop
  | _, node, [] => node = whole
  | height, node, level :: rest => ∃ page born,
      Holds heap txn born (height + 1) page codec
        ((level.left ++ node :: level.right).map Node.cell) ∧
      (∀ kid ∈ level.siblings, TreeAt heap txn height kid) ∧
      OriginAt heap txn whole (height + 1)
        (join page (level.left ++ node :: level.right) (by simp)) rest

theorem OriginAt.inside {whole : Node codec} (origin : OriginAt heap txn whole height node path) :
    (∀ address ∈ node.pages, address ∈ whole.pages) ∧
      ∀ level ∈ path, ∀ kid ∈ level.siblings, ∀ address ∈ kid.pages, address ∈ whole.pages := by
  induction path generalizing height node with
  | nil =>
    obtain rfl : node = whole := origin
    exact ⟨fun _ member => member, by simp⟩
  | cons level rest ih =>
    obtain ⟨page, born, holds, siblings, above⟩ := origin
    obtain ⟨parent, upper⟩ := ih above
    have child : ∀ kid ∈ level.left ++ node :: level.right, ∀ address ∈ kid.pages,
        address ∈ whole.pages := fun kid member address inKid =>
      parent address (mem_cons_of_mem _ (mem_flatMap.mpr ⟨kid, member, inKid⟩))
    refine ⟨child node (by simp), ?_⟩
    intro other member kid sibling
    rcases mem_cons.mp member with rfl | inRest
    · refine child kid ?_
      rcases mem_append.mp sibling with inLeft | inRight
      · simp [inLeft]
      · simp [inRight]
    · exact upper other inRest kid sibling

theorem OriginAt.congr {whole : Node codec} (origin : OriginAt heap txn whole height node path)
    (same : ∀ address ∈ whole.pages, other address = heap address) :
    OriginAt other txn whole height node path := by
  induction path generalizing height node with
  | nil => exact origin
  | cons level rest ih =>
    obtain ⟨-, siblingPages⟩ := origin.inside
    obtain ⟨page, born, holds, siblings, above⟩ := origin
    refine ⟨page, born, ?_, ?_, ih above⟩
    · exact holds.congr (same page (above.inside.1 page (by simp [join, Node.pages])))
    · exact fun kid member => (siblings kid member).congr fun address inKid =>
        same address (siblingPages level (by simp) kid member address inKid)

theorem OriginAt.extend {page shown : Nat} {kid : Node codec} {left right : List (Node codec)}
    (origin : OriginAt heap txn kid height node path)
    (holds : Holds heap txn born (height + path.length + 1) page codec
      ((left ++ kid :: right).map Node.cell))
    (siblings : ∀ other ∈ left ++ right, TreeAt heap txn (height + path.length) other) :
    OriginAt heap txn (join page (left ++ kid :: right) (by simp)) height node
      (path ++ [{ page := shown, left, right }]) := by
  induction path generalizing height node with
  | nil =>
    obtain rfl : node = kid := origin
    exact ⟨page, born, holds, siblings, rfl⟩
  | cons level rest ih =>
    obtain ⟨here, earlier, held, beside, above⟩ := origin
    have height_ : height + (level :: rest).length = height + 1 + rest.length := by
      simp
      omega
    rw [height_] at holds siblings
    exact ⟨here, earlier, held, beside, ih above holds siblings⟩

variable (codec) in
def Lonely (heap : Heap) (address : Nat) : Prop :=
  ∃ born level cell, heap address = some (treePage codec born (level + 1) [cell])

theorem lonely_iff {heap : Heap} {level : Nat} {cells : List Bytes}
    (stored : heap address = some (treePage codec born level cells)) :
    Lonely codec heap address ↔ level ≠ 0 ∧ cells.length = 1 := by
  constructor
  · rintro ⟨other, below, cell, same⟩
    rw [stored, Option.some.injEq] at same
    have levels : level = below + 1 := congrArg Page.level same
    have records : cells = [cell] := congrArg Page.cells same
    exact ⟨by omega, by rw [records]; rfl⟩
  · rintro ⟨branch, single⟩
    obtain ⟨cell, rfl⟩ := length_eq_one_iff.mp single
    obtain ⟨below, rfl⟩ := Nat.exists_eq_succ_of_ne_zero branch
    exact ⟨born, below, cell, stored⟩

theorem Lonely.congr {heap other : Heap} (same : other address = heap address) :
    Lonely codec other address ↔ Lonely codec heap address := by
  rw [Lonely, Lonely, same]

theorem not_lonely_leaf {heap : Heap} {cells : List Bytes}
    (stored : heap address = some (treePage codec born 0 cells)) : ¬ Lonely codec heap address :=
  fun lonely => ((lonely_iff stored).mp lonely).1 rfl

/-- The root page above a hole holds a single record; a hole that is the root
page itself does when it is `alone`. -/
def Narrow (alone : Prop) : List (Level codec) → Prop
  | [] => alone
  | level :: rest => Narrow (level.siblings = []) rest

theorem Narrow.mono {alone other : Prop} {path : List (Level codec)} (narrow : Narrow alone path)
    (weaker : alone → other) : Narrow other path := by
  cases path with
  | nil => exact weaker narrow
  | cons level rest => exact narrow

theorem ContextAt.narrow (context : ContextAt heap txn height hole fence path)
    (lonely : Lonely codec heap (rootOf hole path)) : Narrow (Lonely codec heap hole) path := by
  induction path generalizing height hole fence with
  | nil => exact lonely
  | cons level rest ih =>
    obtain ⟨known, holds, siblings, above⟩ := context
    refine (ih above lonely).mono fun alone => ?_
    have single := ((lonely_iff holds.stored).mp alone).2
    simp only [Level.cells, length_append, length_map, length_cons] at single
    refine append_eq_nil_iff.mpr ⟨?_, ?_⟩
    · exact length_eq_zero_iff.mp (by omega)
    · exact length_eq_zero_iff.mp (by omega)

end Context

def RootAt (heap : Heap) (txn root : Nat) (entries : List (Entry codec)) (pages : List Nat) : Prop :=
  (root = 0 ∧ entries = [] ∧ pages = []) ∨
    ∃ height, ∃ node : Node codec, height ≤ maxTreeLevel ∧ TreeAt heap txn height node ∧
      node.page = root ∧ node.entries = entries ∧ node.pages = pages

theorem RootAt.later {later root : Nat} {pages : List Nat}
    (tree : RootAt heap txn root entries pages) (order : txn ≤ later) :
    RootAt heap later root entries pages := by
  rcases tree with empty | ⟨height, node, bound, whole, rest⟩
  · exact Or.inl empty
  · exact Or.inr ⟨height, node, bound, whole.later order, rest⟩

theorem RootAt.congr {other : Heap} {root : Nat} {pages : List Nat}
    (tree : RootAt heap txn root entries pages)
    (same : ∀ address ∈ pages, other address = heap address) :
    RootAt other txn root entries pages := by
  rcases tree with empty | ⟨height, node, bound, whole, page, entries_, rfl⟩
  · exact Or.inl empty
  · exact Or.inr ⟨height, node, bound, whole.congr same, page, entries_, rfl⟩

end IpRange.FixedTree
