import IpRange.FixedTreeCursorCore
import IpRange.FixedTreeOperations

/-!
What a cursor over a well-formed tree stands for: the leaves it has not passed
yet, in the order of its direction. Stepping takes the first of them; seeking a
key leaves those on the far side of it.
-/

namespace IpRange.FixedTree

open List SlottedPage

variable {Key Leaf σ α : Type} {codec : Codec Key Leaf}

def Direction.arrange (direction : Direction) (items : List α) : List α :=
  match direction with
  | .forward => items
  | .backward => items.reverse

@[simp] theorem Direction.arrange_eq_nil (direction : Direction) (items : List α) :
    direction.arrange items = [] ↔ items = [] := by
  cases direction <;> simp [Direction.arrange]

def Level.nodes (level : Level codec) (node : Node codec) : List (Node codec) :=
  level.left ++ node :: level.right

theorem Level.nodes_ne_nil (level : Level codec) (node : Node codec) : level.nodes node ≠ [] := by
  simp [Level.nodes]

def Level.ahead (level : Level codec) : Direction → List (Node codec)
  | .forward => level.right
  | .backward => level.left

def entriesAhead (direction : Direction) (path : List (Level codec)) : List (Entry codec) :=
  match direction with
  | .forward => entriesAfter path
  | .backward => (entriesBefore path).reverse

/-- The branches above a subtree. Only the siblings ahead need to be whole: a consuming
traversal has given up the others. -/
def TrailAt (direction : Direction) (heap : Heap) (txn : Nat) :
    Nat → Node codec → List (Level codec) → Prop
  | _, _, [] => True
  | height, node, level :: rest =>
    (∃ born, Holds heap txn born (height + 1) level.page codec
      ((level.nodes node).map Node.cell)) ∧
    Readable codec (height + 1) ((level.nodes node).map Node.cell) ∧
    (∀ kid ∈ level.ahead direction, TreeAt heap txn height kid) ∧
    TrailAt direction heap txn (height + 1)
      (join level.page (level.nodes node) (level.nodes_ne_nil node)) rest

def cursorFrames : Nat → List (Level codec) → List CursorFrame
  | _, [] => []
  | height, level :: rest =>
    { pageNumber := level.page
      index := level.left.length
      itemCount := level.left.length + 1 + level.right.length
      level := height + 1 } :: cursorFrames (height + 1) rest

@[simp] theorem cursorFrames_length (height : Nat) (path : List (Level codec)) :
    (cursorFrames height path).length = path.length := by
  induction path generalizing height with
  | nil => rfl
  | cons level rest ih => simp [cursorFrames, ih]

section

variable (direction : Direction)

theorem entriesAhead_cons (level : Level codec) (rest : List (Level codec)) :
    entriesAhead direction (level :: rest) =
      direction.arrange ((level.ahead direction).flatMap Node.entries) ++
        entriesAhead direction rest := by
  cases direction with
  | forward => rfl
  | backward => simp [entriesAhead, entriesBefore, Direction.arrange, Level.ahead]

@[simp] theorem entriesAhead_nil : entriesAhead direction ([] : List (Level codec)) = [] := by
  cases direction <;> rfl

theorem edge_cut (page : Nat) (kids : List (Node codec)) (some_ : kids ≠ []) :
    ∃ left kid right, kids = left ++ kid :: right ∧
      direction.edge kids.length = left.length ∧
      direction.arrange (kids.flatMap Node.entries) =
        direction.arrange kid.entries ++
          direction.arrange ((({ page, left, right } : Level codec).ahead direction).flatMap
            Node.entries) := by
  cases direction with
  | forward =>
    obtain ⟨kid, right, rfl⟩ := exists_cons_of_ne_nil some_
    exact ⟨[], kid, right, rfl, rfl, by simp [Direction.arrange, Level.ahead]⟩
  | backward =>
    obtain ⟨left, kid, rfl⟩ := (eq_nil_or_concat kids).resolve_left some_
    rw [concat_eq_append]
    exact ⟨left, kid, [], rfl, by simp [Direction.edge], by simp [Direction.arrange, Level.ahead]⟩

theorem step_none (level : Level codec) (passed : level.ahead direction = []) :
    direction.step level.left.length (level.left.length + 1 + level.right.length) = none := by
  cases direction with
  | forward =>
    have empty : level.right = [] := passed
    simp [Direction.step, empty]
  | backward =>
    have empty : level.left = [] := passed
    simp [Direction.step, empty]

theorem step_some (level : Level codec) (node : Node codec) (more : level.ahead direction ≠ []) :
    ∃ left kid right, level.nodes node = left ++ kid :: right ∧ kid ∈ level.ahead direction ∧
      direction.step level.left.length (level.left.length + 1 + level.right.length) =
        some left.length ∧
      (∀ sibling ∈ ({ level with left, right } : Level codec).ahead direction,
        sibling ∈ level.ahead direction) ∧
      direction.arrange ((level.ahead direction).flatMap Node.entries) =
        direction.arrange kid.entries ++
          direction.arrange ((({ level with left, right } : Level codec).ahead direction).flatMap
            Node.entries) := by
  obtain ⟨page, left, right⟩ := level
  cases direction with
  | forward =>
    obtain ⟨kid, others, shape⟩ := exists_cons_of_ne_nil more
    obtain rfl : right = kid :: others := shape
    refine ⟨left ++ [node], kid, others, by simp [Level.nodes], by simp [Level.ahead], ?_, ?_, ?_⟩
    · simp [Direction.step]
    · intro sibling member
      exact mem_cons_of_mem _ member
    · simp [Level.ahead, Direction.arrange]
  | backward =>
    obtain ⟨others, kid, shape⟩ := (eq_nil_or_concat left).resolve_left more
    obtain rfl : left = others ++ [kid] := by rw [shape, concat_eq_append]
    refine ⟨others, kid, node :: right, by simp [Level.nodes], by simp [Level.ahead], ?_, ?_, ?_⟩
    · simp [Direction.step]
    · intro sibling member
      exact mem_append_left _ member
    · simp [Level.ahead, Direction.arrange]

def entriesFrom (entries : List (Entry codec)) (index : Nat)
    (path : List (Level codec)) : List (Entry codec) :=
  match direction with
  | .forward => entries.drop index ++ entriesAfter path
  | .backward => (entries.take (index + 1)).reverse ++ (entriesBefore path).reverse

theorem entriesFrom_edge (leaf : Node codec) (path : List (Level codec)) :
    entriesFrom direction leaf.entries (direction.edge leaf.entries.length) path =
      direction.arrange leaf.entries ++ entriesAhead direction path := by
  have count := length_pos_iff.mpr leaf.inhabited
  cases direction with
  | forward => rfl
  | backward =>
    have whole : leaf.entries.length - 1 + 1 = leaf.entries.length := by omega
    simp [entriesFrom, Direction.edge, Direction.arrange, entriesAhead, whole]

theorem entriesFrom_step (entries : List (Entry codec)) (index : Nat)
    (path : List (Level codec)) (inside : index < entries.length) :
    entriesFrom direction entries index path = entries[index] ::
      match direction.step index entries.length with
      | some next => entriesFrom direction entries next path
      | none => entriesAhead direction path := by
  cases direction with
  | forward =>
    simp only [entriesFrom, Direction.step]
    by_cases more : index + 1 < entries.length
    · simp only [more, if_true]
      rw [drop_eq_getElem_cons inside, cons_append]
    · simp only [more, if_false]
      rw [drop_eq_getElem_cons inside, drop_eq_nil_of_le (by omega)]
      rfl
  | backward =>
    simp only [entriesFrom, Direction.step]
    have taken : entries.take (index + 1) = entries.take index ++ [entries[index]] :=
      by
      rw [take_add_one, getElem?_eq_getElem inside, Option.toList_some]
    by_cases more : 0 < index
    · have back : index - 1 + 1 = index := by omega
      rw [taken, if_pos more]
      simp only [back, reverse_append, reverse_singleton, nil_append,
        cons_append]
    · have first : index = 0 := by omega
      subst first
      rw [taken]
      simp [entriesAhead]

theorem step_inside {index count next : Nat} (inside : index < count)
    (stepped : direction.step index count = some next) : next < count := by
  cases direction with
  | forward =>
    simp only [Direction.step] at stepped
    split at stepped
    · cases stepped
      assumption
    · cases stepped
  | backward =>
    simp only [Direction.step] at stepped
    split at stepped
    · cases stepped
      omega
    · cases stepped

end

def orderedSeek : Direction → Page → Header → Nat → Bool → Direction → Except Error SeekPosition
  | .forward => seekCurrentOrNext
  | .backward => seekPrevious

def Direction.fromKey [LinearOrder Key] {codec : Codec Key Leaf} (direction : Direction) (key : Key)
    (entries : List (Entry codec)) : List (Entry codec) :=
  match direction with
  | .forward => entries.filter fun entry => decide (key ≤ entry.key)
  | .backward => (entries.filter fun entry => decide (entry.key ≤ key)).reverse

section Policies

variable [LinearOrder Key] {codec : Codec Key Leaf}

/-- What a seek puts ahead of a cursor in a list that is cut at the key: backward the entries up
to the key, forward those past it, and before them the last one up to the key if it `stays`. -/
def Direction.fromCut (stays : Entry codec → Bool) (upTo past : List (Entry codec)) :
    Direction → List (Entry codec)
  | .forward => (upTo.getLast?.filter stays).toList ++ past
  | .backward => upTo.reverse

def Direction.aimed (direction : Direction) (stays : Entry codec → Bool) (key : Key)
    (entries : List (Entry codec)) : List (Entry codec) :=
  direction.fromCut stays (entries.filter fun entry => decide (entry.key ≤ key))
    (entries.filter fun entry => decide (key < entry.key))

/-- Where a seek leaves the cursor on a leaf that is cut at the key. -/
def selects (stays : Entry codec → Bool) (upTo past : List (Entry codec)) : Direction → SeekPosition
  | .backward => if upTo = [] then .finished else .index (upTo.length - 1)
  | .forward =>
    match upTo.getLast? with
    | none => .index 0
    | some entry =>
      if stays entry then .index (upTo.length - 1)
      else if past = [] then .nextLeaf
      else .index upTo.length

/-- A policy that goes by what a leaf holds up to the key, and by whether the last of it stays. -/
def Aims (key : Key) (direction : Direction)
    (policy : Page → Header → Nat → Bool → Direction → Except Error SeekPosition)
    (stays : Entry codec → Bool) : Prop :=
  ∀ born upTo past exact_, upTo ++ past ≠ [] →
    exact_ = decide (upTo.getLast?.map Entry.key = some key) →
    policy (treePage codec born 0 ((upTo ++ past).map Entry.cell))
      (filledHeader 0 ((upTo ++ past).map Entry.cell))
      (if exact_ then upTo.length - 1 else upTo.length) exact_ direction =
      .ok (selects stays upTo past direction)

theorem orderedSeek_aims (key : Key) (direction : Direction) :
    Aims key direction (orderedSeek direction)
      fun entry : Entry codec => decide (entry.key = key) := by
  intro born upTo past exact_ some_ isExact
  rcases eq_nil_or_concat upTo with rfl | ⟨others, entry, rfl⟩
  · have none_ : exact_ = false := by simpa using isExact
    have more : past ≠ [] := some_
    cases direction with
    | forward => simp [orderedSeek, seekCurrentOrNext, selects, none_, length_pos_iff.mpr more]
    | backward => simp [orderedSeek, seekPrevious, selects, none_]
  · rw [concat_eq_append] at *
    have here : exact_ = decide (entry.key = key) := by simpa using isExact
    cases direction with
    | forward =>
      by_cases same : entry.key = key
      · simp [orderedSeek, seekCurrentOrNext, selects, here, same]
      · by_cases more : past = []
        · simp [orderedSeek, seekCurrentOrNext, selects, here, same, more]
        · have count := length_pos_iff.mpr more
          simp [orderedSeek, seekCurrentOrNext, selects, here, same, more, count]
    | backward =>
      by_cases same : entry.key = key <;> simp [orderedSeek, seekPrevious, selects, here, same]

theorem aimed_cut (direction : Direction) (stays : Entry codec → Bool) {key : Key}
    {upTo past : List (Entry codec)} (low : ∀ entry ∈ upTo, entry.key ≤ key)
    (high : ∀ entry ∈ past, key < entry.key) :
    direction.aimed stays key (upTo ++ past) = direction.fromCut stays upTo past := by
  have lower : (upTo ++ past).filter (fun entry => decide (entry.key ≤ key)) = upTo := by
    rw [filter_append, filter_eq_self.mpr (by simpa using low),
      filter_eq_nil_iff.mpr (by simpa using high), append_nil]
  have upper : (upTo ++ past).filter (fun entry => decide (key < entry.key)) = past := by
    rw [filter_append, filter_eq_nil_iff.mpr (by simpa using low),
      filter_eq_self.mpr (by simpa using high), nil_append]
  rw [Direction.aimed, lower, upper]

variable {entries : List (Entry codec)}

theorem exists_upTo (key : Key) (sorted : KeysSorted entries) :
    ∃ upTo past, entries = upTo ++ past ∧ (∀ entry ∈ upTo, entry.key ≤ key) ∧
      ∀ entry ∈ past, key < entry.key := by
  cases found : (entries.filter fun entry => decide (entry.key ≤ key)).getLast? with
  | none => exact ⟨[], entries, rfl, by simp, none_upTo found⟩
  | some last =>
    obtain ⟨before, after, rfl, low, high⟩ := last_upTo sorted found
    refine ⟨before ++ [last], after, by simp, ?_, high⟩
    have earlier := (pairwise_append.mp sorted).2.2
    intro entry member
    rcases mem_append.mp member with inBefore | isLast
    · exact ((earlier entry inBefore last (by simp)).trans_le low).le
    · exact mem_singleton.mp isLast ▸ low

theorem aimed_exact (key : Key) (direction : Direction) (sorted : KeysSorted entries) :
    direction.aimed (fun entry => decide (entry.key = key)) key entries =
      direction.fromKey key entries := by
  cases direction with
  | backward => rfl
  | forward =>
    obtain ⟨upTo, past, rfl, low, high⟩ := exists_upTo key sorted
    have late : past.filter (fun entry => decide (key ≤ entry.key)) = past :=
      filter_eq_self.mpr fun entry member => by simpa using (high entry member).le
    rw [aimed_cut _ _ low high, Direction.fromCut, Direction.fromKey, filter_append, late]
    rcases eq_nil_or_concat upTo with rfl | ⟨others, last, rfl⟩
    · rfl
    · rw [concat_eq_append] at *
      have earlier : ∀ entry ∈ others, entry.key < last.key := fun entry member =>
        (pairwise_append.mp (pairwise_append.mp sorted).1).2.2 entry member last (by simp)
      have upToKey := low last (by simp)
      have dropped : others.filter (fun entry => decide (key ≤ entry.key)) = [] :=
        filter_eq_nil_iff.mpr fun entry member => by
          simpa using (earlier entry member).trans_le upToKey
      rw [filter_append, dropped, nil_append, getLast?_concat]
      by_cases same : last.key = key
      · simp [Option.filter, same]
      · simp [Option.filter, same, not_le.mpr (lt_of_le_of_ne upToKey same)]

end Policies

section Reading

variable [PageSource σ] {heap : Heap} {txn : Nat} {state : σ}

variable {fail : Error → σ → Prop} {height : Nat} {left right : List (Node codec)}
  {direction : Direction} {cursor : Cursor} {path : List (Level codec)} {items : List (Entry codec)}

theorem ensures_readPage {address : Nat} {page : Page} {inspect : Page → Except Error α} {value : α}
    {post : α → σ → Prop} (views : Views state txn heap) (held : heap address = some page)
    (result : inspect page = .ok value) (done : post value state) :
    Ensures (readPage address inspect) state post fail := by
  simp only [readPage, ensures_bind, ensures_get, views.found held, ensures_liftResult_ok, result]
  exact done

structure OpenOn (state : σ) (txn root : Nat) (direction : Direction) (cursor : Cursor) : Prop where
  selected : cursor.selectedTxn = txn
  limit : cursor.pageLimit = PageSource.selectedPageLimit state
  direction_ : cursor.direction = direction
  root_ : cursor.root = root

variable {root : Nat}

theorem OpenOn.accepted (open_ : OpenOn state txn root direction cursor)
    (views : Views state txn heap) : cursor.requireAccess Access.shared state = .ok () := by
  simp [Cursor.requireAccess, Access.shared, views.selected, open_.selected, open_.limit]

structure Standing (state : σ) (txn : Nat) (heap : Heap) (direction : Direction) (cursor : Cursor)
    (leaf : Node codec) (path : List (Level codec)) : Prop where
  selected : cursor.selectedTxn = txn
  limit : cursor.pageLimit = PageSource.selectedPageLimit state
  direction_ : cursor.direction = direction
  frames : cursor.path = cursorFrames 0 path
  leaf_ : cursor.leaf = some (leaf.page, filledHeader 0 (leaf.entries.map Entry.cell))
  ready : cursor.finished = false
  tree : TreeAt heap txn 0 leaf
  trail : TrailAt direction heap txn 0 leaf path
  depth : path.length ≤ maxTreeLevel

structure Entering (state : σ) (txn : Nat) (heap : Heap) (direction : Direction) (cursor : Cursor)
    (height : Nat) (node : Node codec) (path : List (Level codec)) : Prop where
  selected : cursor.selectedTxn = txn
  limit : cursor.pageLimit = PageSource.selectedPageLimit state
  direction_ : cursor.direction = direction
  frames : cursor.path = cursorFrames height path
  tree : TreeAt heap txn height node
  trail : TrailAt direction heap txn height node path
  depth : height + path.length ≤ maxTreeLevel

theorem Entering.child {page : Nat} {kid : Node codec} {some_ : left ++ kid :: right ≠ []}
    (entering : Entering state txn heap direction cursor (height + 1)
      (join page (left ++ kid :: right) some_) path)
    (holds : ∃ born, Holds heap txn born (height + 1) page codec
      ((left ++ kid :: right).map Node.cell))
    (readable : Readable codec (height + 1) ((left ++ kid :: right).map Node.cell))
    (trees : ∀ child ∈ left ++ kid :: right, TreeAt heap txn height child) :
    Entering state txn heap direction
      { cursor with path := { pageNumber := page, index := left.length, itemCount :=
        (left ++ kid :: right).length, level := height + 1 } :: cursor.path } height kid
      ({ page, left, right } :: path) := by
  obtain ⟨selected, limit, direction_, frames, tree, trail, depth⟩ := entering
  refine ⟨selected, limit, direction_, ?_, trees kid (by simp), ⟨holds, readable, ?_, trail⟩, ?_⟩
  · simp only [cursorFrames, frames, length_append, length_cons, List.cons.injEq,
      CursorFrame.mk.injEq, true_and, and_true]
    omega
  · intro sibling member
    refine trees sibling ?_
    cases direction with
    | forward => exact mem_append_right _ (mem_cons_of_mem _ member)
    | backward => exact mem_append_left _ member
  · rw [length_cons]
    omega

def Remains (state : σ) (txn : Nat) (heap : Heap) (cursor : Cursor) (items : List (Entry codec)) :
    Prop :=
  cursor.selectedTxn = txn ∧ cursor.pageLimit = PageSource.selectedPageLimit state ∧
    (cursor.finished = true ∧ items = [] ∨
      ∃ leaf path, Standing state txn heap cursor.direction cursor leaf path ∧
        cursor.index < leaf.entries.length ∧
        if cursor.needsAdvance then
          ∃ passed, entriesFrom cursor.direction leaf.entries cursor.index path = passed :: items
        else entriesFrom cursor.direction leaf.entries cursor.index path = items)

theorem Remains.elsewhere {other : σ} (remains : Remains state txn heap cursor items)
    (same : PageSource.selectedPageLimit other = PageSource.selectedPageLimit state) :
    Remains other txn heap cursor items := by
  obtain ⟨selected, limit, rest⟩ := remains
  refine ⟨selected, limit.trans same.symm, rest.imp_right ?_⟩
  rintro ⟨leaf, path, standing, inside, items_⟩
  exact ⟨leaf, path, { standing with limit := standing.limit.trans same.symm }, inside, items_⟩

theorem edge_inside (direction : Direction) (leaf : Node codec) :
    direction.edge leaf.entries.length < leaf.entries.length := by
  have count := length_pos_iff.mpr leaf.inhabited
  cases direction with
  | forward => exact count
  | backward => exact Nat.sub_lt count (by omega)

theorem Standing.remains {leaf : Node codec}
    (standing : Standing state txn heap direction cursor leaf path)
    (index : cursor.index = direction.edge leaf.entries.length)
    (ready : cursor.needsAdvance = false) :
    Remains state txn heap cursor
      (direction.arrange leaf.entries ++ entriesAhead direction path) := by
  have direction_ := standing.direction_
  subst direction_
  refine ⟨standing.selected, standing.limit, Or.inr ⟨leaf, path, standing, ?_, ?_⟩⟩
  · rw [index]
    exact edge_inside _ leaf
  · rw [ready, index]
    exact entriesFrom_edge _ leaf path

structure Placed (state : σ) (txn root : Nat) (heap : Heap) (direction : Direction)
    (items : List (Entry codec)) (result : Cursor) (reached : σ) : Prop where
  same : reached = state
  open_ : OpenOn state txn root direction result
  ready : result.needsAdvance = false
  remains : Remains state txn heap result items

theorem descendEdge_spec (lawful : LawfulCodec codec) {node : Node codec} (room : Nat)
    (expectedLevel : Option Nat) (views : Views state txn heap)
    (entering : Entering state txn heap direction cursor height node path) (enough : height ≤ room)
    (expected : ∀ wanted ∈ expectedLevel, wanted = height) :
    Ensures (Cursor.descendEdge codec Access.shared room cursor node.page expectedLevel) state
      (Placed state txn cursor.root heap direction
        (direction.arrange node.entries ++ entriesAhead direction path)) fail := by
  induction height generalizing room cursor node path expectedLevel with
  | zero =>
    obtain ⟨selected, limit, direction_, frames, tree, trail, depth⟩ := entering
    obtain ⟨below, born, holds⟩ := id tree
    have parsed := holds.parsed expectedLevel (by omega) expected
    rw [Cursor.descendEdge, ensures_bind]
    refine ensures_readPage views holds.stored
      (show _ = Except.ok (filledHeader 0 (node.entries.map Entry.cell), none) from ?_) ?_
    · simp only [Cursor.edgeChild, selected, parsed, bind, Except.bind, Access.shared,
        Option.any_none, Bool.false_eq_true, if_false, filledHeader_level, if_true]
    · simp only [ensures_pure, filledHeader_itemCount, length_map]
      have standing : Standing state txn heap direction (cursor.setLeaf node.page
          (filledHeader 0 (node.entries.map Entry.cell))
          (cursor.direction.edge node.entries.length)) node path :=
        ⟨selected, limit, direction_, frames, rfl, rfl, tree, trail, by simpa using depth⟩
      exact ⟨rfl, ⟨selected, limit, direction_, rfl⟩, rfl,
        standing.remains (congrArg (·.edge node.entries.length) direction_) rfl⟩
  | succ height ih =>
    obtain ⟨kids, some_, shape, ⟨born, holds⟩, trees⟩ := entering.tree.branch
    generalize node.page = page at *
    subst shape
    obtain ⟨left, kid, right, rfl, edge, arranged⟩ := edge_cut direction page kids some_
    rw [← entering.direction_] at edge
    have readable := nodes_readable lawful views trees (height + 1) (by omega)
    have child := branchChild_at lawful born _ views (trees kid (by simp)) readable
      (show _[left.length]? = _ by simp) entering.limit
    have below := entering.child ⟨born, holds⟩ readable trees
    have parsed := holds.parsed expectedLevel (by have := entering.depth; omega) expected
    obtain ⟨room, rfl⟩ : ∃ fewer, room = fewer + 1 := ⟨room - 1, by omega⟩
    rw [Cursor.descendEdge, ensures_bind]
    refine ensures_readPage views holds.stored (show _ = Except.ok
      (filledHeader (height + 1) ((left ++ kid :: right).map Node.cell), some kid.page) from ?_) ?_
    · simp only [Cursor.edgeChild, entering.selected, parsed, bind, Except.bind, Access.shared,
        Option.any_none, Bool.false_eq_true, if_false, filledHeader_level, Nat.add_one_ne_zero,
        filledHeader_itemCount, length_map, edge, child]
    · simp only [filledHeader_itemCount, filledHeader_level, length_map, edge,
        Nat.add_sub_cancel]
      have order : direction.arrange (join page (left ++ kid :: right) some_).entries ++
          entriesAhead direction path = direction.arrange kid.entries ++
            entriesAhead direction (⟨page, left, right⟩ :: path) := by
        rw [entriesAhead_cons, ← append_assoc, ← arranged]
        rfl
      rw [order]
      exact ih room (some height) below (by omega) (by simp)

theorem advanceLeaf_spec (lawful : LawfulCodec codec) (cursor : Cursor) {node : Node codec}
    (views : Views state txn heap) (open_ : OpenOn state txn root direction cursor)
    (trail : TrailAt direction heap txn height node path)
    (depth : height + path.length ≤ maxTreeLevel) :
    Ensures (Cursor.advanceLeaf codec Access.shared cursor (cursorFrames height path)) state
      (Placed state txn root heap direction (entriesAhead direction path)) fail := by
  obtain ⟨selected, limit, rfl, rfl⟩ := open_
  induction path generalizing height node with
  | nil =>
    simp only [cursorFrames, Cursor.advanceLeaf, ensures_pure]
    exact ⟨rfl, ⟨selected, limit, rfl, rfl⟩, rfl, selected, limit, Or.inl ⟨rfl, by simp⟩⟩
  | cons level rest ih =>
    obtain ⟨⟨born, holds⟩, readable, ahead, above⟩ := trail
    rw [length_cons] at depth
    rw [cursorFrames, Cursor.advanceLeaf, entriesAhead_cons]
    by_cases passed : level.ahead cursor.direction = []
    · simp only [step_none cursor.direction level passed, Access.shared, ensures_bind,
        ensures_pure]
      rw [passed, flatMap_nil, (Direction.arrange_eq_nil _ _).mpr rfl, nil_append]
      exact ih (by omega) above
    · obtain ⟨left, kid, right, nodes, isAhead, index, fewer, arranged⟩ :=
        step_some cursor.direction level node passed
      have same : Level.nodes { level with left, right } kid = level.nodes node := nodes.symm
      rw [nodes] at holds readable
      have count : left.length + 1 + right.length =
          level.left.length + 1 + level.right.length := by
        have lengths := congrArg List.length nodes
        simp only [Level.nodes, length_append, length_cons] at lengths
        omega
      have parsed := holds.parsed (some (height + 1)) (by omega) (by simp)
      have child := branchChild_at lawful born _ views (ahead kid isAhead) readable
        (show _[left.length]? = _ by simp) limit
      have whole : (filledHeader (height + 1)
          ((left ++ kid :: right).map Node.cell)).itemCount =
          level.left.length + 1 + level.right.length := by
        simp only [filledHeader_itemCount, length_map, length_append, length_cons]
        omega
      simp only [index, ensures_bind]
      refine ensures_readPage views holds.stored (show _ = Except.ok kid.page from ?_) ?_
      · simp only [Cursor.siblingChild, selected, parsed, bind, Except.bind, whole, ne_eq,
          not_true_eq_false, if_false, child]
      · simp only [Nat.add_sub_cancel]
        have entering : Entering state txn heap cursor.direction
            { cursor with
              path := { pageNumber := level.page, index := left.length,
                        itemCount := level.left.length + 1 + level.right.length,
                        level := height + 1 } :: cursorFrames (height + 1) rest
              leaf := none } height kid ({ level with left, right } :: rest) := by
          refine ⟨selected, limit, rfl, by simp [cursorFrames, count], ahead kid isAhead,
            ⟨⟨born, holds⟩, readable, fun sibling member => ahead sibling (fewer sibling member),
              ?_⟩, by simpa using depth⟩
          simp only [same]
          exact above
        rw [arranged, append_assoc, ← entriesAhead_cons cursor.direction
          { level with left, right }]
        refine descendEdge_spec lawful _ (some height) views entering ?_ (by simp)
        simp only [Cursor.room, length_cons, cursorFrames_length]
        omega

theorem advance_spec (lawful : LawfulCodec codec) {leaf : Node codec} {passed : Entry codec}
    (views : Views state txn heap)
    (standing : Standing state txn heap cursor.direction cursor leaf path)
    (inside : cursor.index < leaf.entries.length)
    (current : entriesFrom cursor.direction leaf.entries cursor.index path = passed :: items) :
    Ensures (Cursor.advance codec Access.shared cursor) state
      (Placed state txn cursor.root heap cursor.direction items) fail := by
  obtain ⟨selected, limit, -, frames, leaf_, ready, tree, trail, depth⟩ := standing
  rw [entriesFrom_step cursor.direction leaf.entries cursor.index path inside] at current
  rw [Cursor.advance, leaf_]
  simp only [filledHeader_itemCount, length_map]
  cases stepped : cursor.direction.step cursor.index leaf.entries.length with
  | some next =>
    rw [stepped] at current
    rw [ensures_pure, ← (List.cons.inj current).2]
    exact ⟨rfl, ⟨selected, limit, rfl, rfl⟩, rfl, selected, limit, Or.inr ⟨leaf, path,
      ⟨selected, limit, rfl, frames, rfl, ready, tree, trail, depth⟩,
      step_inside cursor.direction inside stepped, rfl⟩⟩
  | none =>
    rw [stepped] at current
    rw [ensures_bind, ← (List.cons.inj current).2, frames]
    exact advanceLeaf_spec lawful cursor views ⟨selected, limit, rfl, rfl⟩ trail (by simpa using depth)

structure Hands (value : Entry codec → α) (state : σ) (txn root : Nat) (heap : Heap)
    (direction : Direction) (items left : List (Entry codec)) (result : Option α × Cursor)
    (reached : σ) : Prop where
  same : reached = state
  output : result.1 = items.head?.map value
  open_ : OpenOn state txn root direction result.2
  remains : Remains state txn heap result.2 left

variable {read : Page → Header → Nat → Nat → Except Error α} {value : Entry codec → α}

variable (reads : ∀ born (entries : List (Entry codec)) page index
  (inside : index < entries.length), read (treePage codec born 0 (entries.map Entry.cell))
    (filledHeader 0 (entries.map Entry.cell)) page index = .ok (value entries[index]))

section Next

variable {cursor : Cursor} {items : List (Entry codec)} {fail : Error → σ → Prop}

include reads

section

variable (views : Views state txn heap) (remains : Remains state txn heap cursor items)
  (ready : cursor.needsAdvance = false)

include views remains ready

theorem readCurrent_spec :
    Ensures (cursor.readCurrent read) state
      (fun result reached => reached = state ∧ result = items.head?.map value) fail := by
  obtain ⟨selected, limit, ⟨ended, none_⟩ | ⟨leaf, path, standing, inside, current⟩⟩ := remains
  · simp only [Cursor.readCurrent, ended, if_true, ensures_pure, none_]
    exact ⟨trivial, rfl⟩
  · obtain ⟨below, born, holds⟩ := id standing.tree
    simp only [Cursor.readCurrent, standing.ready, Bool.false_eq_true, if_false, standing.leaf_,
      ensures_map]
    refine ensures_readPage views holds.stored (reads born leaf.entries leaf.page _ inside) ?_
    rw [ready, if_neg (by simp), entriesFrom_step _ _ _ _ inside] at current
    exact ⟨rfl, by rw [← current]; rfl⟩

theorem yieldCurrent_spec :
    Ensures (Cursor.yieldCurrent codec Access.shared read false cursor) state
      (Hands value state txn cursor.root heap cursor.direction items items.tail) fail := by
  rw [Cursor.yieldCurrent, ensures_bind]
  refine (readCurrent_spec reads views remains ready).imp ?_
  rintro result reached ⟨rfl, rfl⟩
  obtain ⟨selected, limit, rest⟩ := id remains
  cases items with
  | nil =>
    simp only [head?_nil, Option.map_none, ensures_pure, tail_nil]
    exact ⟨rfl, rfl, ⟨selected, limit, rfl, rfl⟩, remains⟩
  | cons item later =>
    simp only [head?_cons, Option.map_some, Bool.false_eq_true, if_false, ensures_pure,
      tail_cons]
    refine ⟨rfl, rfl, ⟨selected, limit, rfl, rfl⟩, selected, limit, Or.inr ?_⟩
    obtain ⟨_, none_⟩ | ⟨leaf, path, standing, inside, current⟩ := rest
    · cases none_
    · rw [ready, if_neg (by simp)] at current
      exact ⟨leaf, path, ⟨selected, limit, rfl, standing.frames, standing.leaf_, standing.ready,
        standing.tree, standing.trail, standing.depth⟩, inside, item, current⟩

end

theorem nextInner_spec (lawful : LawfulCodec codec) (views : Views state txn heap)
    (remains : Remains state txn heap cursor items) :
    Ensures (Cursor.nextInner codec Access.shared read false cursor) state
      (Hands value state txn cursor.root heap cursor.direction items items.tail) fail := by
  obtain ⟨selected, limit, rest⟩ := id remains
  have open_ : OpenOn state txn cursor.root cursor.direction cursor := ⟨selected, limit, rfl, rfl⟩
  rw [Cursor.nextInner]
  simp only [ensures_bind, ensures_get, open_.accepted views, ensures_liftResult_ok]
  obtain ⟨ended, none_⟩ | ⟨leaf, path, standing, inside, current⟩ := rest
  · rw [if_pos ended, ensures_pure, none_]
    exact ⟨rfl, rfl, open_, selected, limit, Or.inl ⟨ended, rfl⟩⟩
  · rw [if_neg (by simp [standing.ready])]
    by_cases pending : cursor.needsAdvance = true
    · rw [if_pos pending] at current ⊢
      obtain ⟨passed, current⟩ := current
      refine Ensures.bind (advance_spec lawful views standing inside current) ?_
      rintro moved reached ⟨rfl, opened, ready, left⟩
      rw [← opened.direction_, ← opened.root_]
      exact yieldCurrent_spec reads views left ready
    · rw [if_neg pending]
      exact yieldCurrent_spec reads views remains (by simpa using pending)

end Next

theorem unpositioned_spec (direction : Direction) {entries : List (Entry codec)} {pages : List Nat}
    (views : Views state txn heap) (tree : RootAt heap txn root entries pages) :
    ∃ cursor, Cursor.unpositioned Access.shared state root direction = .ok cursor ∧
      OpenOn state txn root direction cursor ∧ cursor.path = [] ∧ cursor.needsAdvance = false ∧
      cursor.finished = decide (root = 0) := by
  have placed : ¬ (root ≠ 0 ∧ (root < 2 ∨ (Access.shared : Access σ).pageLimit state ≤ root)) := by
    rcases tree with ⟨zero, _, _⟩ | ⟨height, node, _, whole, rfl, _, _⟩
    · exact fun outside => outside.1 zero
    · obtain ⟨born, cells, holds⟩ := whole.stored
      have real := views.bounds holds.stored
      simp only [Access.shared]
      omega
  exact ⟨_, if_neg placed, ⟨views.selected, rfl, rfl, rfl⟩, rfl, rfl, rfl⟩

theorem openAt_spec (lawful : LawfulCodec codec) (direction : Direction)
    {entries : List (Entry codec)} {pages : List Nat} (views : Views state txn heap)
    (tree : RootAt heap txn root entries pages) :
    Ensures (Cursor.openAt codec Access.shared root direction) state
      (Placed state txn root heap direction (direction.arrange entries)) fail := by
  obtain ⟨cursor, opened, open_, placed, ready, finished⟩ := unpositioned_spec direction views tree
  obtain ⟨selected, limit, direction_, root_⟩ := id open_
  rw [Cursor.openAt]
  simp only [ensures_bind, ensures_get, opened, ensures_liftResult_ok, finished]
  rcases tree with ⟨rfl, rfl, _⟩ | ⟨height, node, bound, whole, rfl, rfl, _⟩
  · simp only [decide_true, if_true, ensures_pure] at finished ⊢
    exact ⟨rfl, open_, ready, selected, limit, Or.inl ⟨finished, by simp⟩⟩
  · obtain ⟨born, cells, holds⟩ := whole.stored
    have zero : node.page ≠ 0 := by
      have := (views.bounds holds.stored).1
      omega
    have entering : Entering state txn heap direction cursor height node [] :=
      ⟨selected, limit, direction_, placed, whole, trivial, by simpa using bound⟩
    simp only [zero, decide_false, Bool.false_eq_true, if_false]
    have descended : Ensures _ state _ fail := descendEdge_spec lawful cursor.room none views
      entering (by simpa [Cursor.room, placed] using bound) (by simp)
    rw [entriesAhead_nil, append_nil, root_] at descended
    exact descended

section Seek

variable [LinearOrder Key] (key : Key)

variable {height : Nat} {direction : Direction} {cursor : Cursor} {path : List (Level codec)}
  {entries : List (Entry codec)} {fail : Error → σ → Prop}

theorem seek_cut (lawful : LawfulCodec codec) (direction : Direction) {born page : Nat}
    {kids : List (Node codec)} (views : Views state txn heap)
    (holds : Holds heap txn born (height + 1) page codec (kids.map Node.cell))
    (trees : ∀ kid ∈ kids, TreeAt heap txn height kid)
    (sorted : KeysSorted (kids.flatMap Node.entries)) :
    ∃ position exact_, lowerBound codec (treePage codec born (height + 1) (kids.map Node.cell))
        (filledHeader (height + 1) (kids.map Node.cell)) key true = .ok (position, exact_) ∧
      ((∃ left kid right, kids = left ++ kid :: right ∧
          (∀ entry ∈ left.flatMap Node.entries, entry.key < key) ∧
          (∀ entry ∈ right.flatMap Node.entries, key < entry.key) ∧
          (kid.first.key ≤ key ∨ direction = .forward ∧ left = []) ∧
          Cursor.seekIndex direction position exact_ = some left.length) ∨
        direction = .backward ∧ (∀ entry ∈ kids.flatMap Node.entries, key < entry.key) ∧
          Cursor.seekIndex direction position exact_ = none) := by
  have some_ : kids ≠ [] := fun none => holds.storable.inhabited (by simp [none])
  obtain ⟨probe, probed, search⟩ := lowerBound_treePage born (height + 1) (kids.map Node.cell)
    lawful _ holds.storable (node_keys lawful views trees)
  have fences := fences_sorted sorted
  obtain ⟨smallerKeys, largerKeys, cut, below, above, run⟩ :=
    lowerBoundBy_insertion key (kids.map fun kid => kid.first.key) probe fences probed
  obtain ⟨smaller, larger, rfl, smallerEq, largerEq⟩ := map_eq_append_iff.mp cut
  refine ⟨_, _, (search key true).trans run, ?_⟩
  rw [← smallerEq, ← largerEq, head?_map, length_map]
  have notBelow : ∀ kid ∈ larger, key ≤ kid.first.key := fun kid member =>
    above _ (largerEq ▸ mem_map_of_mem member)
  have order : (larger.map fun kid => kid.first.key).Pairwise (· < ·) := by
    rw [map_append] at fences
    exact (pairwise_append.mp fences).2.1
  by_cases found : larger.head?.map (fun kid => kid.first.key) = some key
  · obtain ⟨kid, others, rfl⟩ : ∃ kid others, larger = kid :: others := by
      cases larger with
      | nil => simp at found
      | cons kid others => exact ⟨kid, others, rfl⟩
    have here : kid.first.key = key := by simpa using found
    rw [map_cons, pairwise_cons] at order
    obtain ⟨before, after⟩ := route_bounds key sorted (Or.inr here.le) fun sibling member =>
      here ▸ order.1 _ (mem_map_of_mem member)
    exact Or.inl ⟨smaller, kid, others, rfl, before, after, Or.inl here.le,
      by simp [Cursor.seekIndex, here]⟩
  · have strictly := above_of_head_ne (fun kid : Node codec => kid.first.key)
      (pairwise_map.mp order) notBelow found
    rw [decide_eq_false found]
    rcases eq_nil_or_concat smaller with rfl | ⟨init, kid, rfl⟩
    · cases larger with
      | nil => exact absurd rfl some_
      | cons kid others =>
        obtain ⟨before, after⟩ := route_bounds key
          (show KeysSorted (([] ++ kid :: others).flatMap Node.entries) from sorted) (Or.inl rfl)
          fun sibling member => strictly sibling (mem_cons_of_mem _ member)
        cases direction with
        | forward =>
          exact Or.inl ⟨[], kid, others, rfl, before, after, Or.inr ⟨rfl, rfl⟩,
            by simp [Cursor.seekIndex]⟩
        | backward =>
          refine Or.inr ⟨rfl, ?_, by simp [Cursor.seekIndex]⟩
          intro entry member
          obtain ⟨sibling, inKids, inSibling⟩ := mem_flatMap.mp member
          exact lt_of_lt_of_le (strictly sibling inKids)
            (node_first_le ((pairwise_flatMap.mp sorted).1 sibling inKids) entry inSibling)
    · rw [concat_eq_append] at *
      have low : kid.first.key < key := below _ (by simp [← smallerEq])
      rw [append_assoc, singleton_append] at sorted ⊢
      obtain ⟨before, after⟩ := route_bounds key sorted (Or.inr low.le) strictly
      exact Or.inl ⟨init, kid, larger, rfl, before, after, Or.inl low.le,
        by simp [Cursor.seekIndex]⟩

structure Seeking (state : σ) (txn : Nat) (heap : Heap) (direction : Direction) (cursor : Cursor)
    (height : Nat) (node : Node codec) (path : List (Level codec)) (entries : List (Entry codec)) :
    Prop where
  entering : Entering state txn heap direction cursor height node path
  sorted : KeysSorted entries
  whole : entries = entriesBefore path ++ node.entries ++ entriesAfter path
  before : ∀ entry ∈ entriesBefore path, entry.key < key
  after : ∀ entry ∈ entriesAfter path, key < entry.key
  reached : node.first.key ≤ key ∨ entriesBefore path = [] ∧ (direction = .backward → path = [])

theorem Seeking.inner {node : Node codec}
    (seeking : Seeking key state txn heap direction cursor height node path entries) :
    KeysSorted node.entries := by
  have sorted := seeking.sorted
  rw [seeking.whole] at sorted
  exact (pairwise_append.mp (pairwise_append.mp sorted).1).2.1

theorem Seeking.child {page : Nat} {left right : List (Node codec)} {kid : Node codec}
    {some_ : left ++ kid :: right ≠ []}
    (seeking : Seeking key state txn heap direction cursor (height + 1)
      (join page (left ++ kid :: right) some_) path entries)
    (holds : ∃ born, Holds heap txn born (height + 1) page codec
      ((left ++ kid :: right).map Node.cell))
    (readable : Readable codec (height + 1) ((left ++ kid :: right).map Node.cell))
    (trees : ∀ child ∈ left ++ kid :: right, TreeAt heap txn height child)
    (smaller : ∀ entry ∈ left.flatMap Node.entries, entry.key < key)
    (larger : ∀ entry ∈ right.flatMap Node.entries, key < entry.key)
    (reached : kid.first.key ≤ key ∨ direction = .forward ∧ left = []) :
    Seeking key state txn heap direction
      { cursor with path := { pageNumber := page, index := left.length, itemCount :=
        (left ++ kid :: right).length, level := height + 1 } :: cursor.path } height kid
      ({ page, left, right } :: path) entries := by
  refine ⟨seeking.entering.child holds readable trees, seeking.sorted, ?_, ?_, ?_,
    ?_⟩
  · rw [seeking.whole]
    simp [join, entriesBefore, entriesAfter]
  · intro entry member
    rcases mem_append.mp member with above | here
    · exact seeking.before entry above
    · exact smaller entry here
  · intro entry member
    rcases mem_append.mp member with here | above
    · exact larger entry here
    · exact seeking.after entry above
  · rcases reached with low | ⟨isForward, rfl⟩
    · exact Or.inl low
    -- the leftmost child begins where its parent does
    · rcases seeking.reached with low | ⟨nothing, _⟩
      · exact Or.inl (by simpa only [join_first, nil_append, head_cons] using low)
      · exact Or.inr ⟨by simp [entriesBefore, nothing], by simp [isForward]⟩

theorem Seeking.aimed {leaf : Node codec} {upTo past : List (Entry codec)}
    (seeking : Seeking key state txn heap direction cursor 0 leaf path entries)
    (stays : Entry codec → Bool) (cut : leaf.entries = upTo ++ past)
    (low : ∀ entry ∈ upTo, entry.key ≤ key) (high : ∀ entry ∈ past, key < entry.key) :
    direction.aimed stays key entries =
      direction.fromCut stays (entriesBefore path ++ upTo) (past ++ entriesAfter path) := by
  have split : entries = (entriesBefore path ++ upTo) ++ (past ++ entriesAfter path) := by
    rw [seeking.whole, cut]
    simp
  rw [split]
  refine aimed_cut direction stays ?_ ?_
  · intro entry member
    rcases mem_append.mp member with before | here
    · exact le_of_lt (seeking.before entry before)
    · exact low entry here
  · intro entry member
    rcases mem_append.mp member with here | after
    · exact high entry here
    · exact seeking.after entry after

theorem Seeking.remains {leaf : Node codec}
    (seeking : Seeking key state txn heap direction cursor 0 leaf path entries) (index : Nat)
    (inside : index < leaf.entries.length) :
    Remains state txn heap
      (cursor.setLeaf leaf.page (filledHeader 0 (leaf.entries.map Entry.cell)) index)
      (entriesFrom direction leaf.entries index path) := by
  obtain ⟨selected, limit, rfl, frames, tree, trail, depth⟩ := seeking.entering
  exact ⟨selected, limit, Or.inr ⟨leaf, path, ⟨selected, limit, rfl, frames, rfl, rfl, tree, trail,
    by simpa using depth⟩, inside, rfl⟩⟩

theorem lowerBound_upTo (lawful : LawfulCodec codec) (born : Nat) (entries : List (Entry codec))
    (storable : Storable (entries.map Entry.cell)) (sorted : KeysSorted entries) :
    ∃ upTo past, entries = upTo ++ past ∧ (∀ entry ∈ upTo, entry.key ≤ key) ∧
      (∀ entry ∈ past, key < entry.key) ∧
      lowerBound codec (treePage codec born 0 (entries.map Entry.cell))
          (filledHeader 0 (entries.map Entry.cell)) key true =
        .ok (if decide (upTo.getLast?.map Entry.key = some key) then upTo.length - 1 else upTo.length,
          decide (upTo.getLast?.map Entry.key = some key)) := by
  obtain ⟨smaller, larger, rfl, low, high, search⟩ :=
    lowerBound_leaf key lawful born entries storable sorted
  have order := (pairwise_append.mp sorted).2.1
  by_cases found : larger.head?.map Entry.key = some key
  · obtain ⟨here, rest, rfl⟩ : ∃ here rest, larger = here :: rest := by
      cases larger with
      | nil => simp at found
      | cons here rest => exact ⟨here, rest, rfl⟩
    have same : here.key = key := by simpa using found
    refine ⟨smaller ++ [here], rest, by simp, ?_, ?_, search.trans (by simp [same])⟩
    · intro entry member
      rcases mem_append.mp member with inSmaller | isHere
      · exact (low entry inSmaller).le
      · rw [mem_singleton.mp isHere, same]
    · exact fun entry member => same ▸ (pairwise_cons.mp order).1 entry member
  · have missed : smaller.getLast?.map Entry.key ≠ some key := by
      intro last
      obtain ⟨entry, isLast, same⟩ := Option.map_eq_some_iff.mp last
      exact (low entry (mem_of_getLast? isLast)).ne same
    refine ⟨smaller, larger, rfl, fun entry member => (low entry member).le,
      above_of_head_ne Entry.key order high found, search.trans (by simp [found, missed])⟩

section Leaves

variable {policy : Page → Header → Nat → Bool → Direction → Except Error SeekPosition}

variable {leaf : Node codec} {room born position index : Nat} {expectedLevel : Option Nat}
  {exact_ : Bool} {stays : Entry codec → Bool}

section Found

variable (views : Views state txn heap)
  (seeking : Seeking key state txn heap direction cursor 0 leaf path entries)
  (holds : Holds heap txn born 0 leaf.page codec (leaf.entries.map Entry.cell))
  (expected : ∀ wanted ∈ expectedLevel, wanted = 0)
  (search : lowerBound codec (treePage codec born 0 (leaf.entries.map Entry.cell))
    (filledHeader 0 (leaf.entries.map Entry.cell)) key true = .ok (position, exact_))
include views seeking holds expected search

theorem seekFrom_leaf {selected : SeekPosition} {output : Option α}
    {post : Option α × Cursor → σ → Prop}
    (chosen : policy (treePage codec born 0 (leaf.entries.map Entry.cell))
      (filledHeader 0 (leaf.entries.map Entry.cell)) position exact_ direction = .ok selected)
    (reads : Cursor.seekOutput read leaf.page (treePage codec born 0 (leaf.entries.map Entry.cell))
      (filledHeader 0 (leaf.entries.map Entry.cell)) selected = .ok output)
    (done : Ensures (Cursor.seekLeaf codec read Access.shared cursor leaf.page
      (filledHeader 0 (leaf.entries.map Entry.cell)) output selected) state post fail) :
    Ensures (Cursor.seekFrom codec policy read Access.shared key room cursor leaf.page
      expectedLevel) state post fail := by
  have parsed := holds.parsed expectedLevel (by omega) expected
  rw [Cursor.seekFrom, ensures_bind]
  refine ensures_readPage views holds.stored (show _ = Except.ok (.leaf
    (filledHeader 0 (leaf.entries.map Entry.cell)) selected output) from ?_) done
  simp only [Cursor.seekStep, seeking.entering.selected, parsed, search, bind, Except.bind,
    filledHeader_level, if_true, seeking.entering.direction_, chosen, reads]

include reads

theorem seekFrom_index (inside : index < leaf.entries.length)
    (chosen : policy (treePage codec born 0 (leaf.entries.map Entry.cell))
      (filledHeader 0 (leaf.entries.map Entry.cell)) position exact_ direction = .ok (.index index))
    (items : List (Entry codec))
    (ahead : entriesFrom direction leaf.entries index path = items) :
    Ensures (Cursor.seekFrom codec policy read Access.shared key room cursor leaf.page
      expectedLevel) state (Hands value state txn cursor.root heap direction items items) fail := by
  subst ahead
  have valid : ¬ (filledHeader 0 (leaf.entries.map Entry.cell)).itemCount ≤ index := by
    simpa using inside
  refine seekFrom_leaf key views seeking holds expected search chosen
    (show _ = Except.ok (some (value leaf.entries[index])) from ?_) ?_
  · simp only [Cursor.seekOutput, if_neg valid, reads born leaf.entries leaf.page index inside,
      Functor.map, Except.map]
  · simp only [Cursor.seekLeaf, ensures_pure]
    refine ⟨rfl, ?_, ⟨seeking.entering.selected, seeking.entering.limit,
      seeking.entering.direction_, rfl⟩, seeking.remains key index inside⟩
    rw [entriesFrom_step direction _ _ _ inside]
    rfl

end Found

include reads

theorem seekFrom_aimed (lawful : LawfulCodec codec) (views : Views state txn heap)
    (aims : Aims key direction policy stays)
    (seeking : Seeking key state txn heap direction cursor 0 leaf path entries)
    (expected : ∀ wanted ∈ expectedLevel, wanted = 0) :
    Ensures (Cursor.seekFrom codec policy read Access.shared key room cursor leaf.page
      expectedLevel) state (Hands value state txn cursor.root heap direction
        (direction.aimed stays key entries) (direction.aimed stays key entries)) fail := by
  obtain ⟨below, born, holds⟩ := id seeking.entering.tree
  obtain ⟨upTo, past, cut, low, high, search⟩ :=
    lowerBound_upTo key lawful born leaf.entries holds.storable (seeking.inner key)
  have chosen := aims born upTo past _ (cut ▸ leaf.inhabited) rfl
  rw [← cut] at chosen
  generalize decide (upTo.getLast?.map Entry.key = some key) = exact_ at search chosen
  generalize (if exact_ then upTo.length - 1 else upTo.length) = position at search chosen
  rw [seeking.aimed key stays cut low high]
  cases direction with
  | backward =>
    by_cases none_ : upTo = []
    · subst none_
      -- a smaller leaf on another page would have led the search there
      have atRoot : path = [] := by
        rcases seeking.reached with upToKey | ⟨_, atRoot⟩
        · have first := high leaf.first (by simpa [cut] using node_first_mem leaf)
          exact absurd first (not_lt.mpr upToKey)
        · exact atRoot rfl
      refine seekFrom_leaf key views seeking holds expected search chosen rfl ?_
      simp only [selects, if_true, Cursor.seekLeaf, ensures_pure, Direction.fromCut, atRoot,
        entriesBefore]
      exact ⟨rfl, rfl, ⟨seeking.entering.selected, seeking.entering.limit,
        seeking.entering.direction_, rfl⟩, seeking.entering.selected, seeking.entering.limit,
        Or.inl ⟨rfl, rfl⟩⟩
    · have count := length_pos_iff.mpr none_
      have whole : upTo.length - 1 + 1 = upTo.length := by omega
      rw [selects, if_neg none_] at chosen
      refine seekFrom_index reads key views seeking holds expected search ?_ chosen _ ?_
      · rw [cut, length_append]
        omega
      · simp [entriesFrom, Direction.fromCut, whole, cut]
  | forward =>
    rcases eq_nil_or_concat upTo with rfl | ⟨others, last, rfl⟩
    · have nothing : entriesBefore path = [] := by
        rcases seeking.reached with upToKey | ⟨nothing, _⟩
        · have first := high leaf.first (by simpa [cut] using node_first_mem leaf)
          exact absurd first (not_lt.mpr upToKey)
        · exact nothing
      refine seekFrom_index reads key views seeking holds expected search
        (length_pos_iff.mpr leaf.inhabited) chosen _ ?_
      simp [entriesFrom, Direction.fromCut, cut, nothing]
    · rw [concat_eq_append] at *
      rw [selects, getLast?_concat] at chosen
      by_cases stay : stays last
      · simp only [stay, if_true] at chosen
        refine seekFrom_index reads key views seeking holds expected search ?_ chosen _ ?_
        · simp [cut]
        · simp [entriesFrom, Direction.fromCut, cut, Option.filter, stay]
      · by_cases more : past = []
        · simp only [stay, more, if_true, Bool.false_eq_true, if_false] at chosen
          refine seekFrom_leaf key views seeking holds expected search chosen rfl ?_
          obtain ⟨selected, limit, direction_, frames, tree, trail, depth⟩ := seeking.entering
          simp only [Cursor.seekLeaf, ensures_bind]
          have placed : (cursor.setLeaf leaf.page (filledHeader 0 (leaf.entries.map Entry.cell))
              ((filledHeader 0 (leaf.entries.map Entry.cell)).itemCount - 1)).path =
              cursorFrames 0 path := frames
          have passed : Direction.forward.fromCut stays (entriesBefore path ++ (others ++ [last]))
              (past ++ entriesAfter path) = entriesAfter path := by
            simp [Direction.fromCut, Option.filter, stay, more]
          rw [placed, passed]
          refine (advanceLeaf_spec lawful (cursor.setLeaf _ _ _) views
            ⟨selected, limit, direction_, rfl⟩ trail depth).imp ?_
          rintro moved reached ⟨rfl, opened, ready, remains⟩
          refine (readCurrent_spec reads views remains ready).imp ?_
          rintro output final ⟨rfl, rfl⟩
          rw [ensures_pure]
          exact ⟨rfl, rfl, opened, remains⟩
        · have count := length_pos_iff.mpr more
          simp only [stay, more, Bool.false_eq_true, if_false] at chosen
          refine seekFrom_index reads key views seeking holds expected search ?_ chosen _ ?_
          · simpa [cut] using count
          · simp [entriesFrom, Direction.fromCut, cut, Option.filter, stay]

theorem seekFrom_spec (lawful : LawfulCodec codec) {node : Node codec} (room : Nat)
    (expectedLevel : Option Nat) (views : Views state txn heap)
    (aims : Aims key direction policy stays)
    (seeking : Seeking key state txn heap direction cursor height node path entries)
    (enough : height ≤ room) (expected : ∀ wanted ∈ expectedLevel, wanted = height) :
    Ensures (Cursor.seekFrom codec policy read Access.shared key room cursor node.page
      expectedLevel) state (Hands value state txn cursor.root heap direction
        (direction.aimed stays key entries) (direction.aimed stays key entries)) fail := by
  induction height generalizing room cursor node path expectedLevel with
  | zero => exact seekFrom_aimed reads key lawful views aims seeking expected
  | succ height ih =>
    obtain ⟨kids, some_, shape, ⟨born, holds⟩, trees⟩ := seeking.entering.tree.branch
    generalize node.page = page at *
    subst shape
    obtain ⟨selected, limit, direction_, -, -, -, depth⟩ := id seeking.entering
    have parsed := holds.parsed expectedLevel (by omega) expected
    have readable := nodes_readable lawful views trees (height + 1) (by omega)
    rw [Cursor.seekFrom, ensures_bind]
    obtain ⟨position, exact_, search, ⟨left, kid, right, rfl, smaller, larger, reached, index⟩ |
      ⟨isBackward, beyond, index⟩⟩ :=
      seek_cut key lawful direction views holds trees seeking.inner
    · obtain ⟨room, rfl⟩ : ∃ fewer, room = fewer + 1 := ⟨room - 1, by omega⟩
      have child := branchChild_at lawful born _ views (trees kid (by simp)) readable
        (show _[left.length]? = _ by simp) limit
      refine ensures_readPage views holds.stored (show _ = Except.ok (.branch
        (filledHeader (height + 1) ((left ++ kid :: right).map Node.cell)) left.length kid.page)
        from ?_) ?_
      · simp only [Cursor.seekStep, selected, parsed, search, bind, Except.bind,
          filledHeader_level, Nat.add_one_ne_zero, if_false, direction_, index, child]
      · have below := seeking.child key ⟨born, holds⟩ readable trees smaller larger reached
        simp only [filledHeader_itemCount, filledHeader_level, length_map,
          Nat.add_sub_cancel]
        exact ih room (some height) below (by omega) (by simp)
    · refine ensures_readPage views holds.stored (show _ = Except.ok .finished from ?_) ?_
      · simp only [Cursor.seekStep, selected, parsed, search, bind, Except.bind,
          filledHeader_level, Nat.add_one_ne_zero, if_false, direction_, index]
      · -- below the root a backward search has already met a smaller key
        have atRoot : path = [] := by
          rcases seeking.reached with low | ⟨_, atRoot⟩
          · exact absurd (beyond _ (node_first_mem (join page kids some_))) (not_lt.mpr low)
          · exact atRoot isBackward
        have nothing : direction.aimed stays key entries = [] := by
          rw [seeking.whole, atRoot, isBackward]
          simpa [Direction.aimed, Direction.fromCut, entriesBefore, entriesAfter, join] using beyond
        rw [ensures_pure, nothing]
        exact ⟨rfl, rfl, ⟨selected, limit, direction_, rfl⟩, selected, limit, Or.inl ⟨rfl, rfl⟩⟩

theorem seekReadInner_spec (lawful : LawfulCodec codec) {root : Nat} {pages : List Nat}
    (views : Views state txn heap) (aims : Aims key direction policy stays)
    (tree : RootAt heap txn root entries pages)
    (sorted : KeysSorted entries) (open_ : OpenOn state txn root direction cursor) :
    Ensures (Cursor.seekReadInner codec policy read Access.shared key cursor) state
      (Hands value state txn root heap direction (direction.aimed stays key entries)
        (direction.aimed stays key entries)) fail := by
  obtain ⟨selected, limit, direction_, rfl⟩ := id open_
  rw [Cursor.seekReadInner]
  simp only [ensures_bind, ensures_get, open_.accepted views, ensures_liftResult_ok]
  rcases tree with ⟨zero, rfl, _⟩ | ⟨height, node, bound, whole, page, rfl, _⟩
  · have nothing : direction.aimed stays key ([] : List (Entry codec)) = [] := by
      cases direction <;> rfl
    simp only [zero, decide_true, if_true, ensures_pure, nothing]
    exact ⟨rfl, rfl, ⟨selected, limit, direction_, rfl⟩, selected, limit, Or.inl ⟨rfl, rfl⟩⟩
  · obtain ⟨born, cells, holds⟩ := whole.stored
    have zero : cursor.root ≠ 0 := by
      have := (views.bounds holds.stored).1
      omega
    have seeking : Seeking key state txn heap direction
        { cursor with path := [], leaf := none, needsAdvance := false, finished := false } height
        node [] node.entries :=
      ⟨⟨selected, limit, direction_, rfl, whole, trivial, by simpa using bound⟩, sorted,
        by simp [entriesBefore, entriesAfter], by simp [entriesBefore], by simp [entriesAfter],
        Or.inr ⟨rfl, fun _ => rfl⟩⟩
    simp only [zero, decide_false, Bool.false_eq_true, if_false]
    have found : Ensures _ state _ fail := seekFrom_spec reads key lawful maxTreeLevel none views
      aims seeking bound (by simp)
    rw [page] at found
    exact found

end Leaves

end Seek

section Lookup

theorem readLeafItem_reads (born : Nat) (entries : List (Entry codec))
    (page index : Nat) (inside : index < entries.length) :
    readLeafItem codec (treePage codec born 0 (entries.map Entry.cell))
      (filledHeader 0 (entries.map Entry.cell)) page index = .ok entries[index].leaf := by
  have found := codecCell_treePage born 0 (entries.map Entry.cell) index (by simpa using inside)
    (entries_readable entries)
  rw [getElem_map] at found
  simp only [codecCell, filledHeader_level, if_true] at found
  simp only [readLeafItem, found, bind, Except.bind, Entry.leafRead]

variable [LinearOrder Key] (key : Key) {root : Nat} {entries : List (Entry codec)}
  {pages : List Nat} {fail : Error → σ → Prop} (lawful : LawfulCodec codec)
  (views : Views state txn heap) (tree : RootAt heap txn root entries pages)
  (sorted : KeysSorted entries)

include lawful views tree sorted

theorem lookup_spec (direction : Direction) :
    Ensures (lookup codec root direction (orderedSeek direction) (readLeafItem codec) key) state
      (fun result reached => reached = state ∧
        result = (direction.fromKey key entries).head?.map Entry.leaf) fail := by
  obtain ⟨cursor, opened, open_, _⟩ := unpositioned_spec direction views tree
  simp only [lookup, ensures_bind, ensures_get, opened, ensures_liftResult_ok]
  rw [← aimed_exact key direction sorted]
  refine (seekReadInner_spec readLeafItem_reads key lawful views (orderedSeek_aims key direction)
    tree sorted open_).imp ?_
  rintro ⟨output, moved⟩ reached ⟨same, found, _, _⟩
  exact ⟨same, found⟩

theorem predecessor_spec :
    Ensures (predecessor codec root key) state (fun result reached => reached = state ∧
      result = (entries.filter fun entry => decide (entry.key ≤ key)).getLast?.map Entry.leaf)
      fail := by
  rw [← head?_reverse]
  exact lookup_spec key lawful views tree sorted .backward

theorem atOrAfter_spec :
    Ensures (atOrAfter codec root key) state (fun result reached => reached = state ∧
      result = (entries.filter fun entry => decide (key ≤ entry.key)).head?.map Entry.leaf)
      fail :=
  lookup_spec key lawful views tree sorted .forward

end Lookup

end Reading

end IpRange.FixedTree
