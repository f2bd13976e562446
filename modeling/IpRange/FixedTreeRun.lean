import IpRange.FixedTreeDelete

/-!
The leaf next to a page on the path, and the removal of a run of leaves that
starts at a key and stays on one leaf page.
-/

namespace IpRange.FixedTree

open List SlottedPage

variable {Key Leaf σ τ : Type} [Store σ] {codec : Codec Key Leaf} (laws : StoreLaws σ)

def Entry.item (entry : Entry codec) : Key × Leaf := (entry.key, entry.leaf)

def nearest {α : Type} (direction : Adjacent) (items : List α) : Option α :=
  match direction with
  | .before => items.getLast?
  | .after => items.head?

def entriesBeside (direction : Adjacent) (path : List (Level codec)) : List (Entry codec) :=
  match direction with
  | .before => entriesBefore path
  | .after => entriesAfter path

theorem edge_index (direction : Adjacent) {α : Type} (items : List α) (some_ : items ≠ []) :
    ∃ bound : direction.edgeIndex items.length < items.length,
      nearest direction items = some items[direction.edgeIndex items.length] := by
  have count := length_pos_iff.mpr some_
  cases direction with
  | before =>
    refine ⟨by simp only [Adjacent.edgeIndex]; omega, ?_⟩
    rw [nearest, getLast?_eq_getElem?]
    exact getElem?_eq_getElem _
  | after =>
    refine ⟨count, ?_⟩
    rw [nearest, head?_eq_getElem?]
    exact getElem?_eq_getElem _

theorem nearest_flatMap (direction : Adjacent) (kids : List (Node codec)) (kid : Node codec)
    (near : nearest direction kids = some kid) :
    nearest direction (kids.flatMap Node.entries) = nearest direction kid.entries := by
  cases direction with
  | before =>
    obtain ⟨others, rfl⟩ := getLast?_eq_some_iff.mp near
    simp only [nearest, flatMap_append, flatMap_singleton]
    exact getLast?_append_of_ne_nil _ kid.inhabited
  | after =>
    obtain ⟨others, rfl⟩ := head?_eq_some_iff.mp near
    simp only [nearest, flatMap_cons]
    exact head?_append_of_ne_nil _ kid.inhabited

variable {post : Option (Key × Leaf) → σ → Prop} {fail : Error → σ → Prop}

theorem adjacentEdge_spec (lawful : LawfulCodec codec) (direction : Adjacent) {state : σ}
    {heap : Heap} {height : Nat} {node : Node codec} (owns : laws.Owns state heap)
    (tree : TreeAt heap laws.txn height node) (bound : height ≤ maxTreeLevel)
    (done : post ((nearest direction node.entries).map Entry.item) state) :
    Ensures (adjacentEdge codec direction laws.txn (Store.pageLimit state) height node.page) state
      post fail := by
  induction height generalizing node with
  | zero =>
    obtain ⟨below, born, holds⟩ := tree
    obtain ⟨inside, near⟩ := edge_index direction node.entries node.inhabited
    have parsed := holds.parsed (some 0) bound (by simp)
    have found := codecCell_treePage born 0 (node.entries.map Entry.cell)
      (direction.edgeIndex node.entries.length) (by simpa using inside)
      (entries_readable node.entries)
    rw [getElem_map] at found
    rw [adjacentEdge, ensures_bind]
    refine ensures_viewPage laws owns holds.stored
      (show _ = Except.ok (Sum.inl
        node.entries[direction.edgeIndex node.entries.length].item) from ?_) ?_
    · simp only [edgeStep, parsed, bind, Except.bind, filledHeader_itemCount, length_map,
        found, filledHeader_level, if_true, Entry.keyRead, Entry.leafRead, Entry.item]
    · rw [near] at done
      exact done
  | succ height ih =>
    obtain ⟨kids, some_, shape, ⟨born, holds⟩, trees⟩ := tree.branch
    obtain ⟨inside, near⟩ := edge_index direction kids some_
    have parsed := holds.parsed (some (height + 1)) bound (by simp)
    have readable := nodes_readable lawful (laws.views owns) trees (height + 1) (by omega)
    have found := codecCell_treePage born (height + 1) (kids.map Node.cell)
      (direction.edgeIndex kids.length) (by simpa using inside) readable
    have kidTree := trees kids[direction.edgeIndex kids.length] (getElem_mem inside)
    have child := branchChild_at lawful born (Store.pageLimit state) (laws.views owns) kidTree
      readable (show _[direction.edgeIndex kids.length]? = _ by simp [inside]) rfl
    rw [adjacentEdge, ensures_bind]
    refine ensures_viewPage laws owns holds.stored
      (show _ = Except.ok (Sum.inr kids[direction.edgeIndex kids.length].page) from ?_) ?_
    · simp only [edgeStep, parsed, bind, Except.bind, filledHeader_itemCount, length_map,
        found, filledHeader_level, Nat.add_one_ne_zero, if_false, child]
    · refine ih kidTree (by omega) ?_
      rw [shape] at done
      rw [← nearest_flatMap direction kids _ near]
      exact done

section

variable (direction : Adjacent) (level : Level codec)

def siblingsBeside : List (Node codec) :=
  match direction with
  | .before => level.left
  | .after => level.right

theorem sibling_none (rest : List (Level codec)) (none_ : siblingsBeside direction level = []) :
    direction.siblingIndex level.frame = none ∧
      entriesBeside direction (level :: rest) = entriesBeside direction rest := by
  cases direction with
  | before =>
    have empty : level.left = [] := none_
    simp [Adjacent.siblingIndex, Level.frame, entriesBeside, entriesBefore, empty]
  | after =>
    have empty : level.right = [] := none_
    simp [Adjacent.siblingIndex, Level.frame, entriesBeside, entriesAfter, empty]

theorem sibling_some (rest : List (Level codec))
    (fence : Key) (hole : Nat) (some_ : siblingsBeside direction level ≠ []) :
    ∃ index kid, ∃ bound : index < (level.cells fence hole).length,
      direction.siblingIndex level.frame = some index ∧ kid ∈ level.siblings ∧
      (level.cells fence hole)[index] = kid.cell ∧
      nearest direction (entriesBeside direction (level :: rest)) =
        nearest direction kid.entries := by
  cases direction with
  | before =>
    obtain ⟨others, kid, shape⟩ := eq_nil_or_concat level.left |>.resolve_left some_
    rw [concat_eq_append] at shape
    refine ⟨others.length, kid, by simp [Level.cells, shape], ?_, by simp [Level.siblings, shape],
      by simp [Level.cells, shape], ?_⟩
    · simp [Adjacent.siblingIndex, Level.frame, shape]
    · simp only [nearest, entriesBeside, entriesBefore, shape, flatMap_append,
        flatMap_singleton, ← append_assoc]
      exact getLast?_append_of_ne_nil _ kid.inhabited
  | after =>
    obtain ⟨kid, others, shape⟩ := exists_cons_of_ne_nil some_
    have shape : level.right = kid :: others := shape
    refine ⟨level.left.length + 1, kid, by simp [Level.cells, shape], ?_,
      by simp [Level.siblings, shape], by simp [Level.cells, shape], ?_⟩
    · simp [Adjacent.siblingIndex, Level.frame, shape]
    · simp only [nearest, entriesBeside, entriesAfter, shape, flatMap_cons,
        append_assoc]
      exact head?_append_of_ne_nil _ kid.inhabited

end

theorem adjacentLeaf_spec (lawful : LawfulCodec codec) (direction : Adjacent) {state : σ}
    {heap : Heap} {height hole : Nat} {fence : Key} {path : List (Level codec)}
    (owns : laws.Owns state heap) (word : hole < 2 ^ 32)
    (context : ContextAt heap laws.txn height hole fence path)
    (bound : height + path.length ≤ maxTreeLevel)
    (done : post ((nearest direction (entriesBeside direction path)).map Entry.item) state) :
    Ensures (adjacentLeaf codec direction (path.map Level.frame)) state post fail := by
  induction path generalizing height hole fence with
  | nil =>
    cases direction <;> exact done
  | cons level rest ih =>
    obtain ⟨known, holds, siblings, above⟩ := context
    rw [length_cons] at bound
    rw [map_cons, adjacentLeaf]
    by_cases alone : siblingsBeside direction level = []
    · obtain ⟨noSibling, same⟩ := sibling_none direction level rest alone
      rw [same] at done
      simp only [noSibling]
      exact ih (laws.word owns holds.stored) above (by omega) done
    · obtain ⟨index, kid, inside, found, member, here, near⟩ :=
        sibling_some direction level rest fence hole alone
      have readable := level_readable lawful (laws.views owns) known word siblings
      have kidTree := siblings kid member
      have parsed := holds.parsed none (by omega) (by simp)
      have child := branchChild_at lawful laws.txn (Store.pageLimit state) (laws.views owns) kidTree
        readable (List.getElem?_eq_some_iff.mpr ⟨inside, here⟩) rfl
      have count : (filledHeader (height + 1) (level.cells fence hole)).itemCount =
          level.frame.itemCount := by
        simp [Level.cells, Level.frame]
        omega
      have guard : (decide ((filledHeader (height + 1) (level.cells fence hole)).itemCount ≠
            level.frame.itemCount) ||
          decide ((filledHeader (height + 1) (level.cells fence hole)).level = 0)) = false := by
        rw [count]
        simp
      simp only [found, ensures_bind, ensures_get, laws.target owns]
      refine ensures_viewPage laws owns holds.stored
        (show _ = Except.ok (kid.page, height) from ?_) ?_
      · simp only [parsed, bind, Except.bind, guard, Bool.false_eq_true, if_false]
        simp only [child, filledHeader_level, Nat.add_sub_cancel]
      · rw [near] at done
        exact adjacentEdge_spec laws lawful direction owns kidTree (by omega) done

section Run

variable (step : Leaf → τ → Except Error (Bool × τ))

def scan (step : Leaf → τ → Except Error (Bool × τ)) : List Leaf → τ → Except Error (Nat × τ)
  | [], memory => .ok (0, memory)
  | leaf :: rest, memory => do
    let (included, memory) ← step leaf memory
    if included then do
      let (count, memory) ← scan step rest memory
      .ok (count + 1, memory)
    else .ok (0, memory)

theorem scan_le (leaves : List Leaf) (memory : τ) (count : Nat) (last : τ)
    (run : scan step leaves memory = .ok (count, last)) : count ≤ leaves.length := by
  induction leaves generalizing memory count with
  | nil =>
    cases run
    simp
  | cons leaf rest ih =>
    simp only [scan, bind, Except.bind] at run
    split at run
    · cases run
    · rename_i outcome decided
      obtain ⟨included, next⟩ := outcome
      cases included with
      | false =>
        simp only [Bool.false_eq_true, if_false] at run
        cases run
        simp
      | true =>
        simp only [if_true] at run
        split at run
        · cases run
        · rename_i more found
          cases run
          exact Nat.succ_le_succ (ih _ _ found)

theorem scanRun_treePage (born : Nat) (before entries : List (Entry codec)) (memory : τ) :
    scanRun codec step (treePage codec born 0 ((before ++ entries).map Entry.cell))
        (filledHeader 0 ((before ++ entries).map Entry.cell)) entries.length before.length memory =
      (scan step (entries.map Entry.leaf) memory).map fun outcome =>
        (before.length + outcome.1, (entries.drop outcome.1).head?.map Entry.item, outcome.2) := by
  induction entries generalizing before memory with
  | nil => rfl
  | cons entry rest ih =>
    have found := codecCell_treePage born 0 ((before ++ entry :: rest).map Entry.cell)
      before.length (by simp) (entries_readable _)
    have here : ((before ++ entry :: rest).map Entry.cell)[before.length]? = some entry.cell := by
      simp
    rw [getElem?_eq_getElem (by simp), Option.some.injEq] at here
    rw [here] at found
    have next := ih (before ++ [entry])
    simp only [append_assoc, singleton_append, length_append,
      length_singleton] at next
    simp only [length_cons, scanRun, found, bind, Except.bind, entry.leafRead, map_cons,
      scan]
    cases step entry.leaf memory with
    | error error => rfl
    | ok outcome =>
      obtain ⟨included, memory⟩ := outcome
      cases included with
      | false => simp [entry.keyRead, Except.map, Entry.item]
      | true =>
        simp only [if_true, next]
        cases scan step (rest.map Entry.leaf) memory with
        | error error => rfl
        | ok result =>
          simp only [Except.map, drop_succ_cons]
          congr 2
          omega

variable {state : σ} {heap : Heap} {leaf : Node codec} {path : List (Level codec)}
  {smaller scanned : List (Entry codec)}

theorem dropRun_spec (lawful : LawfulCodec codec) {run rest : List (Entry codec)}
    (owns : laws.Owns state heap) (place : OnLeaf laws heap leaf path (smaller ++ run ++ rest))
    (some_ : run ≠ []) :
    Ensures (dropRun codec (rootOf leaf.page path) (path.map Level.frame) leaf.page
        (filledHeader 0 ((smaller ++ run ++ rest).map Entry.cell)) smaller.length run.length) state
      (Refilled laws heap leaf path (smaller ++ rest) (Settles (smaller ++ rest = []) heap path))
      (fun error reached => StretchFails laws False error reached ∨ codec.leafSize = 0 ∧
        error = .unsupported "B+tree run removal requires fixed leaf cells") := by
  have holds := place.holds
  have count : (filledHeader 0 ((smaller ++ run ++ rest).map Entry.cell)).itemCount =
      run.length + (smaller ++ rest).length := by
    simp
    omega
  unfold dropRun
  rw [count]
  by_cases lone : smaller ++ rest = []
  · have all : run.length = run.length + (smaller ++ rest).length := by simp [lone]
    rw [if_pos all]
    simp only [lone]
    exact (emptied_spec laws lawful owns place).mono (fun _ _ rebuilt => rebuilt)
      fun error _ failed => Or.inl failed
  · have some : ¬ run.length = run.length + (smaller ++ rest).length := by
      have some_ := length_pos_iff.mpr lone
      omega
    rw [if_neg some]
    cases fixed : fixedCellSize codec 0 with
    | none =>
      simp only [ensures_throw]
      refine Or.inr ⟨?_, trivial⟩
      by_contra sized
      simp [fixedCellSize, sized] at fixed
    | some cellLen =>
      have cells : (smaller ++ run ++ rest).map Entry.cell =
          smaller.map Entry.cell ++ run.map Entry.cell ++ rest.map Entry.cell := by simp
      have storable : Storable ((smaller ++ rest).map Entry.cell) := by
        refine Storable.sublist holds.storable (List.Sublist.map _ ?_) (by simpa using lone)
        rw [append_assoc]
        exact List.Sublist.append_left (sublist_append_right _ _) _
      have lengths := (entries_readable (smaller ++ run ++ rest)).lengths lawful fixed
      have packed := holds.storable.fits
      rw [cells] at lengths packed
      have removed := removeFixedRange_filledPage (pageTypeAt codec 0) laws.txn 0 codec.aux
        (smaller.map Entry.cell) (run.map Entry.cell) (rest.map Entry.cell) cellLen
        (fixedCellSize_layout lawful 0 cellLen fixed).2 lengths (by simpa using some_)
        (length_pos_iff.mpr (by rw [← map_append]; simpa using lone)) packed
      rw [← cells, ← map_append, length_map, length_map] at removed
      have program : (do
          let _ ← removeFixedRange (filledHeader 0 ((smaller ++ run ++ rest).map Entry.cell))
            smaller.length run.length cellLen
          pure () : EStateM Error Page Unit)
          (treePage codec laws.txn 0 ((smaller ++ run ++ rest).map Entry.cell)) =
          .ok () (treePage codec laws.txn 0 ((smaller ++ rest).map Entry.cell)) := by
        simp only [bind, EStateM.bind, treePage, removed]
        rfl
      simp only [ensures_bind]
      refine (laws.update owns holds.stored (writable_treePage laws _ _) program
        (treePage_ownedBy _ _ _)).mono ?_ fun error _ failed => Or.inl (Or.inl failed)
      rintro _ reached ⟨-, ownsAfter⟩
      exact (shortened_spec laws lawful place lone storable ownsAfter).mono
        (fun _ _ rebuilt => rebuilt) fun error _ failed => Or.inl failed

theorem followingLeaf_spec (lawful : LawfulCodec codec) (removed : Nat) {fail : Error → σ → Prop}
    (owns : laws.Owns state heap) (place : OnLeaf laws heap leaf path (smaller ++ scanned))
    (inside : removed ≤ scanned.length) :
    Ensures (followingLeaf codec (path.map Level.frame)
        ((scanned.drop removed).head?.map Entry.item)) state
      (fun following reached => reached = state ∧
        following = ((scanned ++ entriesAfter path).drop removed).head?.map Entry.item) fail := by
  have dropped : (scanned ++ entriesAfter path).drop removed =
      scanned.drop removed ++ entriesAfter path := drop_append_of_le_length inside
  rw [dropped]
  cases next : scanned.drop removed with
  | cons entry rest => exact ⟨rfl, rfl⟩
  | nil =>
    exact adjacentLeaf_spec laws lawful .after owns (laws.word owns place.holds.stored)
      place.hole.context (by rw [Nat.zero_add]; exact place.bound) ⟨rfl, rfl⟩

theorem finishRun_spec (lawful : LawfulCodec codec) (removed : Nat) (owns : laws.Owns state heap)
    (place : OnLeaf laws heap leaf path (smaller ++ scanned)) (inside : removed ≤ scanned.length)
    (some_ : scanned ≠ []) :
    Ensures (finishRun codec (rootOf leaf.page path) (path.map Level.frame) leaf.page
        (filledHeader 0 ((smaller ++ scanned).map Entry.cell)) smaller.length
        (smaller.length + removed) ((scanned.drop removed).head?.map Entry.item)) state
      (fun result reached => result.1.removed = removed ∧
        result.1.following =
          ((scanned ++ entriesAfter path).drop removed).head?.map Entry.item ∧
        Refilled laws heap leaf path (smaller ++ scanned.drop removed)
          (Settles (smaller ++ scanned.drop removed = []) heap path) result.2 reached)
      (fun error reached => StretchFails laws False error reached ∨ codec.leafSize = 0 ∧
        error = .unsupported "B+tree run removal requires fixed leaf cells") := by
  unfold finishRun
  by_cases none : removed = 0
  · subst none
    simp only [Nat.add_zero, if_true, ensures_pure, drop_zero]
    refine ⟨trivial, ?_, ?_⟩
    · rw [head?_append_of_ne_nil _ some_]
    · have widens : ∀ after top, Widens codec (Lonely codec heap leaf.page) path after top →
          Settles (leaf.entries = []) heap path after top := fun after top widens =>
        Widens.settles heap leaf.inhabited after top
          (Widens.mono (not_lonely_leaf place.holds.stored) after top widens)
      obtain ⟨⟨tree, context, nodup⟩, bound, cut, -⟩ := place
      rw [← cut]
      exact (rebuilt_plug laws owns tree context nodup (by omega)).imp _ widens
  · have moved : ¬ smaller.length + removed = smaller.length := by omega
    have taken : scanned.take removed ≠ [] := by
      rw [ne_eq, take_eq_nil_iff]
      exact not_or.mpr ⟨none, some_⟩
    have whole : smaller ++ scanned = smaller ++ scanned.take removed ++ scanned.drop removed := by
      rw [append_assoc, take_append_drop]
    have count : smaller.length + removed - smaller.length = (scanned.take removed).length := by
      rw [length_take]
      omega
    have drop := dropRun_spec laws lawful owns (whole ▸ place) taken
    rw [← whole] at drop
    have length : (scanned.take removed).length = removed := by simp [inside]
    rw [if_neg moved, count, ensures_bind]
    refine (followingLeaf_spec laws lawful removed owns place inside).imp ?_
    rintro following _ ⟨rfl, rfl⟩
    rw [ensures_bind]
    refine drop.imp fun root reached rebuilt => ?_
    rw [ensures_pure]
    exact ⟨length, rfl, rebuilt⟩

end Run

end IpRange.FixedTree
