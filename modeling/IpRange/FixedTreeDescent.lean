import IpRange.FixedTreePropagate

/-!
The descent that makes the path to a leaf private: every committed page on the
way is copied and retired, and the search ends at the leaf where the key belongs.
-/

namespace IpRange.FixedTree

open Function List SlottedPage

variable {Key Leaf σ τ ρ : Type} [Store σ] {codec : Codec Key Leaf} (laws : StoreLaws σ)

theorem level_cells_repointed (lawful : LawfulCodec codec) (level : Level codec)
    (entry : Entry codec) (old new : Nat) (oldWord : old < 2 ^ 32) (newWord : new < 2 ^ 32)
    (storable : Storable (level.cells entry.key old)) :
    Storable (level.cells entry.key new) := by
  obtain ⟨oldWritten, _, _⟩ := branchBytes_write lawful entry old oldWord
  obtain ⟨newWritten, newPresent, _⟩ := branchBytes_write lawful entry new newWord
  have sameLength := lawful.branchLength entry old new _ _ oldWritten newWritten
  refine ⟨by simp [Level.cells], ?_, ?_⟩
  · have records := storable.records
    simp only [Level.cells, forall_mem_append, forall_mem_cons] at records ⊢
    exact ⟨records.1, newPresent, records.2.2⟩
  · have fits := storable.fits
    simp only [Level.cells, usedBytes, length_append, length_cons, payload_append,
      payload_cons, sameLength] at fits ⊢
    exact fits

variable {state : σ} {heap : Heap} {height count : Nat} {error : Error} {retired : List Nat}
  {node : Node codec} {path : List (Level codec)} {cells : List Bytes}

theorem replaceBranchChild_spec (lawful : LawfulCodec codec) {old new : Nat}
    {oldPage newPage : Page} {fence : Key} {level : Level codec} {rest : List (Level codec)}
    (owns : laws.Owns state heap) (oldHeld : heap old = some oldPage)
    (newHeld : heap new = some newPage)
    (context : ContextAt heap laws.txn height old fence (level :: rest))
    (nodup : (contextPages (level :: rest)).Nodup) (bound : height + 1 ≤ maxTreeLevel) :
    Ensures (replaceBranchChild codec level.page level.left.length new) state
      (fun _ reached => ∃ after, laws.Owns reached after ∧
        (∀ address, address ≠ level.page → after address = heap address) ∧
        ContextAt after laws.txn height new fence (level :: rest) ∧
        ∀ held, held.Nodup → level.page ∈ held → Moves laws.txn heap after held held)
      (StretchFails laws False) := by
  obtain ⟨known, holds, siblings, above⟩ := id context
  have readable := level_readable lawful (laws.views owns) known (laws.word owns oldHeld) siblings
  obtain ⟨entry, rfl⟩ := known
  have oldWord := laws.word owns oldHeld
  have newWord := laws.word owns newHeld
  have storable := level_cells_repointed lawful level entry old new oldWord newWord holds.storable
  obtain ⟨oldWritten, oldPresent, _⟩ := branchBytes_write lawful entry old oldWord
  obtain ⟨newWritten, newPresent, _⟩ := branchBytes_write lawful entry new newWord
  have sameLength := lawful.branchLength entry new old _ _ newWritten oldWritten
  have index : level.left.length < (level.cells entry.key old).length := by simp [Level.cells]
  have here : (level.cells entry.key old)[level.left.length] = branchBytes codec entry.key old := by
    simp [Level.cells]
  obtain ⟨reads, points⟩ := branchBytes_reads lawful entry old (height + 1) oldWord (by omega)
  have parsed := holds.parsed none bound (by simp)
  have key := keyAt_treePage codec laws.txn (height + 1) (level.cells entry.key old)
    level.left.length entry.key index (by rw [here]; exact reads)
  have cell := codecCell_treePage laws.txn (height + 1) (level.cells entry.key old)
    level.left.length index readable
  have child := branchChild_treePage laws.txn (height + 1) (level.cells entry.key old)
    level.left.length (Store.pageLimit state) old (by omega) index readable
    (by rw [here]; exact points) (laws.bounds owns oldHeld).1 (laws.bounds owns oldHeld).2
  rw [here] at cell
  simp only [codecCell, filledHeader_level, Nat.add_one_ne_zero, if_false] at cell
  have edited := replace_filledPage (pageTypeAt codec (height + 1)) laws.txn (height + 1) codec.aux
    (level.left.map Node.cell) (level.right.map Node.cell) (branchBytes codec entry.key old)
    (branchBytes codec entry.key new) oldPresent newPresent storable.fits holds.storable.fits
  rw [length_map] at edited
  unfold replaceBranchChild
  simp only [ensures_bind, ensures_get, laws.target owns]
  refine ensures_viewPage laws owns holds.stored
    (show _ = Except.ok (filledHeader (height + 1) (level.cells entry.key old), entry.key,
      (branchBytes codec entry.key old).length) from ?_) ?_
  · simp only [parsed, key, cell, child, bind, Except.bind]
  · simp only [branchCellBuf_eq lawful entry new newWord, ensures_liftResult_ok, sameLength,
      ne_eq, not_true_eq_false, if_false]
    have program : (do
        if ← SlottedPage.replace (filledHeader (height + 1) (level.cells entry.key old))
            level.left.length (branchBytes codec entry.key old).length
            (branchBytes codec entry.key new) then pure ()
        else throw (.corrupt "B+tree child replacement no longer fits") : EStateM Error Page Unit)
        (treePage codec laws.txn (height + 1) (level.cells entry.key old)) =
        .ok () (treePage codec laws.txn (height + 1) (level.cells entry.key new)) := by
      simp only [bind, EStateM.bind, treePage, Level.cells, edited]
      rfl
    refine (laws.update owns holds.stored (writable_treePage laws _ _) program
      (treePage_ownedBy _ _ _)).impOr ?_
    rintro _ reached ⟨-, ownsAfter⟩
    obtain ⟨beside, higher⟩ := context.written
      (some (treePage codec laws.txn (height + 1) (level.cells entry.key new))) nodup
    exact ⟨_, ownsAfter, fun address different => update_of_ne different _ _,
      ⟨⟨entry, rfl⟩, Holds.of_update laws.txnPositive storable, beside, higher⟩,
      fun held heldNodup member => Evolves.write heldNodup member holds.stored
        (treePage_not_committed _ _ _) (treePage_not_committed _ _ _)⟩

def PathFails (oversized : Prop) (count : Nat) (error : Error) (state : σ) : Prop :=
  StretchFails laws oversized error state ∨
    maxPath < count ∧ error = .corrupt "COW path exceeds the maximum tree height"

abbrev EditFails (codec : Codec Key Leaf) (count : Nat) : Error → σ → Prop :=
  PathFails laws (maxTreeCell < codec.maxLeafSize) count

theorem PathFails.mono {oversized : Prop} {fewer : Nat}
    (failed : PathFails laws oversized fewer error state) (more : fewer ≤ count) :
    PathFails laws oversized count error state :=
  failed.imp_right fun full => ⟨lt_of_lt_of_le full.1 more, full.2⟩

theorem PathFails.imp {oversized larger : Prop}
    (failed : PathFails laws oversized count error state) (wider : oversized → larger) :
    PathFails laws larger count error state :=
  failed.imp_left fun cause => cause.imp wider

theorem touch_spec {pageNumber : Nat} {page : Page} (owns : laws.Owns state heap)
    (held : heap pageNumber = some page) (magic : page.hasMagic = true) :
    Ensures (touch pageNumber retired) state
      (fun result reached => heap result.1 = none ∧ result.2 = retired ++ [pageNumber] ∧
        laws.Owns reached
          (Function.update heap result.1 (some { page with bornTxn := laws.txn })))
      (fun error reached => laws.Fails error reached ∨ maxPath < retired.length ∧
        error = .corrupt "COW path exceeds the maximum tree height") := by
  unfold touch
  rw [ensures_bind]
  refine (laws.allocate owns).impOr ?_
  rintro fresh reached ⟨unused, blank, blankPrivate, ownsFresh⟩
  have different : pageNumber ≠ fresh := by
    rintro rfl
    rw [held] at unused
    cases unused
  simp only [ensures_bind, copyForCow, ensures_get, laws.target ownsFresh]
  refine (laws.copy ownsFresh (by rw [update_of_ne different]; exact held)
    (update_self _ _ _) different blankPrivate rfl ?_).impOr ?_
  · have keeps : ({ page with bornTxn := laws.txn } : Page).hasMagic = page.hasMagic := rfl
    simp [Page.ownedBy, keeps, magic]
  · intro _ copied ownsCopy
    rw [update_idem] at ownsCopy
    by_cases room : retired.length < maxPath + 1
    · simp only [pushRetired, if_pos room, ensures_liftResult_ok, ensures_pure]
      exact ⟨unused, trivial, ownsCopy⟩
    · simp only [pushRetired, if_neg room, ensures_liftResult_error]
      exact Or.inr ⟨by omega, trivial⟩

structure Hole (heap : Heap) (height : Nat) (node : Node codec) (path : List (Level codec)) : Prop where
  tree : TreeAt heap laws.txn height node
  context : ContextAt heap laws.txn height node.page node.first.key path
  nodup : (node.pages ++ contextPages path).Nodup

theorem Hole.held {laws : StoreLaws σ} {heap : Heap} {height : Nat} {node : Node codec}
    {path : List (Level codec)} (hole : Hole laws heap height node path) :
    ∀ address ∈ node.pages ++ contextPages path, heap address ≠ none := by
  intro address member
  rcases mem_append.mp member with inNode | inPath
  · exact hole.tree.held address inNode
  · exact hole.context.held address inPath

structure Activated (heap : Heap) (height : Nat) (node : Node codec) (path : List (Level codec))
    (cells : List Bytes) (retired : List Nat) (result : Nat × Nat × List Nat) (after : Heap)
    (gone : List Nat) : Prop where
  root : result.2.1 = rootOf result.1 path
  retired_ : result.2.2 = retired ++ gone
  few : gone.length ≤ 1
  hole : Hole laws after height (node.moved result.1) path
  holds : Holds after laws.txn laws.txn height result.1 codec cells
  moves : Moves laws.txn heap after (node.pages ++ contextPages path)
    ((node.moved result.1).pages ++ contextPages path ++ gone)
  committed : ∀ address ∈ gone, address ∈ node.pages ∧
    ∃ page, heap address = some page ∧ Committed laws.txn page
  below : ∀ address ∈ node.below, after address = heap address
  aside : ∀ level ∈ path, ∀ kid ∈ level.siblings, ∀ address ∈ kid.pages,
    after address = heap address

theorem activate_private {parent : Option (Nat × Nat)} (owns : laws.Owns state heap)
    (hole : Hole laws heap height node path)
    (holds : Holds heap laws.txn laws.txn height node.page codec cells) :
    Ensures (activate codec true node.page (rootOf node.page path) parent retired) state
      (fun result reached => ∃ after gone, laws.Owns reached after ∧
        Activated laws heap height node path cells retired result after gone)
      (PathFails laws False retired.length) := by
  simp only [activate, if_true, ensures_pure]
  refine ⟨heap, [], owns, rfl, by simp, by simp, hole, holds, ?_, by simp, fun _ _ => rfl,
    fun _ _ _ _ _ _ => rfl⟩
  rw [append_nil]
  exact Evolves.refl hole.nodup

section

variable {born : Nat} (lawful : LawfulCodec codec) (owns : laws.Owns state heap)
  (hole : Hole laws heap height node path)
  (holds : Holds heap laws.txn born height node.page codec cells)

include lawful owns hole holds

theorem activate_committed (foreign : born ≠ laws.txn)
    (bound : height + path.length ≤ maxTreeLevel) :
    Ensures (activate codec false node.page (rootOf node.page path)
        (path.head?.map fun level => (level.page, level.left.length)) retired) state
      (fun result reached => ∃ after gone, laws.Owns reached after ∧
        Activated laws heap height node path cells retired result after gone)
      (PathFails laws False retired.length) := by
  have heldPages := hole.held
  obtain ⟨tree, context, nodup⟩ := hole
  simp only [activate, Bool.false_eq_true, if_false]
  rw [ensures_bind]
  refine (touch_spec laws owns holds.stored (by simp)).mono ?_
    fun error _ failed => failed.imp_left Or.inl
  rintro ⟨copied, retired_⟩ reached ⟨unused, rfl, ownsCopy⟩
  generalize written : Function.update heap copied _ = copy at ownsCopy
  have here : copy copied = some { treePage codec born height cells with bornTxn := laws.txn } := by
    rw [← written, update_self]
  have unchanged : ∀ address ∈ node.pages ++ contextPages path, copy address = heap address := by
    intro address member
    have fresh : address ≠ copied := fun same => heldPages address member (same ▸ unused)
    rw [← written, update_of_ne fresh]
  have belowCopy : ∀ address ∈ node.below, copy address = heap address := fun address member =>
    unchanged address (mem_append_left _ (mem_cons_of_mem _ member))
  have moved : TreeAt copy laws.txn height (node.moved copied) :=
    tree.moved laws.txnPositive holds.stored here belowCopy
  have holdsCopy : Holds copy laws.txn laws.txn height copied codec cells :=
    ⟨laws.txnPositive, Nat.le_refl _, holds.storable, here⟩
  have moves : Moves laws.txn heap copy (node.pages ++ contextPages path)
      ((node.moved copied).pages ++ contextPages path ++ [node.page]) := by
    rw [← written]
    refine (Evolves.allocate nodup heldPages unused (by simp [Committed])).congr
      (fun _ => Iff.rfl) (perm_iff_count.mpr fun address => ?_)
    simp only [Node.pages, Node.moved, count_append, count_cons, cons_append,
      count_nil]
    omega
  have nodupMoved : ((node.moved copied).pages ++ contextPages path).Nodup :=
    (nodup_append.mp moves.nodup).1
  have committed : ∀ address ∈ [node.page], address ∈ node.pages ∧
      ∃ page, heap address = some page ∧ Committed laws.txn page := by
    intro address member
    rw [mem_singleton] at member
    subst member
    exact ⟨by simp [Node.pages], _, holds.stored, by simpa [Committed] using foreign⟩
  cases path with
  | nil =>
    simp only [head?_nil, Option.map_none, ensures_pure]
    exact ⟨_, _, ownsCopy, rfl, rfl, by simp, ⟨moved, trivial, nodupMoved⟩, holdsCopy, moves,
      committed, belowCopy, by simp⟩
  | cons level rest =>
    have contextCopy := context.congr fun address member =>
      unchanged address (mem_append_right _ member)
    simp only [head?_cons, Option.map_some, ensures_bind]
    refine (replaceBranchChild_spec laws lawful ownsCopy
      ((unchanged node.page (by simp [Node.pages])).trans holds.stored)
      here contextCopy (nodup_append.mp nodup).2.1
      (by rw [length_cons] at bound; omega)).impOr ?_
    rintro _ done ⟨after, ownsAfter, elsewhere, contextAfter, written⟩
    have inPath : level.page ∈ contextPages (level :: rest) := by
      simp [contextPages, Level.pages]
    have notPath : ∀ address ∈ (node.moved copied).pages, address ≠ level.page :=
      fun address member => (nodup_append.mp nodupMoved).2.2 address member level.page inPath
    simp only [ensures_pure]
    refine ⟨after, [node.page], ownsAfter, rfl, rfl, by simp, ⟨?_, contextAfter, nodupMoved⟩,
      ?_, ?_, committed, ?_, ?_⟩
    · exact moved.congr fun address member => elsewhere address (notPath address member)
    · exact holdsCopy.congr (elsewhere copied (notPath copied (by simp [Node.pages])))
    · exact moves.trans (written _ moves.nodup
        (mem_append_left _ (mem_append_right _ inPath)))
    · exact fun address member => (elsewhere address (notPath address
        (mem_cons_of_mem _ member))).trans (belowCopy address member)
    · intro upper member kid sibling address inKid
      have others : address ∈ level.siblings.flatMap Node.pages ++ contextPages rest := by
        rcases mem_cons.mp member with rfl | inRest
        · exact mem_append_left _ (mem_flatMap.mpr ⟨kid, sibling, inKid⟩)
        · refine mem_append_right _ (mem_flatMap.mpr ⟨upper, inRest, ?_⟩)
          exact mem_cons_of_mem _ (mem_flatMap.mpr ⟨kid, sibling, inKid⟩)
      obtain ⟨notHere, inContext⟩ :=
        context_outside (nodup_append.mp nodup).2.1 address others
      exact (elsewhere address notHere).trans
        (unchanged address (mem_append_right _ inContext))

theorem activate_spec (bound : height + path.length ≤ maxTreeLevel) :
    Ensures (activate codec (born == laws.txn) node.page (rootOf node.page path)
        (path.head?.map fun level => (level.page, level.left.length)) retired) state
      (fun result reached => ∃ after gone, laws.Owns reached after ∧
        Activated laws heap height node path cells retired result after gone)
      (PathFails laws False retired.length) := by
  by_cases same : born = laws.txn
  · subst same
    rw [beq_self_eq_true]
    exact activate_private laws owns hole holds
  · rw [beq_false_of_ne same]
    exact activate_committed laws lawful owns hole holds same bound

end

theorem Activated.child {after : Heap} {page : Nat} {left right : List (Node codec)}
    {kid : Node codec} {gone : List Nat} {result : Nat × Nat × List Nat}
    {some_ : left ++ kid :: right ≠ []}
    (activated : Activated laws heap (height + 1) (join page (left ++ kid :: right) some_) path
      ((left ++ kid :: right).map Node.cell) retired result after gone)
    (trees : ∀ child ∈ left ++ kid :: right, TreeAt heap laws.txn height child) :
    Hole laws after height kid ({ page := result.1, left, right } :: path) ∧
      (kid.pages ++ contextPages ({ page := result.1, left, right } :: path)).Perm
        (((join page (left ++ kid :: right) some_).moved result.1).pages ++ contextPages path) := by
  have perm := (level_pages_perm { page := result.1, left, right } [kid] path).symm
  simp only [append_assoc, singleton_append, flatMap_singleton] at perm
  have still : ∀ child ∈ left ++ kid :: right, TreeAt after laws.txn height child := by
    intro child member
    refine (trees child member).congr fun address inChild => activated.below address ?_
    exact mem_flatMap.mpr ⟨child, member, inChild⟩
  have fence := join_fence { page := result.1, left, right } [kid] (by simp) (by simp)
  simp only [append_assoc, singleton_append, head_cons] at fence
  refine ⟨⟨still kid (by simp), ⟨⟨kid.first, rfl⟩, ?_, ?_, ?_⟩, ?_⟩, perm⟩
  · simpa [Level.cells, Node.cell] using activated.holds
  · intro child member
    refine still child ?_
    simp only [Level.siblings, mem_append] at member
    rcases member with inLeft | inRight
    · simp [inLeft]
    · simp [inRight]
  · rw [← fence]
    exact activated.hole.context
  · exact perm.nodup_iff.mpr activated.hole.nodup

theorem node_first_mem (node : Node codec) : node.first ∈ node.entries :=
  head_mem node.inhabited

theorem node_keys [PageSource ρ] (lawful : LawfulCodec codec) {state : ρ} {txn : Nat}
    {kids : List (Node codec)} (views : Views state txn heap)
    (trees : ∀ kid ∈ kids, TreeAt heap txn height kid) :
    List.Forall₂ (Reads codec (height + 1)) (kids.map Node.cell)
      (kids.map fun kid => kid.first.key) := by
  rw [List.forall₂_map_left_iff, List.forall₂_map_right_iff, List.forall₂_same]
  exact fun kid member => (node_reads lawful views (trees kid member) _ (by omega)).1

theorem entry_keys (entries : List (Entry codec)) :
    List.Forall₂ (Reads codec 0) (entries.map Entry.cell) (entries.map Entry.key) := by
  rw [List.forall₂_map_left_iff, List.forall₂_map_right_iff, List.forall₂_same]
  exact fun entry _ => entry_reads entry

theorem entriesBefore_append (lower upper : List (Level codec)) :
    entriesBefore (lower ++ upper) = entriesBefore upper ++ entriesBefore lower := by
  induction lower with
  | nil => simp [entriesBefore]
  | cons level rest ih => simp [entriesBefore, ih]

theorem entriesAfter_append (lower upper : List (Level codec)) :
    entriesAfter (lower ++ upper) = entriesAfter lower ++ entriesAfter upper := by
  induction lower with
  | nil => simp [entriesAfter]
  | cons level rest ih => simp [entriesAfter, ih]

section Search

variable [LinearOrder Key] (key : Key)

abbrev KeysSorted (entries : List (Entry codec)) : Prop :=
  entries.Pairwise fun earlier later => earlier.key < later.key

variable {node : Node codec} {kids left right : List (Node codec)} {state : σ} {heap : Heap}
  {height born page : Nat} {path : List (Level codec)}

theorem node_first_le (sorted : KeysSorted node.entries) :
    ∀ entry ∈ node.entries, node.first.key ≤ entry.key := by
  intro entry member
  obtain ⟨page, entries, below, inhabited⟩ := node
  cases entries with
  | nil => exact absurd rfl inhabited
  | cons head rest =>
    rcases mem_cons.mp member with same | later
    · exact le_of_eq (congrArg Entry.key same.symm)
    · exact le_of_lt ((pairwise_cons.mp sorted).1 entry later)

theorem fences_sorted (sorted : KeysSorted (kids.flatMap Node.entries)) :
    (kids.map fun kid => kid.first.key).Pairwise (· < ·) := by
  rw [KeysSorted, pairwise_flatMap] at sorted
  rw [pairwise_map]
  exact sorted.2.imp fun apart => apart _ (node_first_mem _) _ (node_first_mem _)

theorem route_bounds {kid : Node codec}
    (sorted : KeysSorted ((left ++ kid :: right).flatMap Node.entries))
    (edge : left = [] ∨ kid.first.key ≤ key) (above : ∀ sibling ∈ right, key < sibling.first.key) :
    (∀ entry ∈ left.flatMap Node.entries, entry.key < key) ∧
      ∀ entry ∈ right.flatMap Node.entries, key < entry.key := by
  have apart := pairwise_flatMap.mp sorted
  constructor
  · intro entry member
    obtain ⟨sibling, inLeft, inSibling⟩ := mem_flatMap.mp member
    have before := (pairwise_append.mp apart.2).2.2 sibling inLeft kid (by simp) entry inSibling
      kid.first (node_first_mem kid)
    rcases edge with none | reached
    · rw [none] at inLeft
      cases inLeft
    · exact lt_of_lt_of_le before reached
  · intro entry member
    obtain ⟨sibling, inRight, inSibling⟩ := mem_flatMap.mp member
    exact lt_of_lt_of_le (above sibling inRight)
      (node_first_le (apart.1 sibling (by simp [inRight])) entry inSibling)

theorem route_spec (some_ : kids ≠ []) (sorted : KeysSorted (kids.flatMap Node.entries))
    (probe : Nat → Except Error Key)
    (probed : ∀ index (bound : index < (kids.map fun kid => kid.first.key).length),
      probe index = .ok (kids.map fun kid => kid.first.key)[index]) :
    ∃ left kid right, kids = left ++ kid :: right ∧
      (∀ entry ∈ left.flatMap Node.entries, entry.key < key) ∧
      (∀ entry ∈ right.flatMap Node.entries, key < entry.key) ∧
      ∃ exact_, lowerBoundBy (kids.map fun kid => kid.first.key).length key false probe =
        .ok (left.length, exact_) := by
  obtain ⟨leftKeys, fence, rightKeys, cut, edge, above, exact_, run⟩ := lowerBoundBy_route key
    (kids.map fun kid => kid.first.key) probe (fences_sorted sorted) probed (by simpa using some_)
  obtain ⟨left, rest, rfl, leftEq, restEq⟩ := map_eq_append_iff.mp cut
  obtain ⟨kid, right, rfl, kidEq, rightEq⟩ := map_eq_cons_iff.mp restEq
  obtain ⟨smaller, larger⟩ := route_bounds key sorted
    (edge.imp (fun none => by simpa [none] using leftEq) fun reached => kidEq ▸ reached)
    (fun sibling member => above _ (rightEq ▸ mem_map_of_mem member))
  exact ⟨left, kid, right, rfl, smaller, larger, exact_, by rw [run, ← leftEq, length_map]⟩

variable (select : Page → Header → List Frame → Except Error τ)

theorem inspect_branch (lawful : LawfulCodec codec) (expectedLevel : Option Nat)
    (frames : List Frame) (owns : laws.Owns state heap)
    (holds : Holds heap laws.txn born (height + 1) page codec (kids.map Node.cell))
    (trees : ∀ kid ∈ kids, TreeAt heap laws.txn height kid)
    (sorted : KeysSorted (kids.flatMap Node.entries)) (bound : height + 1 ≤ maxTreeLevel)
    (expected : ∀ wanted ∈ expectedLevel, wanted = height + 1) :
    ∃ left kid right, kids = left ++ kid :: right ∧
      (∀ entry ∈ left.flatMap Node.entries, entry.key < key) ∧
      (∀ entry ∈ right.flatMap Node.entries, key < entry.key) ∧
      inspect codec key select laws.txn (Store.pageLimit state) expectedLevel frames
          (treePage codec born (height + 1) (kids.map Node.cell)) =
        .ok (.branch (filledHeader (height + 1) (kids.map Node.cell)) (born == laws.txn)
          left.length kid.page) := by
  have some_ : kids ≠ [] := fun none => holds.storable.inhabited (by simp [none])
  obtain ⟨probe, probed, search⟩ := lowerBound_treePage born (height + 1) (kids.map Node.cell)
    lawful _ holds.storable (node_keys lawful (laws.views owns) trees)
  obtain ⟨left, kid, right, rfl, smaller, larger, exact_, run⟩ :=
    route_spec key some_ sorted probe probed
  refine ⟨left, kid, right, rfl, smaller, larger, ?_⟩
  have parsed := holds.parsed expectedLevel bound expected
  have readable := nodes_readable lawful (laws.views owns) trees _ (Nat.succ_ne_zero height)
  have child := branchChild_at lawful born (Store.pageLimit state) (laws.views owns)
    (trees kid (by simp)) readable (show _[left.length]? = _ by simp) rfl
  simp only [inspect, parsed, bind, Except.bind, filledHeader_level, Nat.add_one_ne_zero, if_false,
    search, run, child, treePage_bornTxn]

theorem inspect_leaf {pageLimit : Nat} {entries : List (Entry codec)} {expectedLevel : Option Nat}
    {frames : List Frame} {selection : τ}
    (holds : Holds heap laws.txn born 0 page codec (entries.map Entry.cell))
    (expected : ∀ wanted ∈ expectedLevel, wanted = 0)
    (selects : select (treePage codec born 0 (entries.map Entry.cell))
      (filledHeader 0 (entries.map Entry.cell)) frames = .ok selection) :
    inspect codec key select laws.txn pageLimit expectedLevel frames
        (treePage codec born 0 (entries.map Entry.cell)) =
      .ok (.leaf (filledHeader 0 (entries.map Entry.cell)) (born == laws.txn) selection) := by
  have parsed := holds.parsed expectedLevel (by omega) expected
  simp only [inspect, parsed, bind, Except.bind, filledHeader_level, if_true, selects,
    treePage_bornTxn]

structure Landed (heap : Heap) (height : Nat) (node : Node codec) (path : List (Level codec))
    (retired : List Nat) (result : Mutated (PrivateLeaf τ)) (after : Heap) (leaf : Node codec)
    (more : List (Level codec)) (gone : List Nat) : Prop where
  hole : Hole laws after 0 leaf (more ++ path)
  holds : Holds after laws.txn laws.txn 0 leaf.page codec (leaf.entries.map Entry.cell)
  depth : more.length = height
  entries : node.entries = entriesBefore more ++ leaf.entries ++ entriesAfter more
  smaller : ∀ entry ∈ entriesBefore more, entry.key < key
  larger : ∀ entry ∈ entriesAfter more, key < entry.key
  moves : Moves laws.txn heap after (node.pages ++ contextPages path)
    (leaf.pages ++ contextPages (more ++ path) ++ gone)
  committed : ∀ address ∈ gone, address ∈ node.pages ∧
    ∃ page, heap address = some page ∧ Committed laws.txn page
  framed : result.value.path = (more ++ path).map Level.frame
  pageNumber : result.value.pageNumber = leaf.page
  header : result.value.header = filledHeader 0 (leaf.entries.map Entry.cell)
  root : result.root = rootOf leaf.page (more ++ path)
  retired_ : result.retired = retired ++ gone
  origin : ∃ first : Node codec, TreeAt heap laws.txn 0 first ∧ first.entries = leaf.entries ∧
    OriginAt heap laws.txn node 0 first more
  aside : ∀ level ∈ more ++ path, ∀ kid ∈ level.siblings, ∀ address ∈ kid.pages,
    after address = heap address

theorem Landed.extend {middle after : Heap} {kid leaf : Node codec} {more : List (Level codec)}
    {retired gone later : List Nat} {active : Nat × Nat × List Nat}
    {result : Mutated (PrivateLeaf τ)} {some_ : left ++ kid :: right ≠ []}
    (activated : Activated laws heap (height + 1) (join page (left ++ kid :: right) some_) path
      ((left ++ kid :: right).map Node.cell) retired active middle gone)
    (stored : Holds heap laws.txn born (height + 1) page codec ((left ++ kid :: right).map Node.cell))
    (trees : ∀ child ∈ left ++ kid :: right, TreeAt heap laws.txn height child)
    (smaller : ∀ entry ∈ left.flatMap Node.entries, entry.key < key)
    (larger : ∀ entry ∈ right.flatMap Node.entries, key < entry.key)
    (landed : Landed laws key middle height kid ({ page := active.1, left, right } :: path)
      active.2.2 result after leaf more later) :
    Landed laws key heap (height + 1) (join page (left ++ kid :: right) some_) path retired result
      after leaf (more ++ [{ page := active.1, left, right }]) (gone ++ later) := by
  obtain ⟨-, perm⟩ := activated.child laws trees
  have goneNodup := (nodup_append.mp activated.moves.nodup).2.1
  have goneApart := (nodup_append.mp activated.moves.nodup).2.2
  have joined : ∀ rest : List (Level codec),
      more ++ [{ page := active.1, left, right }] ++ rest =
        more ++ { page := active.1, left, right } :: rest := by simp
  have within : ∀ address ∈ kid.pages, middle address = heap address := fun address member =>
    activated.below address (mem_flatMap.mpr ⟨kid, by simp, member⟩)
  obtain ⟨first, firstTree, firstEntries, firstOrigin⟩ := landed.origin
  refine ⟨?_, landed.holds, by simp [landed.depth], ?_, ?_, ?_, ?_, ?_, ?_, landed.pageNumber,
    landed.header, ?_, ?_, ⟨first, ?_, firstEntries, ?_⟩, ?_⟩
  · rw [joined]
    exact landed.hole
  · rw [entriesBefore_append, entriesAfter_append]
    simp [join, entriesBefore, entriesAfter, landed.entries]
  · rw [entriesBefore_append]
    intro entry member
    rcases mem_append.mp member with here | below
    · exact smaller entry (by simpa [entriesBefore] using here)
    · exact landed.smaller entry below
  · rw [entriesAfter_append]
    intro entry member
    rcases mem_append.mp member with below | here
    · exact landed.larger entry below
    · exact larger entry (by simpa [entriesAfter] using here)
  · rw [joined]
    -- the pages retired before stay aside while the descent goes on
    have aside : ∀ address ∈ gone, address ∉ kid.pages ++
        contextPages ({ page := active.1, left, right } :: path) ∧ middle address ≠ none := by
      intro address member
      obtain ⟨inNode, stored, found, isCommitted⟩ := activated.committed address member
      refine ⟨fun inHole => goneApart address (perm.mem_iff.mp inHole) address member rfl, ?_⟩
      rw [(activated.moves.fixed address stored (mem_append_left _ inNode) found
        isCommitted).2]
      exact Option.some_ne_none _
    have first := activated.moves.congr (fun _ => Iff.rfl) (perm.append_right gone)
    refine (first.trans (landed.moves.append goneNodup aside)).congr (fun _ => Iff.rfl) ?_
    refine perm_iff_count.mpr fun address => ?_
    simp only [count_append]
    omega
  · intro address member
    rcases mem_append.mp member with now | below
    · exact activated.committed address now
    · obtain ⟨inKid, stored, found, isCommitted⟩ := landed.committed address below
      have inBelow : address ∈ (left ++ kid :: right).flatMap Node.pages :=
        mem_flatMap.mpr ⟨kid, by simp, inKid⟩
      exact ⟨mem_cons_of_mem _ inBelow, stored,
        (activated.below address inBelow).symm.trans found, isCommitted⟩
  · rw [joined]
    exact landed.framed
  · rw [joined]
    exact landed.root
  · rw [landed.retired_, activated.retired_, append_assoc]
  · exact firstTree.congr fun address member =>
      (within address (firstOrigin.inside.1 address member)).symm
  · have above : Holds heap laws.txn born (0 + more.length + 1) page codec
        ((left ++ kid :: right).map Node.cell) := by
      rw [Nat.zero_add, landed.depth]
      exact stored
    refine (firstOrigin.congr fun address member => (within address member).symm).extend above ?_
    intro other member
    rw [Nat.zero_add, landed.depth]
    refine trees other ?_
    rcases mem_append.mp member with inLeft | inRight
    · simp [inLeft]
    · simp [inRight]
  · rw [joined]
    intro level member child sibling address inChild
    refine (landed.aside level member child sibling address inChild).trans ?_
    rcases mem_append.mp member with inMore | inPath
    · exact within address (firstOrigin.inside.2 level inMore child sibling address inChild)
    · rcases mem_cons.mp inPath with rfl | above
      · refine activated.below address (mem_flatMap.mpr ⟨child, ?_, inChild⟩)
        rcases mem_append.mp sibling with inLeft | inRight
        · simp [inLeft]
        · simp [inRight]
      · exact activated.aside level above child sibling address inChild

theorem descend_spec (lawful : LawfulCodec codec) (Chosen : List (Entry codec) → τ → Prop)
    (selects : ∀ born (entries : List (Entry codec)) frames, Storable (entries.map Entry.cell) →
      KeysSorted entries → ∃ selection,
        select (treePage codec born 0 (entries.map Entry.cell))
          (filledHeader 0 (entries.map Entry.cell)) frames = .ok selection ∧
        Chosen entries selection) (room : Nat) (retired : List Nat) (expectedLevel : Option Nat)
    (owns : laws.Owns state heap) (hole : Hole laws heap height node path)
    (sorted : KeysSorted node.entries) (bound : height + path.length ≤ maxTreeLevel)
    (enough : height ≤ room) (expected : ∀ wanted ∈ expectedLevel, wanted = height) :
    Ensures (descend codec key select room (path.map Level.frame) node.page expectedLevel
        (path.head?.map fun level => (level.page, level.left.length)) (rootOf node.page path)
        retired) state
      (fun result reached => ∃ after leaf more gone, laws.Owns reached after ∧
        Landed laws key heap height node path retired result after leaf more gone ∧
        Chosen leaf.entries result.value.selection)
      (PathFails laws False (retired.length + height)) := by
  induction height generalizing room path node heap state retired expectedLevel with
  | zero =>
    obtain ⟨below, born, holds⟩ := id hole.tree
    obtain ⟨selection, found, chosen⟩ :=
      selects born node.entries (path.map Level.frame) holds.storable sorted
    rw [descend]
    simp only [ensures_bind, ensures_get, laws.target owns]
    refine ensures_viewPage laws owns holds.stored
      (inspect_leaf laws key select holds expected found) ?_
    simp only [ensures_bind]
    refine (activate_spec laws lawful owns hole holds bound).imp ?_
    rintro ⟨active, root, pages⟩ reached ⟨after, gone, ownsAfter, activated⟩
    simp only [ensures_pure]
    refine ⟨after, node.moved active, [], gone, ownsAfter, ?_, chosen⟩
    exact ⟨activated.hole, activated.holds, rfl, by simp [entriesBefore, entriesAfter],
      by simp [entriesBefore], by simp [entriesAfter], activated.moves, activated.committed, rfl,
      rfl, rfl, activated.root, activated.retired_, ⟨node, hole.tree, rfl, rfl⟩, activated.aside⟩
  | succ height ih =>
    obtain ⟨kids, some_, shape, ⟨born, holds⟩, trees⟩ := hole.tree.branch
    generalize node.page = page at *
    subst shape
    obtain ⟨left, kid, right, rfl, smaller, larger, looked⟩ :=
      inspect_branch laws key select lawful expectedLevel (path.map Level.frame) owns holds trees
        sorted (by omega) expected
    obtain ⟨room, rfl⟩ : ∃ fewer, room = fewer + 1 := ⟨room - 1, by omega⟩
    rw [descend]
    simp only [ensures_bind, ensures_get, laws.target owns]
    refine ensures_viewPage laws owns holds.stored looked ?_
    simp only [ensures_bind]
    refine (activate_spec laws lawful owns hole holds bound).mono ?_
      fun error _ failed => PathFails.mono laws failed (by omega)
    rintro ⟨active, root, pages⟩ reached ⟨after, gone, ownsAfter, activated⟩
    obtain ⟨below, perm⟩ := activated.child laws trees
    have kidSorted : KeysSorted kid.entries :=
      (pairwise_flatMap.mp sorted).1 kid (by simp)
    have run := ih room pages (some height) ownsAfter below kidSorted
      (by rw [length_cons]; omega) (by omega) (by simp)
    have frame : Level.frame { page := active, left, right } =
        { pageNumber := active, index := left.length,
          itemCount := (filledHeader (height + 1)
            ((left ++ kid :: right).map Node.cell)).itemCount } := by
      simp only [Level.frame, filledHeader_itemCount, length_map, length_append,
        length_cons, Frame.mk.injEq, true_and]
      omega
    have few := activated.few
    have retired_ : pages = retired ++ gone := activated.retired_
    have root_ : root = rootOf active path := activated.root
    subst root_
    simp only [map_cons, frame, rootOf, head?_cons, Option.map_some] at run
    simp only [filledHeader_level, Nat.add_sub_cancel]
    refine run.mono ?_ fun error _ failed =>
      PathFails.mono laws failed (by rw [retired_, length_append]; omega)
    rintro result done ⟨last, leaf, more, later, ownsLast, landed, chosen⟩
    exact ⟨last, leaf, _, _, ownsLast, landed.extend laws key activated holds trees smaller larger,
      chosen⟩

structure Found (heap : Heap) (node : Node codec) (retired : List Nat)
    (result : Mutated (PrivateLeaf (Nat × Bool))) (after : Heap) (leaf : Node codec)
    (path : List (Level codec)) (smaller larger : List (Entry codec)) (gone : List Nat) : Prop where
  hole : Hole laws after 0 leaf path
  holds : Holds after laws.txn laws.txn 0 leaf.page codec (leaf.entries.map Entry.cell)
  bound : path.length ≤ maxTreeLevel
  entries : node.entries = entriesBefore path ++ leaf.entries ++ entriesAfter path
  cut : leaf.entries = smaller ++ larger
  below : ∀ entry ∈ entriesBefore path ++ smaller, entry.key < key
  above : ∀ entry ∈ larger, key ≤ entry.key
  beyond : ∀ entry ∈ entriesAfter path, key < entry.key
  moves : Moves laws.txn heap after node.pages (leaf.pages ++ contextPages path ++ gone)
  committed : ∀ address ∈ gone, address ∈ node.pages ∧
    ∃ page, heap address = some page ∧ Committed laws.txn page
  result_ : result = {
    value := {
      path := path.map Level.frame
      pageNumber := leaf.page
      header := filledHeader 0 (leaf.entries.map Entry.cell)
      selection := (smaller.length, decide (larger.head?.map Entry.key = some key)) }
    root := rootOf leaf.page path
    retired := retired ++ gone }
  origin : ∃ first : Node codec, TreeAt heap laws.txn 0 first ∧ first.entries = leaf.entries ∧
    OriginAt heap laws.txn node 0 first path
  aside : ∀ level ∈ path, ∀ kid ∈ level.siblings, ∀ address ∈ kid.pages,
    after address = heap address

theorem lowerBound_leaf (lawful : LawfulCodec codec) (born : Nat) (entries : List (Entry codec))
    (storable : Storable (entries.map Entry.cell)) (sorted : KeysSorted entries) :
    ∃ smaller larger, entries = smaller ++ larger ∧ (∀ entry ∈ smaller, entry.key < key) ∧
      (∀ entry ∈ larger, key ≤ entry.key) ∧
      lowerBound codec (treePage codec born 0 (entries.map Entry.cell))
          (filledHeader 0 (entries.map Entry.cell)) key true =
        .ok (smaller.length, decide (larger.head?.map Entry.key = some key)) := by
  obtain ⟨probe, probed, search⟩ := lowerBound_treePage born 0 (entries.map Entry.cell) lawful _
    storable (entry_keys entries)
  obtain ⟨smallerKeys, largerKeys, cut, below, above, run⟩ :=
    lowerBoundBy_insertion key (entries.map Entry.key) probe (pairwise_map.mpr sorted) probed
  obtain ⟨smaller, larger, rfl, rfl, rfl⟩ := map_eq_append_iff.mp cut
  refine ⟨smaller, larger, rfl, ?_, ?_, ?_⟩
  · exact fun entry member => below _ (mem_map_of_mem member)
  · exact fun entry member => above _ (mem_map_of_mem member)
  · rw [search, run, length_map, head?_map]

theorem privatePath_spec (lawful : LawfulCodec codec) {retired : List Nat}
    (owns : laws.Owns state heap) (tree : TreeAt heap laws.txn height node)
    (nodup : node.pages.Nodup) (sorted : KeysSorted node.entries) (bound : height ≤ maxTreeLevel) :
    Ensures (privatePath codec key node.page retired) state
      (fun result reached => ∃ after leaf path smaller larger gone, laws.Owns reached after ∧
        Found laws key heap node retired result after leaf path smaller larger gone)
      (PathFails laws False (retired.length + height)) := by
  have whole : Hole laws heap height node [] :=
    ⟨tree, trivial, by simpa [contextPages] using nodup⟩
  have run := descend_spec laws key (fun page header _ => lowerBound codec page header key true)
    lawful (fun entries selection => ∃ smaller larger, entries = smaller ++ larger ∧
      (∀ entry ∈ smaller, entry.key < key) ∧ (∀ entry ∈ larger, key ≤ entry.key) ∧
      selection = (smaller.length, decide (larger.head?.map Entry.key = some key)))
    (fun born entries frames storable sorted => by
      obtain ⟨smaller, larger, cut, below, above, found⟩ :=
        lowerBound_leaf key lawful born entries storable sorted
      exact ⟨_, found, smaller, larger, cut, below, above, rfl⟩)
    maxPath retired none owns whole sorted bound bound (by simp)
  refine run.imp ?_
  rintro ⟨⟨frames, pageNumber, header, selection⟩, root, pages⟩ reached
    ⟨after, leaf, path, gone, ownsAfter, landed, smaller, larger, cut, below, above, chosen⟩
  obtain ⟨hole, holds, depth, entries, smaller_, larger_, moves, committed, framed, page, header_,
    root_, retired_, origin, aside⟩ := landed
  simp only [append_nil] at hole moves framed root_ aside
  refine ⟨after, leaf, path, smaller, larger, gone, ownsAfter, hole, holds, by omega, entries, cut,
    ?_, above, larger_, by simpa [contextPages] using moves, committed, ?_, origin, aside⟩
  · intro entry member
    rcases mem_append.mp member with before | inLeaf
    · exact smaller_ entry before
    · exact below entry inLeaf
  · simp only at framed page header_ root_ retired_ chosen
    rw [framed, page, header_, root_, retired_, chosen]

end Search

end IpRange.FixedTree
