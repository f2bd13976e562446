import IpRange.FixedTreeCalls

/-!
The shape of the root page over whole histories of a tree, against the validator's
check for a root page with a single child. Insertions and removals keep the root
wide, save for one removal: the one that empties a child of a root with two
children while the other child is itself a branch page with a single record.
-/

namespace IpRange.FixedTree

open List SlottedPage

variable {Key Leaf σ : Type} [LinearOrder Key]

/-- `validate_root_shape` and `report_degenerate_root`: whether the check fires. -/
def validateRootShape (root : Bool) (header : Header) : Bool :=
  root && decide (0 < header.level) && header.itemCount == 1

def reportsRoot [PageSource σ] (codec : Codec Key Leaf) (state : σ) (root : Nat) : Bool :=
  root != 0 &&
    match PageSource.viewPage state root with
    | .error _ => false
    | .ok page =>
      match parse codec page (PageSource.selectedTxn state) none with
      | .error _ => false
      | .ok header => validateRootShape true header

variable [Store σ] {codec : Codec Key Leaf}

structure Holding (codec : Codec Key Leaf) (σ : Type) [Store σ] where
  laws : StoreLaws σ
  state : σ
  root : Nat
  heap : Heap
  entries : List (Entry codec)
  pages : List Nat
  owns : laws.Owns state heap
  wellFormed : WellFormed laws heap root entries pages

/-- A call that succeeds, or work of the store that leaves the pages of the tree as they are,
such as a commit. -/
inductive Step : Holding codec σ → Holding codec σ → Prop where
  | call {τ : Type} {before after : Holding codec σ} (call : Call Key Leaf τ)
      (promised : Promised codec call (before.entries.map Entry.item))
      (outcome : Outcome Key Leaf τ)
      (ran : perform codec before.root call before.state = .ok outcome after.state)
      (laws : after.laws = before.laws) (root : after.root = outcome.root) : Step before after
  | keep {before after : Holding codec σ} (later : before.laws.txn ≤ after.laws.txn)
      (root : after.root = before.root)
      (kept : ∀ address ∈ before.pages, after.heap address = before.heap address) :
      Step before after

namespace Holding

/-- A removal that empties one of the two children of the root, where the other one is a
branch page with a single record. -/
def Topples (before after : Holding codec σ) : Prop :=
  RootTopples before.heap before.laws.txn before.root after.entries

omit [LinearOrder Key] in
theorem lonely_root {laws : StoreLaws σ} {state : σ} {heap : Heap} {root : Nat}
    (owns : laws.Owns state heap) (lonely : Lonely codec heap root) : root ≠ 0 := by
  obtain ⟨born, level, cell, stored⟩ := lonely
  have real := (laws.bounds owns stored).1
  omega

theorem reportsRoot_iff (tree : Holding codec σ) :
    reportsRoot codec tree.state tree.root = true ↔ Lonely codec tree.heap tree.root := by
  have views := tree.laws.views tree.owns
  rcases tree.wellFormed.tree with ⟨empty, -, -⟩ | ⟨height, node, bound, whole, page, -, -⟩
  · refine iff_of_false ?_ fun lonely => lonely_root tree.owns lonely empty
    simp [reportsRoot, empty]
  · obtain ⟨born, cells, holds⟩ := whole.stored
    rw [page] at holds
    have real := (tree.laws.bounds tree.owns holds.stored).1
    have parsed := holds.parsed none bound (by simp)
    have some_ : (tree.root != 0) = true := by
      rw [bne_iff_ne]
      omega
    rw [lonely_iff holds.stored]
    simp only [reportsRoot, some_, views.found holds.stored, views.selected, parsed,
      validateRootShape, Bool.true_and, filledHeader_level, Bool.and_eq_true, decide_eq_true_eq,
      filledHeader_itemCount, beq_iff_eq, Nat.pos_iff_ne_zero]

theorem Topples.fewer (lawful : LawfulCodec codec) {before after : Holding codec σ}
    (topples : before.Topples after) : after.entries.length < before.entries.length := by
  have views := before.laws.views before.owns
  obtain ⟨height, born, kids, kid, inKids, two, stored, trees, left, -⟩ := topples
  have some_ : kids ≠ [] := fun none => by simp [none] at two
  rcases before.wellFormed.tree with ⟨empty, -, -⟩ | ⟨level, node, bound, whole, page, same, -⟩
  · have real := (before.laws.bounds before.owns stored).1
    omega
  · obtain ⟨twinBorn, cells, holds⟩ := whole.stored
    have shown := Option.some.inj ((page ▸ holds.stored).symm.trans stored)
    obtain rfl : level = height + 1 := congrArg Page.level shown
    have records : cells = kids.map Node.cell := congrArg Page.cells shown
    subst records
    have joined : node = join node.page kids some_ :=
      whole.unique lawful views views (treeAt_join some_ holds trees) rfl
    have leaves : before.entries = kids.flatMap Node.entries := by
      rw [← same, congrArg Node.entries joined]
      rfl
    obtain ⟨front, back, rfl⟩ := append_of_mem inKids
    have positive : ∀ sibling : Node codec, 0 < sibling.entries.length := fun sibling =>
      length_pos_iff.mpr sibling.inhabited
    rw [leaves, ← left]
    rcases front with _ | ⟨sibling, others⟩
    · rcases back with _ | ⟨sibling, others⟩
      · simp at two
      · have some := positive sibling
        simp only [nil_append, flatMap_cons, length_append]
        omega
    · have some := positive sibling
      simp only [cons_append, flatMap_cons, flatMap_append, length_append]
      omega

end Holding

theorem Holding.same (lawful : LawfulCodec codec) (tree : Holding codec σ) {heap : Heap}
    {entries : List (Entry codec)} {pages : List Nat} (owns : tree.laws.Owns tree.state heap)
    (found : RootAt heap tree.laws.txn tree.root entries pages) :
    tree.entries = entries ∧ (Lonely codec heap tree.root ↔ Lonely codec tree.heap tree.root) := by
  have views := tree.laws.views tree.owns
  have also := tree.laws.views owns
  refine ⟨(RootAt.unique lawful views also tree.wellFormed.tree found).1, ?_⟩
  rcases tree.wellFormed.tree with ⟨empty, -, -⟩ | ⟨height, node, _, whole, page, -, -⟩
  · exact iff_of_false (fun lonely => lonely_root owns lonely empty)
      fun lonely => lonely_root tree.owns lonely empty
  · rcases found with ⟨empty, -, -⟩ | ⟨level, twin, _, another, twinPage, -, -⟩
    · exact iff_of_false (fun lonely => lonely_root owns lonely empty)
        fun lonely => lonely_root tree.owns lonely empty
    · obtain ⟨born, cells, holds⟩ := whole.stored
      obtain ⟨twinBorn, twinCells, twinHolds⟩ := another.stored
      rw [page] at holds
      rw [twinPage] at twinHolds
      refine Lonely.congr ?_
      rw [holds.stored, twinHolds.stored, Views.same views also holds.stored twinHolds.stored]

theorem Step.resettles (lawful : LawfulCodec codec) {before after : Holding codec σ}
    (step : Step before after) :
    (Lonely codec after.heap after.root → before.Topples after ∨ Lonely codec before.heap before.root) ∧
      (before.Topples after → Lonely codec after.heap after.root) := by
  cases step with
  | call call promised outcome ran laws root =>
    obtain ⟨items, -, entries, ⟨heap, kept, owns, tree, -, -, settled⟩, -, -⟩ :=
      (perform_spec before.laws lawful call before.owns before.wellFormed promised).ok ran
    rw [← laws, ← root] at tree
    obtain ⟨same, lonely⟩ := after.same lawful (laws ▸ owns) tree
    subst same
    rw [Holding.Topples, ← lonely, root]
    exact settled
  | keep later root kept =>
    have tree := (before.wellFormed.tree.congr kept).later later
    rw [← root] at tree
    obtain ⟨same, -⟩ := after.same lawful after.owns tree
    have never : ¬ before.Topples after := fun topples => by
      have fewer := topples.fewer lawful
      rw [same] at fewer
      exact lt_irrefl _ fewer
    refine ⟨fun lonely => Or.inr ?_, fun topples => absurd topples never⟩
    rcases before.wellFormed.tree with ⟨empty, -, -⟩ | ⟨height, node, _, whole, page, -, pages⟩
    · exact absurd (root.trans empty) (Holding.lonely_root after.owns lonely)
    · have inPages : before.root ∈ before.pages := by
        rw [← page, ← pages]
        exact mem_cons_self
      rw [root] at lonely
      exact (Lonely.congr (kept _ inPages)).mp lonely

theorem Step.exists_call (lawful : LawfulCodec codec) {τ : Type} (before : Holding codec σ)
    (call : Call Key Leaf τ) (promised : Promised codec call (before.entries.map Entry.item))
    {outcome : Outcome Key Leaf τ} {reached : σ}
    (ran : perform codec before.root call before.state = .ok outcome reached) :
    ∃ after : Holding codec σ, after.state = reached ∧ after.root = outcome.root ∧
      Step before after := by
  obtain ⟨items, -, yields⟩ :=
    (perform_spec before.laws lawful call before.owns before.wellFormed promised).ok ran
  obtain ⟨heap, kept, entries, -, advanced⟩ := yields.yields.advanced before.laws
  exact ⟨⟨before.laws, reached, outcome.root, heap, entries, kept, advanced.owns,
    advanced.wellFormed⟩, rfl, rfl, .call call promised outcome ran rfl rfl⟩

theorem exists_history (lawful : LawfulCodec codec) {τ : Type} (calls : List (Call Key Leaf τ))
    (start : Holding codec σ) (promised : ∀ call ∈ calls, ∀ items, Promised codec call items)
    {result : Nat × List Nat × List (Option (RemovedRun Key Leaf × τ))} {reached : σ}
    (ran : performAll codec start.root calls start.state = .ok result reached) :
    ∃ trees, IsChain Step (start :: trees) ∧ ∃ last, (start :: trees).getLast? = some last ∧
      last.state = reached ∧ last.root = result.1 := by
  induction calls generalizing start result with
  | nil =>
    cases ran
    exact ⟨[], .singleton _, start, rfl, rfl, rfl⟩
  | cons call calls ih =>
    obtain ⟨outcome, middle, first, rest⟩ := bind_apply_eq_ok.mp ran
    obtain ⟨⟨top, gone, runs⟩, done, more, same⟩ := bind_apply_eq_ok.mp rest
    cases same
    obtain ⟨next, rfl, root, step⟩ := Step.exists_call lawful start call
      (promised call mem_cons_self _) first
    rw [← root] at more
    obtain ⟨trees, history, last, isLast, rest⟩ := ih next
      (fun other member => promised other (mem_cons_of_mem _ member)) more
    exact ⟨next :: trees, isChain_cons_cons.mpr ⟨step, history⟩, last, by simpa using isLast, rest⟩

/-- Over every history from an empty tree the validator reports none of the roots exactly
when no step of the history topples one. -/
theorem roots_pass_iff_none_topples (lawful : LawfulCodec codec) (start : Holding codec σ)
    (empty : start.root = 0) (trees : List (Holding codec σ))
    (history : List.IsChain Step (start :: trees)) :
    (∀ tree ∈ trees, reportsRoot codec tree.state tree.root = false) ↔
      List.IsChain (fun before after => ¬ Holding.Topples before after) (start :: trees) := by
  have wide : ¬ Lonely codec start.heap start.root := fun lonely =>
    Holding.lonely_root start.owns lonely empty
  clear empty
  induction trees generalizing start with
  | nil => simp
  | cons next rest ih =>
    obtain ⟨step, later⟩ := isChain_cons_cons.mp history
    obtain ⟨caused, causes⟩ := step.resettles lawful
    have reports : reportsRoot codec next.state next.root = false ↔ ¬ start.Topples next := by
      rw [← Bool.not_eq_true, next.reportsRoot_iff]
      exact not_congr ⟨fun lonely => (caused lonely).resolve_right wide, causes⟩
    rw [forall_mem_cons, isChain_cons_cons, reports]
    refine and_congr_right fun kept => ih next later ?_
    exact fun lonely => (caused lonely).elim kept wide

def padded (zeros key : Nat) : Bytes := toLeBytes 4 key ++ List.replicate zeros 0

@[simp] theorem padded_length (zeros key : Nat) : (padded zeros key).length = 4 + zeros := by
  rw [padded, length_append, toLeBytes_length, length_replicate]

theorem leField_padded {zeros key : Nat} (rest : Bytes) (small : key < 256 ^ 4) :
    leField (padded zeros key ++ rest) 0 4 = key := by
  rw [padded, append_assoc, leField_toLeBytes 4 key _ small]

/-- Records that take a leaf page each, below branch records of the greatest length: the key,
then zeros. -/
def blockCodec : Codec Nat Nat where
  branchType := 1
  leafType := 2
  aux := 0
  keySize := 508
  leafSize := 2040
  maxBranchSize := 512
  maxLeafSize := 2040
  leafLayout := .fixed 2040
  branchLayout := .fixed 512
  readKey cell _ := .ok (leField cell 0 4)
  readLeaf cell :=
    if cell.length = 2040 then .ok (leField cell 0 4) else .error (.corrupt "block has a wrong size")
  writeBranch := writeFixedBranch (padded 504)
  readBranchChild := readFixedChild 508

theorem blockCodec_lawful : LawfulCodec blockCodec := by
  refine ⟨by decide, fun _ _ _ _ _ => ⟨_, rfl⟩, fun _ => rfl, fun _ _ => rfl, ?_, ?_⟩
  · intro entry child word
    have small : entry.key < 256 ^ 4 := by
      have read := Except.ok.inj entry.keyRead
      rw [← read]
      exact leField_lt _ _ _
    have size : (padded 504 entry.key ++ toLeBytes 4 child).length = 512 := by simp
    refine ⟨_, rfl, ?_, size.le, size, ?_, ?_⟩
    · intro none
      rw [none] at size
      cases size
    · intro level _
      exact congrArg Except.ok (leField_padded _ small)
    · have read := readFixedChild_append (padded 504 entry.key) child word
      rw [padded_length] at read
      simp only [blockCodec]
      exact read
  · rintro entry first second left right ⟨⟩ ⟨⟩
    simp

theorem block_laidOut (cell : Bytes) : LaidOut blockCodec cell := by
  intro leaf decoded
  simp only [blockCodec] at decoded
  split at decoded
  · rename_i size
    exact size
  · cases decoded

def emptyWorkspace : Workspace where
  mapping _ := default
  first := 2
  limit := 64
  next := 2
  free := 0
  txn := 7

/-- Eight insertions leave eight leaf pages below two branch pages. The deletions empty three of
the four on the right, and all on the left. -/
def topplingCalls : List (Call Nat Nat Unit) :=
  [0, 1, 2, 3, 4, 5, 6, 7].map (fun key => .insert (padded 2036 key) []) ++
    [7, 6, 5, 3, 2, 1, 0].map fun key => .deleteExisting key []

theorem toppling_calls_leave_degenerate_root :
    (match performAll blockCodec 0 topplingCalls emptyWorkspace with
      | .ok (root, _, _) reached => reportsRoot blockCodec reached root
      | .error _ _ => false) = true := by
  decide +kernel

theorem emptyWorkspace_owned : Workspace.Holds 7 emptyWorkspace fun _ => none := by
  refine ⟨rfl, by decide, by decide, by decide, fun _ _ => rfl, ?_, [], nodup_nil, rfl, by simp⟩
  intro address page stored
  cases stored

def emptyHolding : Holding blockCodec Workspace where
  laws := Workspace.laws 7 Workspace.sampleTxn_positive Workspace.sampleTxn_word
  state := emptyWorkspace
  root := 0
  heap := fun _ => none
  entries := []
  pages := []
  owns := emptyWorkspace_owned
  wellFormed := ⟨Or.inl ⟨rfl, rfl, rfl⟩, nodup_nil, List.Pairwise.nil⟩

theorem toppling_promised (items : List (Nat × Nat)) :
    ∀ call ∈ topplingCalls, Promised blockCodec call items := by
  intro call member
  rcases mem_append.mp member with inserted | deleted
  · obtain ⟨key, -, rfl⟩ := mem_map.mp inserted
    exact block_laidOut _
  · obtain ⟨key, -, rfl⟩ := mem_map.mp deleted
    trivial

theorem roots_pass_iff_none_topples_sample : ∃ trees : List (Holding blockCodec Workspace),
    IsChain Step (emptyHolding :: trees) ∧
      (∃ tree ∈ trees, reportsRoot blockCodec tree.state tree.root = true) ∧
      ¬ IsChain (fun before after => ¬ Holding.Topples before after) (emptyHolding :: trees) := by
  have run : (match performAll blockCodec 0 topplingCalls emptyWorkspace with
      | .ok (root, _, _) reached => reportsRoot blockCodec reached root
      | .error _ _ => false) = true := by decide +kernel
  cases ran : performAll blockCodec 0 topplingCalls emptyWorkspace with
  | error error reached =>
    rw [ran] at run
    cases run
  | ok result reached =>
    rw [ran] at run
    replace run : reportsRoot blockCodec reached result.1 = true := run
    obtain ⟨trees, history, last, isLast, rfl, root⟩ := exists_history blockCodec_lawful topplingCalls
      emptyHolding (fun call member items => toppling_promised items call member) ran
    have inTrees : last ∈ trees := by
      rcases mem_cons.mp (mem_of_getLast? isLast) with rfl | inside
      · rw [← root] at run
        cases run
      · exact inside
    have reported : reportsRoot blockCodec last.state last.root = true := root ▸ run
    refine ⟨trees, history, ⟨last, inTrees, reported⟩, fun none => ?_⟩
    have passes := (roots_pass_iff_none_topples blockCodec_lawful emptyHolding rfl trees history).mpr
      none last inTrees
    rw [reported] at passes
    cases passes

end IpRange.FixedTree
