import IpRange.FixedTreeRewrites
import IpRange.FixedTreeShape

/-!
Replacing records of one page, with a split where they do not fit, and carrying
the outcome up the path: new siblings and changed first keys reach the root.
-/

namespace IpRange.FixedTree

open Function List SlottedPage

variable {Key Leaf σ ρ : Type} [Store σ] {codec : Codec Key Leaf}

/-- The client holds a page of the highest level, which no root can be put above. -/
def TooTall (laws : StoreLaws σ) (state : σ) : Prop :=
  ∃ heap address page, laws.Owns state heap ∧ heap address = some page ∧ maxTreeLevel ≤ page.level

/-- The store's own failures, and growth that the format does not allow. -/
def StretchFails (laws : StoreLaws σ) (oversized : Prop) (error : Error) (state : σ) : Prop :=
  laws.Fails error state ∨
    TooTall laws state ∧ error = .invalidArgument "B+tree height limit reached" ∨
    oversized ∧ error = .invalidArgument "B+tree record cannot be split"

/-- A record that cannot be split needs leaf records longer than the longest branch record. -/
abbrev GrowthFails (laws : StoreLaws σ) (codec : Codec Key Leaf) : Error → σ → Prop :=
  StretchFails laws (maxTreeCell < codec.maxLeafSize)

variable {laws : StoreLaws σ} {error : Error} {state : σ} {heap : Heap}
  {level page txn height : Nat} {fail : Error → σ → Prop} {left new right : List Bytes} {old : Bytes}
  {entries : List (Entry codec)} {shape : Heap → Nat → Prop} {path : List (Level codec)}

theorem StretchFails.imp {oversized larger : Prop} (failed : StretchFails laws oversized error state)
    (wider : oversized → larger) :
    StretchFails laws larger error state :=
  failed.imp_right fun cause => cause.imp_right fun large => ⟨wider large.1, large.2⟩

section

variable (lawful : LawfulCodec codec)

include lawful

theorem branchBytes_write (entry : Entry codec) (child : Nat) (word : child < 2 ^ 32) :
    codec.writeBranch entry.key child = .ok (branchBytes codec entry.key child) ∧
      branchBytes codec entry.key child ≠ [] ∧
      (branchBytes codec entry.key child).length ≤ codec.maxBranchSize := by
  obtain ⟨cell, written, present, bounded, _⟩ := lawful.branchWrite entry child word
  have same : branchBytes codec entry.key child = cell := by simp [branchBytes, written]
  rw [same]
  exact ⟨written, present, bounded⟩

theorem branchCellBuf_eq (entry : Entry codec) (child : Nat) (word : child < 2 ^ 32) :
    branchCellBuf codec entry.key child = .ok (branchBytes codec entry.key child) := by
  obtain ⟨written, present, bounded⟩ := branchBytes_write lawful entry child word
  have size : (decide ((branchBytes codec entry.key child).length = 0) ||
      decide (codec.maxBranchSize < (branchBytes codec entry.key child).length)) = false := by
    simp [present]
    exact bounded
  simp only [branchCellBuf, written, bind, Except.bind, size, Bool.false_eq_true, if_false]

theorem branchBytes_reads (entry : Entry codec) (child level : Nat)
    (word : child < 2 ^ 32) (branch : level ≠ 0) :
    Reads codec level (branchBytes codec entry.key child) entry.key ∧
      codec.readBranchChild (branchBytes codec entry.key child) = .ok child := by
  obtain ⟨cell, written, present, _, layout, key, points⟩ := lawful.branchWrite entry child word
  have same : branchBytes codec entry.key child = cell := by simp [branchBytes, written]
  rw [same]
  exact ⟨⟨present, by simpa [layoutAt, branch] using layout, key level branch⟩, points⟩

theorem codec_sizes :
    codec.maxBranchSize ≤ maxTreeCell ∧ codec.maxBranchSize + 2 + headerSize ≤ pageSize ∧
      codec.maxLeafSize + 2 + headerSize ≤ pageSize := by
  have valid := lawful.valid
  unfold requireCodec at valid
  split at valid
  · cases valid
  · rename_i sizes
    simp only [Bool.or_eq_true, decide_eq_true_eq, not_or] at sizes
    omega

theorem alone_fits (cell : Bytes)
    (bounded : cell.length ≤ codec.maxBranchSize ∨ cell.length ≤ codec.maxLeafSize) :
    usedBytes [cell] ≤ pageSize := by
  have sizes := codec_sizes lawful
  simp only [usedBytes, length_singleton, payload_cons, payload_nil]
  omega

end

theorem entry_reads (entry : Entry codec) : Reads codec 0 entry.cell entry.key :=
  ⟨entry.present, by simpa [layoutAt] using entry.layout, entry.keyRead⟩

variable {cells : List Bytes}

theorem firstKey_spec (laws : StoreLaws σ) {born : Nat} {rest : List Bytes} {first : Bytes}
    {key : Key} {post : Key → σ → Prop} (owns : laws.Owns state heap)
    (holds : Holds heap laws.txn born level page codec cells) (height : level ≤ maxTreeLevel)
    (shape : cells = first :: rest) (reads : Reads codec level first key) (done : post key state) :
    Ensures (firstKey codec page level) state post fail := by
  subst shape
  have parsed := holds.parsed (some level) height (by simp)
  have found := keyAt_treePage codec born level (first :: rest) 0 key (by simp) reads
  simp only [firstKey, ensures_bind, ensures_get, laws.target owns]
  refine ensures_viewPage laws owns holds.stored ?_ done
  simp only [parsed, bind, Except.bind, found]

theorem Holds.of_update (positive : 0 < txn) (storable : Storable cells) :
    Holds (Function.update heap page (some (treePage codec txn level cells))) txn txn level page
      codec cells :=
  ⟨positive, Nat.le_refl _, storable, update_self _ _ _⟩

def partedHeap (codec : Codec Key Leaf) (heap : Heap) (txn level page : Nat) (cells : List Bytes)
    (middle fresh : Nat) : Heap :=
  Function.update
    (Function.update heap fresh (some (treePage codec txn level (cells.drop middle))))
    page (some (treePage codec txn level (cells.take middle)))

structure Parted (laws : StoreLaws σ) (codec : Codec Key Leaf) (heap : Heap) (level page : Nat)
    (cells : List Bytes) (middle fresh : Nat) (leftFirst rightFirst : Key) (reached : σ) :
    Prop where
  unused : heap fresh = none
  leftReads : ∃ rest, ∃ first, cells = first :: rest ∧ Reads codec level first leftFirst
  rightReads : ∃ first rest, cells.drop middle = first :: rest ∧
    Reads codec level first rightFirst
  owns : laws.Owns reached (partedHeap codec heap laws.txn level page cells middle fresh)

section Parts

variable (cells : List Bytes) (middle : Nat) {source : List Bytes} {fresh : Nat}
  (holds : Holds heap txn txn level page codec source) (unused : heap fresh = none)

include holds unused

variable {cells middle} in
theorem parted_holds (splits : SplitsAt cells middle) (present : ∀ record ∈ cells, record ≠ []) :
    page ≠ fresh ∧
      Holds (partedHeap codec heap txn level page cells middle fresh) txn txn level page codec
        (cells.take middle) ∧
      Holds (partedHeap codec heap txn level page cells middle fresh) txn txn level fresh codec
        (cells.drop middle) := by
  have different : page ≠ fresh := by
    rintro rfl
    rw [holds.stored] at unused
    cases unused
  exact ⟨different, Holds.of_update holds.positive (splits.storable_left present),
    (Holds.of_update holds.positive (splits.storable_right present)).congr
      (update_of_ne different.symm _ _)⟩

theorem parted_moves {pages : List Nat} (nodup : pages.Nodup)
    (held : ∀ address ∈ pages, heap address ≠ none) (inside : page ∈ pages) :
    Moves txn heap (partedHeap codec heap txn level page cells middle fresh) pages
        (fresh :: pages) ∧
      ∀ address ∈ pages, address ≠ page →
        partedHeap codec heap txn level page cells middle fresh address = heap address := by
  have outside : ∀ address ∈ pages, address ≠ fresh := fun address member same =>
    held address member (same ▸ unused)
  have allocated := Evolves.allocate nodup held unused (show ¬ Committed txn (treePage codec txn
    level (cells.drop middle)) from treePage_not_committed _ _ _)
  refine ⟨allocated.trans (Evolves.write allocated.nodup (mem_cons_of_mem _ inside)
    ((update_of_ne (outside page inside) _ _).trans holds.stored)
    (treePage_not_committed _ _ _) (treePage_not_committed _ _ _)), fun address member other => ?_⟩
  rw [partedHeap, update_of_ne other, update_of_ne (outside address member)]

end Parts

theorem parts_spec (laws : StoreLaws σ) {source : List Bytes} {middle : Nat}
    {build : Page → EStateM Error Page Unit} {trim : EStateM Error σ Unit} {post : Nat → σ → Prop}
    {oversized : Prop} (owns : laws.Owns state heap) (height : level ≤ maxTreeLevel)
    (holds : Holds heap laws.txn laws.txn level page codec source)
    (readable : Readable codec level cells) (splits : SplitsAt cells middle)
    (built : ∀ blank, build (treePage codec laws.txn level source) blank =
      .ok () (treePage codec laws.txn level (cells.drop middle)))
    (trims : ∀ reached after, laws.Owns reached after →
      after page = some (treePage codec laws.txn level source) →
      Ensures trim reached (fun _ next => laws.Owns next (Function.update after page
        (some (treePage codec laws.txn level (cells.take middle))))) laws.Fails)
    (done : ∀ fresh reached leftFirst rightFirst,
      Parted laws codec heap level page cells middle fresh leftFirst rightFirst reached →
      (∀ {post : Key → σ → Prop} {fail}, post leftFirst reached →
        Ensures (firstKey codec page level) reached post fail) →
      (∀ {post : Key → σ → Prop} {fail}, post rightFirst reached →
        Ensures (firstKey codec fresh level) reached post fail) → post fresh reached) :
    Ensures Store.allocate state (fun fresh reached =>
      Ensures (Store.copyPage page fresh build) reached (fun _ copied =>
        Ensures trim copied (fun _ => post fresh) (StretchFails laws oversized))
        (StretchFails laws oversized)) (StretchFails laws oversized) := by
  refine (laws.allocate owns).impOr ?_
  rintro fresh reached ⟨unused, blank, blankPrivate, ownsFresh⟩
  obtain ⟨different, leftHolds, rightHolds⟩ := parted_holds holds unused splits readable.present
  have stored : ∀ content, Function.update heap fresh content page =
      some (treePage codec laws.txn level source) := fun content =>
    (update_of_ne different _ _).trans holds.stored
  refine (laws.copy ownsFresh (stored _) (update_self _ _ _) different blankPrivate
    (built blank) (treePage_ownedBy _ _ _)).impOr ?_
  intro _ copied ownsRight
  rw [update_idem] at ownsRight
  refine (trims copied _ ownsRight (stored _)).impOr fun _ cut ownsBoth => ?_
  obtain ⟨first, rest, leftCells⟩ := exists_cons_of_ne_nil leftHolds.storable.inhabited
  obtain ⟨next, others, rightCells⟩ := exists_cons_of_ne_nil rightHolds.storable.inhabited
  have allCells : cells = first :: (rest ++ next :: others) := by
    rw [← take_append_drop middle cells, leftCells, rightCells]
    rfl
  obtain ⟨leftFirst, leftReads⟩ := readable first (by rw [allCells]; simp)
  obtain ⟨rightFirst, rightReads⟩ := readable next (by rw [allCells]; simp)
  exact done fresh cut leftFirst rightFirst
    ⟨unused, ⟨_, _, allCells, leftReads⟩, ⟨_, _, rightCells, rightReads⟩, ownsBoth⟩
    (firstKey_spec laws ownsBoth leftHolds height leftCells leftReads)
    (firstKey_spec laws ownsBoth rightHolds height rightCells rightReads)

/-- A page with replaced records: it holds all `cells`, or those before a split point and a new
page the others. -/
inductive Replaced (laws : StoreLaws σ) (codec : Codec Key Leaf) (heap : Heap) (level page : Nat)
    (cells : List Bytes) : Option (BranchSplit Key) → σ → Prop where
  | whole (reached : σ) (storable : Storable cells)
      (owns : laws.Owns reached
        (Function.update heap page (some (treePage codec laws.txn level cells)))) :
      Replaced laws codec heap level page cells none reached
  | split (reached : σ) (split : BranchSplit Key) (middle : Nat) (at_ : SplitsAt cells middle)
      (unused : heap split.rightPage = none) (sameLevel : split.level = level)
      (leftReads : ∃ rest, ∃ first, cells = first :: rest ∧ Reads codec level first split.leftFirst)
      (rightReads : ∃ first rest, cells.drop middle = first :: rest ∧
        Reads codec level first split.rightFirst)
      (owns : laws.Owns reached (Function.update
        (Function.update heap split.rightPage
          (some (treePage codec laws.txn level (cells.drop middle))))
        page (some (treePage codec laws.txn level (cells.take middle))))) :
      Replaced laws codec heap level page cells (some split) reached

section Replacing

variable (laws : StoreLaws σ) (oversized : Prop) (lawful : LawfulCodec codec)
  (owns : laws.Owns state heap) (shallow : level ≤ maxTreeLevel)
  (holds : Holds heap laws.txn laws.txn level page codec (left ++ old :: right))
  (readable : Readable codec level (left ++ old :: right)) (reads : Readable codec level new)
  (some_ : new ≠ []) (few : new.length ≤ 3)
  (small : ¬ oversized → ∀ cell ∈ left ++ new ++ right, cell.length ≤ maxTreeCell)
include lawful owns shallow holds readable reads some_ few small

theorem splitReplacement_spec (several : 2 ≤ (left ++ new ++ right).length)
    (full : ¬ usedBytes (left ++ new ++ right) ≤ pageSize) :
    Ensures (splitReplacement codec page (filledHeader level (left ++ old :: right))
        { index := left.length, cells := new }) state
      (Replaced laws codec heap level page (left ++ new ++ right)) (StretchFails laws oversized) := by
  have readsAll : Readable codec level (left ++ new ++ right) := forall_replaced readable reads
  have chosen := replacementSplitIndex_treePage laws.txn level left new right old readable lawful
    reads some_ several
  unfold splitReplacement
  simp only [ensures_bind, viewPage, ensures_get, laws.inspect owns holds.stored,
    ensures_liftResult_ok]
  rcases chosen with ⟨middle, found, splits⟩ | failed
  · rw [found, ensures_liftResult_ok]
    refine parts_spec laws owns shallow holds readsAll splits (fun blank => ?_)
      (fun copied after ownsRight stored => ?_)
      fun fresh cut leftFirst rightFirst parted left right => ?_
    · exact buildReplacement_treePage laws.txn level _ _ _ _ readable blank middle some_
        reads.present splits
    · have kept := keepLeftCells_treePage laws.txn level _ _ _ _ readable lawful shallow
        laws.txnPositive laws.txnWord middle some_ reads.present holds.storable.fits splits
      exact (laws.update ownsRight stored (writable_treePage laws _ _) kept
        (treePage_ownedBy _ _ _)).imp fun _ _ written => written.2
    · exact right (left (.split cut _ middle splits parted.unused rfl parted.leftReads
        parted.rightReads parted.owns))
  · rw [failed.2, ensures_liftResult_error]
    refine Or.inr (Or.inr ⟨?_, rfl⟩)
    by_contra bounded
    obtain ⟨middle, splits⟩ := exists_split_of_few holds.storable.fits few (small bounded) full
    exact failed.1 middle splits

theorem applyReplacement_spec (alone : ∀ cell ∈ new, usedBytes [cell] ≤ pageSize) :
    Ensures (applyReplacement codec page (filledHeader level (left ++ old :: right))
        { index := left.length, cells := new }) state
      (Replaced laws codec heap level page (left ++ new ++ right)) (StretchFails laws oversized) := by
  have readsAll : Readable codec level (left ++ new ++ right) := forall_replaced readable reads
  have measured := replacementFits_treePage laws.txn level left new right old readable some_
    holds.storable.fits
  unfold applyReplacement
  simp only [ensures_bind]
  refine ensures_viewPage laws owns holds.stored measured ?_
  by_cases fits : usedBytes (left ++ new ++ right) ≤ pageSize
  · have storable : Storable (left ++ new ++ right) := ⟨by simp [some_], readsAll.present, fits⟩
    have applied := applyCells_treePage codec laws.txn level shallow laws.txnPositive
      laws.txnWord left new right old some_ readable reads.present fits holds.storable.fits
    simp only [fits, decide_true, if_true, ensures_bind]
    refine (laws.update owns holds.stored (writable_treePage laws _ _) applied
      (treePage_ownedBy _ _ _)).impOr ?_
    rintro _ reached ⟨-, ownsWhole⟩
    exact .whole reached storable ownsWhole
  · simp only [fits, decide_false, Bool.false_eq_true, if_false]
    exact splitReplacement_spec laws oversized lawful owns shallow holds readable reads some_ few small
      (two_of_full left new right some_ alone fits) fits

end Replacing

theorem node_reads [PageSource ρ] (lawful : LawfulCodec codec) {state : ρ} {node : Node codec}
    (views : Views state txn heap) (tree : TreeAt heap txn height node) (level : Nat)
    (branch : level ≠ 0) :
    Reads codec level node.cell node.first.key ∧ codec.readBranchChild node.cell = .ok node.page ∧
      node.cell.length ≤ codec.maxBranchSize := by
  obtain ⟨born, cells, holds⟩ := tree.stored
  have word := views.word holds.stored
  obtain ⟨reads, points⟩ := branchBytes_reads lawful node.first node.page level word branch
  exact ⟨reads, points, (branchBytes_write lawful node.first node.page word).2.2⟩

theorem nodes_readable [PageSource ρ] (lawful : LawfulCodec codec) {state : ρ}
    {kids : List (Node codec)} (views : Views state txn heap)
    (trees : ∀ kid ∈ kids, TreeAt heap txn height kid) (level : Nat) (branch : level ≠ 0) :
    Readable codec level (kids.map Node.cell) := by
  intro cell member
  obtain ⟨kid, inKids, rfl⟩ := mem_map.mp member
  exact ⟨_, (node_reads lawful views (trees kid inKids) level branch).1⟩

theorem branchChild_at [PageSource ρ] (lawful : LawfulCodec codec) {state : ρ} {kid : Node codec}
    {index : Nat} (born limit : Nat) (views : Views state txn heap)
    (tree : TreeAt heap txn height kid) (readable : Readable codec (height + 1) cells)
    (here : cells[index]? = some kid.cell) (limit_ : limit = PageSource.selectedPageLimit state) :
    branchChild codec (treePage codec born (height + 1) cells) (filledHeader (height + 1) cells)
      index limit = .ok kid.page := by
  obtain ⟨inside, found⟩ := List.getElem?_eq_some_iff.mp here
  obtain ⟨kidBorn, kidCells, holds⟩ := tree.stored
  subst limit_
  exact branchChild_treePage born (height + 1) cells index _ kid.page (by omega) inside readable
    (by rw [found]; exact (node_reads lawful views tree (height + 1) (by omega)).2.1)
    (views.bounds holds.stored).1 (views.bounds holds.stored).2

theorem level_readable [PageSource ρ] (lawful : LawfulCodec codec) {state : ρ} {hole : Nat}
    {fence : Key} {level : Level codec} (views : Views state txn heap)
    (known : ∃ entry : Entry codec, entry.key = fence) (word : hole < 2 ^ 32)
    (siblings : ∀ kid ∈ level.siblings, TreeAt heap txn height kid) :
    Readable codec (height + 1) (level.cells fence hole) := by
  obtain ⟨entry, rfl⟩ := known
  intro cell member
  simp only [Level.cells, mem_append, mem_cons] at member
  rcases member with inLeft | same | inRight
  · exact nodes_readable lawful views
      (fun kid inKids => siblings kid (by simp [Level.siblings, inKids])) _ (by omega) cell inLeft
  · exact ⟨_, same ▸ (branchBytes_reads lawful entry hole (height + 1) word (by omega)).1⟩
  · exact nodes_readable lawful views
      (fun kid inKids => siblings kid (by simp [Level.siblings, inKids])) _ (by omega) cell inRight

theorem branchAt_spec (laws : StoreLaws σ) (lawful : LawfulCodec codec) {hole : Nat} {page : Page}
    {fence : Key} {level : Level codec} {rest : List (Level codec)} {post : Header × Nat → σ → Prop}
    (owns : laws.Owns state heap) (held : heap hole = some page)
    (context : ContextAt heap laws.txn height hole fence (level :: rest))
    (bound : height + 1 ≤ maxTreeLevel)
    (done : post (filledHeader (height + 1) (level.cells fence hole), hole) state) :
    Ensures (branchAt codec level.frame) state post fail := by
  obtain ⟨known, holds, siblings, above⟩ := context
  have word := laws.word owns held
  have readable := level_readable lawful (laws.views owns) known word siblings
  obtain ⟨entry, rfl⟩ := known
  have parsed := holds.parsed none bound (by simp)
  have index : level.left.length < (level.cells entry.key hole).length := by simp [Level.cells]
  have points : codec.readBranchChild (level.cells entry.key hole)[level.left.length] = .ok hole := by
    simpa [Level.cells] using
      (branchBytes_reads lawful entry hole (height + 1) word (by omega)).2
  have child := branchChild_treePage laws.txn (height + 1) (level.cells entry.key hole)
    level.left.length (Store.pageLimit state) hole (by omega) index readable points
    (laws.bounds owns held).1 (laws.bounds owns held).2
  simp only [branchAt, ensures_bind, ensures_get, laws.target owns]
  refine ensures_viewPage laws owns holds.stored ?_ done
  simp only [parsed, bind, Except.bind, Level.frame, child]

def Rebuilt (laws : StoreLaws σ) (heap : Heap) (held : List Nat) (entries : List (Entry codec))
    (shape : Heap → Nat → Prop) (root : Nat) (reached : σ) : Prop :=
  ∃ after kept, laws.Owns reached after ∧ RootAt after laws.txn root entries kept ∧
    Moves laws.txn heap after held kept ∧ shape after root

theorem Rebuilt.trans {middle : Heap} {held between : List Nat} {other : Heap → Nat → Prop}
    {root : Nat} {reached : σ} (moves : Moves laws.txn heap middle held between)
    (rebuilt : Rebuilt laws middle between entries shape root reached)
    (weaker : ∀ after top, shape after top → other after top) :
    Rebuilt laws heap held entries other root reached := by
  obtain ⟨after, kept, owns, tree, more, shaped⟩ := rebuilt
  exact ⟨after, kept, owns, tree, moves.trans more, weaker _ _ shaped⟩

theorem Rebuilt.imp {held : List Nat} {root : Nat} {reached : σ}
    (rebuilt : Rebuilt laws heap held entries shape root reached) (other : Heap → Nat → Prop)
    (weaker : ∀ after top, shape after top → other after top) :
    Rebuilt laws heap held entries other root reached := by
  obtain ⟨after, kept, owns, tree, moves, shaped⟩ := rebuilt
  exact ⟨after, kept, owns, tree, moves, weaker _ _ shaped⟩

variable (codec) in
def Widens (alone : Prop) (path : List (Level codec)) (after : Heap) (root : Nat) : Prop :=
  Lonely codec after root → Narrow alone path

theorem Widens.mono {alone other : Prop} (weaker : alone → other) (after : Heap) (root : Nat)
    (widens : Widens codec alone path after root) :
    Widens codec other path after root :=
  fun lonely => (widens lonely).mono weaker

theorem rebuilt_plug (laws : StoreLaws σ) {node : Node codec} (owns : laws.Owns state heap)
    (tree : TreeAt heap laws.txn height node)
    (context : ContextAt heap laws.txn height node.page node.first.key path)
    (nodup : (node.pages ++ contextPages path).Nodup) (bound : height + path.length ≤ maxTreeLevel) :
    Rebuilt laws heap (node.pages ++ contextPages path)
      (entriesBefore path ++ node.entries ++ entriesAfter path)
      (Widens codec (Lonely codec heap node.page) path) (rootOf node.page path) state := by
  obtain ⟨top, whole, page, entries, pages⟩ := plug tree context
  refine ⟨heap, top.pages, owns, Or.inr ⟨_, top, bound, whole, page, entries, rfl⟩, ?_,
    context.narrow⟩
  exact (Evolves.refl nodup).congr (fun _ => Iff.rfl) pages

section Climb

variable (laws : StoreLaws σ)

def FirstSpec (codec : Codec Key Leaf) (path : List (Level codec)) : Prop :=
  ∀ (height : Nat) (heap : Heap) (state : σ) (node : Node codec) (fence : Key),
    laws.Owns state heap → TreeAt heap laws.txn height node →
    ContextAt heap laws.txn height node.page fence path →
    (node.pages ++ contextPages path).Nodup → height + path.length ≤ maxTreeLevel →
    Ensures (propagateFirst codec (rootOf node.page path) (path.map Level.frame) node.first.key)
      state (Rebuilt laws heap (node.pages ++ contextPages path)
        (entriesBefore path ++ node.entries ++ entriesAfter path)
        (Widens codec (Lonely codec heap node.page) path)) (StretchFails laws False)

def SplitSpec (codec : Codec Key Leaf) (path : List (Level codec)) : Prop :=
  ∀ (height : Nat) (heap : Heap) (state : σ) (left right : Node codec) (fence : Key),
    laws.Owns state heap → TreeAt heap laws.txn height left → TreeAt heap laws.txn height right →
    ContextAt heap laws.txn height left.page fence path →
    (left.pages ++ right.pages ++ contextPages path).Nodup →
    height + path.length ≤ maxTreeLevel →
    Ensures (propagateSplit codec (rootOf left.page path) (path.map Level.frame) left.page
        left.first.key right.page right.first.key height)
      state (Rebuilt laws heap (left.pages ++ right.pages ++ contextPages path)
        (entriesBefore path ++ (left.entries ++ right.entries) ++ entriesAfter path)
        (Widens codec False path)) (StretchFails laws False)

def climb (codec : Codec Key Leaf) (root : Nat) (frame : Frame) (rest : List Frame) (key : Key) :
    Option (BranchSplit Key) → EStateM Error σ Nat
  | none => if frame.index = 0 then propagateFirst codec root rest key else pure root
  | some split =>
    propagateSplit codec root rest frame.pageNumber split.leftFirst split.rightPage
      split.rightFirst split.level

theorem propagateSplit_cons (root leftPage rightPage childLevel : Nat) (frame : Frame)
    (rest : List Frame) (leftFirst rightFirst : Key) :
    (propagateSplit codec root (frame :: rest) leftPage leftFirst rightPage rightFirst childLevel :
        EStateM Error σ Nat) =
      insertBranch codec frame leftFirst rightPage rightFirst >>=
        climb codec root frame rest leftFirst := by
  rw [propagateSplit]
  congr 1

theorem propagateFirst_cons (root : Nat) (frame : Frame) (rest : List Frame) (key : Key) :
    (propagateFirst codec root (frame :: rest) key : EStateM Error σ Nat) =
      replaceFirstBranch codec frame key >>= climb codec root frame rest key := by
  rw [propagateFirst]
  congr 1
  funext result
  cases result with
  | some split => rfl
  | none =>
    simp only [climb]
    by_cases first : frame.index = 0 <;> simp [first]

theorem level_pages_perm (level : Level codec) (new : List (Node codec))
    (rest : List (Level codec)) :
    (level.page :: ((level.left ++ new ++ level.right).flatMap Node.pages ++
      contextPages rest)).Perm (new.flatMap Node.pages ++ contextPages (level :: rest)) := by
  simp only [contextPages, flatMap_cons, Level.pages, Level.siblings, flatMap_append]
  refine perm_iff_count.mpr fun address => ?_
  simp only [count_append, count_cons, cons_append]
  omega

variable {heap : Heap} {height hole : Nat} {level : Level codec} {new : List (Node codec)}
  {rest : List (Level codec)} {state : σ} {fence : Key}

theorem level_kids {txn : Nat} (siblings : ∀ kid ∈ level.siblings, TreeAt heap txn height kid)
    (trees : ∀ node ∈ new, TreeAt heap txn height node) :
    ∀ kid ∈ level.left ++ new ++ level.right, TreeAt heap txn height kid := by
  rw [Level.siblings, forall_mem_append] at siblings
  simp only [forall_mem_append]
  exact ⟨⟨siblings.1, trees⟩, siblings.2⟩

theorem level_outside (nodup : (new.flatMap Node.pages ++ contextPages (level :: rest)).Nodup) :
    ∀ address ∈ (level.left ++ new ++ level.right).flatMap Node.pages ++ contextPages rest,
      address ≠ level.page ∧
        address ∈ new.flatMap Node.pages ++ contextPages (level :: rest) := by
  have perm := level_pages_perm level new rest
  have nodup_ := nodup_cons.mp (perm.nodup_iff.mpr nodup)
  intro address member
  exact ⟨fun same => nodup_.1 (same ▸ member), perm.mem_iff.mp (mem_cons_of_mem _ member)⟩

def Climbed (heap : Heap) (level : Level codec) (new : List (Node codec))
    (rest : List (Level codec)) : Nat → σ → Prop :=
  Rebuilt laws heap (new.flatMap Node.pages ++ contextPages (level :: rest))
    (entriesBefore rest ++ (level.left ++ new ++ level.right).flatMap Node.entries ++
      entriesAfter rest)
    (Widens codec ((level.left ++ new ++ level.right).length = 1) rest)

theorem stored_key (lawful : LawfulCodec codec) {page : Nat} {kids : List (Node codec)}
    {some_ : kids ≠ []} {cell : Bytes} {others more : List Bytes} {key : Key}
    (owns : laws.Owns state heap) (trees : ∀ kid ∈ kids, TreeAt heap laws.txn height kid)
    (level : Nat) (branch : level ≠ 0) (shape : kids.map Node.cell ++ more = cell :: others)
    (reads : Reads codec level cell key) :
    key = (join page kids some_).first.key := by
  rw [join_first]
  cases kids with
  | nil => exact absurd rfl some_
  | cons kid rest =>
    have same : kid.cell = cell := (List.cons.inj shape).1
    have stored := (node_reads lawful (laws.views owns) (trees kid (by simp)) level branch).1
    have both := stored.read.symm.trans (same ▸ reads.read)
    exact (Except.ok.inj both).symm

section Replaced

variable (some_ : new ≠ []) (context : ContextAt heap laws.txn height hole fence (level :: rest))
  (trees : ∀ node ∈ new, TreeAt heap laws.txn height node)
  (nodup : (new.flatMap Node.pages ++ contextPages (level :: rest)).Nodup)
  (bound : height + 1 + rest.length ≤ maxTreeLevel)

include context trees nodup bound

theorem climb_whole (first : FirstSpec laws codec rest)
    (outcome : Replaced laws codec heap (height + 1) level.page
      ((level.left ++ new ++ level.right).map Node.cell) none state) :
    Ensures (climb codec (rootOf level.page rest) level.frame (rest.map Level.frame)
        (new.head some_).first.key none) state
      (Climbed laws heap level new rest) (StretchFails laws False) := by
  obtain ⟨storable, owns⟩ : Storable ((level.left ++ new ++ level.right).map Node.cell) ∧
      laws.Owns state (Function.update heap level.page (some (treePage codec laws.txn (height + 1)
        ((level.left ++ new ++ level.right).map Node.cell)))) := by
    cases outcome with
    | whole _ storable owns => exact ⟨storable, owns⟩
  obtain ⟨known, holds, siblings, above⟩ := context
  have all : level.left ++ new ++ level.right ≠ [] := by simp [some_]
  have perm := level_pages_perm level new rest
  have nodup_ := perm.nodup_iff.mpr nodup
  have outside := level_outside nodup
  generalize written : Function.update heap level.page _ = after at owns
  have parent : TreeAt after laws.txn (height + 1)
      (join level.page (level.left ++ new ++ level.right) all) := by
    subst written
    refine treeAt_join all (Holds.of_update laws.txnPositive storable) ?_
    intro kid member
    refine (level_kids siblings trees kid member).congr fun address inKid =>
      update_of_ne (outside address ?_).1 _ _
    exact mem_append_left _ (mem_flatMap.mpr ⟨kid, member, inKid⟩)
  have higher : ContextAt after laws.txn (height + 1) level.page (level.fence fence) rest := by
    subst written
    exact above.congr fun address member =>
      update_of_ne (outside address (mem_append_right _ member)).1 _ _
  have moves : Moves laws.txn heap after (new.flatMap Node.pages ++ contextPages (level :: rest))
      ((join level.page (level.left ++ new ++ level.right) all).pages ++ contextPages rest) := by
    subst written
    exact (Evolves.write nodup (by simp [contextPages, Level.pages]) holds.stored
      (treePage_not_committed _ _ _) (treePage_not_committed _ _ _)).congr (fun _ => Iff.rfl) perm
  have key := join_fence level new some_ all
  have alone : Lonely codec after level.page → (level.left ++ new ++ level.right).length = 1 := by
    intro lonely
    subst written
    simpa using ((lonely_iff (update_self _ _ _)).mp lonely).2
  by_cases edge : level.left = []
  · -- the hole is the first child, so the parent's own record changes too
    have zero : level.frame.index = 0 := by simp [Level.frame, edge]
    have same : (new.head some_).first.key =
        (join level.page (level.left ++ new ++ level.right) all).first.key := by
      rw [key]
      simp [Level.fence, edge]
    simp only [climb, zero, if_true, same]
    exact (first (height + 1) _ state _ _ owns parent higher nodup_ bound).imp
      fun root reached rebuilt => Rebuilt.trans moves rebuilt (Widens.mono alone)
  · have inner : ¬ level.frame.index = 0 := by simp [Level.frame, edge]
    have same : (join level.page (level.left ++ new ++ level.right) all).first.key =
        level.fence fence := by
      rw [key]
      obtain ⟨kid, others, shape⟩ := exists_cons_of_ne_nil edge
      simp [Level.fence, shape]
    simp only [climb, inner, if_false, ensures_pure]
    exact Rebuilt.trans moves
      (rebuilt_plug laws owns parent (by rw [same]; exact higher) nodup_ bound) (Widens.mono alone)

theorem climb_split {key : Key} {split : BranchSplit Key} (lawful : LawfulCodec codec) {before : σ}
    (ownsBefore : laws.Owns before heap) (next : SplitSpec laws codec rest)
    (outcome : Replaced laws codec heap (height + 1) level.page
      ((level.left ++ new ++ level.right).map Node.cell) (some split) state) :
    Ensures (climb codec (rootOf level.page rest) level.frame (rest.map Level.frame) key
        (some split)) state
      (Climbed laws heap level new rest) (StretchFails laws False) := by
  have whole := context
  obtain ⟨known, holds, siblings, above⟩ := context
  obtain _ | ⟨_, _, middle, splits, unused, sameLevel, leftReads, rightReads, owns⟩ := outcome
  have kidTrees := level_kids siblings trees
  have readable := nodes_readable lawful (laws.views ownsBefore) kidTrees (height + 1) (by omega)
  have heldPages : ∀ address ∈ new.flatMap Node.pages ++ contextPages (level :: rest),
      heap address ≠ none := by
    intro address member
    rcases mem_append.mp member with inNew | inPath
    · obtain ⟨node, inNodes, inNode⟩ := mem_flatMap.mp inNew
      exact (trees node inNodes).held address inNode
    · exact whole.held address inPath
  have outside := level_outside nodup
  have pagesPerm := level_pages_perm level new rest
  unfold Climbed
  generalize level.left ++ new ++ level.right = kids at *
  obtain ⟨_, leftHolds, rightHolds⟩ := parted_holds holds unused splits readable.present
  obtain ⟨moved, unchanged⟩ := parted_moves (kids.map Node.cell) middle holds unused nodup
    heldPages (by simp [contextPages, Level.pages])
  change laws.Owns state (partedHeap codec heap laws.txn (height + 1) level.page
    (kids.map Node.cell) middle split.rightPage) at owns
  generalize partedHeap codec heap laws.txn (height + 1) level.page (kids.map Node.cell) middle
    split.rightPage = after at owns leftHolds rightHolds moved unchanged
  rw [← map_take] at leftHolds
  rw [← map_drop] at rightHolds rightReads
  have leftSome : kids.take middle ≠ [] := fun none =>
    leftHolds.storable.inhabited (by simp [none])
  have rightSome : kids.drop middle ≠ [] := fun none =>
    rightHolds.storable.inhabited (by simp [none])
  have cut := congrArg (List.flatMap Node.pages) (take_append_drop middle kids)
  have cutEntries := congrArg (List.flatMap Node.entries) (take_append_drop middle kids)
  rw [flatMap_append] at cut cutEntries
  have perm : ((join level.page (kids.take middle) leftSome).pages ++
      (join split.rightPage (kids.drop middle) rightSome).pages ++ contextPages rest).Perm
      (split.rightPage :: (new.flatMap Node.pages ++ contextPages (level :: rest))) := by
    refine List.Perm.trans ?_ (List.Perm.cons _ pagesPerm)
    simp only [join, Node.pages, ← cut]
    refine perm_iff_count.mpr fun address => ?_
    simp only [count_append, count_cons, cons_append]
    omega
  have moves := moved.congr (fun _ => Iff.rfl) perm
  have same : ∀ address ∈ kids.flatMap Node.pages ++ contextPages rest,
      after address = heap address := fun address member =>
    unchanged address (outside address member).2 (outside address member).1
  have kept : ∀ kid ∈ kids, TreeAt after laws.txn height kid := fun kid member =>
    (kidTrees kid member).congr fun address inKid =>
      same address (mem_append_left _ (mem_flatMap.mpr ⟨kid, member, inKid⟩))
  have leftTree := treeAt_join leftSome leftHolds fun kid member =>
    kept kid (mem_of_mem_take member)
  have rightTree := treeAt_join rightSome rightHolds fun kid member =>
    kept kid (mem_of_mem_drop member)
  have higher := above.congr fun address member => same address (mem_append_right _ member)
  have leftKey : split.leftFirst = (join level.page (kids.take middle) leftSome).first.key := by
    obtain ⟨others, cell, shape, reads⟩ := leftReads
    rw [← take_append_drop middle kids, map_append] at shape
    exact stored_key laws lawful ownsBefore
      (fun kid member => kidTrees kid (mem_of_mem_take member)) _ (by omega) shape reads
  have rightKey : split.rightFirst =
      (join split.rightPage (kids.drop middle) rightSome).first.key := by
    obtain ⟨cell, others, shape, reads⟩ := rightReads
    exact stored_key laws lawful ownsBefore
      (fun kid member => kidTrees kid (mem_of_mem_drop member)) _ (by omega)
      (by rw [append_nil]; exact shape) reads
  have run := next (height + 1) _ state _ _ _ owns leftTree rightTree higher moves.nodup bound
  simp only [climb, sameLevel, leftKey, rightKey]
  refine run.imp fun root reached rebuilt => ?_
  rw [← cutEntries]
  exact Rebuilt.trans moves rebuilt (Widens.mono False.elim)

theorem replaceHole_spec (lawful : LawfulCodec codec) {page : Page}
    (first : FirstSpec laws codec rest) (next : SplitSpec laws codec rest)
    (owns : laws.Owns state heap) (held : heap hole = some page) (few : new.length ≤ 3) :
    Ensures (applyReplacement codec level.frame.pageNumber
          (filledHeader (height + 1) (level.cells fence hole))
          { index := level.frame.index, cells := new.map Node.cell } >>=
        climb codec (rootOf level.page rest) level.frame (rest.map Level.frame)
          (new.head some_).first.key) state
      (Climbed laws heap level new rest) (StretchFails laws False) := by
  obtain ⟨known, holds, siblings, above⟩ := id context
  have readable := level_readable lawful (laws.views owns) known (laws.word owns held) siblings
  have replaced := applyReplacement_spec laws False lawful owns (by omega) holds readable
    (nodes_readable lawful (laws.views owns) trees (height + 1) (by omega)) (by simpa using some_)
    (by simpa using few) (by
      intro _ cell member
      rw [← map_append, ← map_append] at member
      obtain ⟨kid, inKids, rfl⟩ := mem_map.mp member
      exact le_trans (node_reads lawful (laws.views owns) (level_kids siblings trees kid inKids)
        (height + 1) (by omega)).2.2 (codec_sizes lawful).1) (by
      intro cell member
      obtain ⟨node, inNew, rfl⟩ := mem_map.mp member
      exact alone_fits lawful _
        (Or.inl (node_reads lawful (laws.views owns) (trees node inNew) (height + 1) (by omega)).2.2))
  rw [← map_append, ← map_append, length_map] at replaced
  rw [ensures_bind]
  refine Ensures.imp replaced ?_
  intro result reached outcome
  cases result with
  | none => exact climb_whole laws some_ context trees nodup bound first outcome
  | some split => exact climb_split laws context trees nodup bound lawful owns next outcome

end Replaced

theorem newRoot_spec (lawful : LawfulCodec codec) {left right : Node codec}
    (owns : laws.Owns state heap) (leftTree : TreeAt heap laws.txn height left)
    (rightTree : TreeAt heap laws.txn height right) (nodup : (left.pages ++ right.pages).Nodup) :
    Ensures (newRoot codec left.page left.first.key right.page right.first.key (height + 1)) state
      (Rebuilt laws heap (left.pages ++ right.pages) (left.entries ++ right.entries)
        fun after root => ¬ Lonely codec after root) (StretchFails laws False) := by
  unfold newRoot
  by_cases tall : maxTreeLevel < height + 1
  · rw [if_pos tall, ensures_throw]
    obtain ⟨born, cells, holds⟩ := leftTree.stored
    exact Or.inr (Or.inl ⟨⟨heap, _, _, owns, holds.stored, Nat.lt_succ_iff.mp tall⟩, rfl⟩)
  · rw [if_neg tall, ensures_bind]
    refine (laws.allocate owns).impOr ?_
    rintro fresh reached ⟨unused, blank, blankPrivate, ownsFresh⟩
    obtain ⟨leftBorn, leftCells, leftHolds⟩ := leftTree.stored
    obtain ⟨rightBorn, rightCells, rightHolds⟩ := rightTree.stored
    have both : ∀ kid ∈ [left, right], TreeAt heap laws.txn height kid := by
      simp [leftTree, rightTree]
    have readable := nodes_readable lawful (laws.views owns) both (height + 1) (by omega)
    have storable : Storable [left.cell, right.cell] := by
      refine ⟨by simp, readable.present, ?_⟩
      have leftSize := (node_reads lawful (laws.views owns) leftTree (height + 1) (by omega)).2.2
      have rightSize := (node_reads lawful (laws.views owns) rightTree (height + 1) (by omega)).2.2
      have sizes := (codec_sizes lawful).1
      simp only [usedBytes, length_cons, length_nil, payload_cons, payload_nil, pageSize,
        headerSize, maxTreeCell] at sizes ⊢
      omega
    have built := build_filledPage blank codec.branchType laws.txn (height + 1) codec.aux
      [left.cell, right.cell] storable
    have pageType : codec.branchType = pageTypeAt codec (height + 1) := by simp [pageTypeAt]
    rw [pageType] at built
    simp only [ensures_bind, branchCellBuf_eq lawful left.first left.page
      (laws.word owns leftHolds.stored), branchCellBuf_eq lawful right.first right.page
      (laws.word owns rightHolds.stored), ensures_liftResult_ok, ensures_get,
      laws.target ownsFresh, pageType]
    refine (laws.update ownsFresh (update_self _ _ _) blankPrivate built
      (treePage_ownedBy _ _ _)).impOr ?_
    rintro _ done ⟨-, ownsRoot⟩
    rw [update_idem] at ownsRoot
    have heldPages : ∀ address ∈ left.pages ++ right.pages, heap address ≠ none := by
      intro address member
      rcases mem_append.mp member with inLeft | inRight
      · exact leftTree.held address inLeft
      · exact rightTree.held address inRight
    have moves : Moves laws.txn heap (Function.update heap fresh (some (treePage codec laws.txn
        (height + 1) [left.cell, right.cell]))) _ _ :=
      Evolves.allocate nodup heldPages unused (treePage_not_committed _ _ _)
    have tree : TreeAt (Function.update heap fresh (some (treePage codec laws.txn (height + 1)
        [left.cell, right.cell]))) laws.txn (height + 1) (join fresh [left, right] (by simp)) :=
      treeAt_join (by simp) (Holds.of_update laws.txnPositive storable) fun kid member =>
        (both kid member).congr fun address inKid => update_of_ne (fun same => by
          subst same
          exact (both kid member).held _ inKid unused) _ _
    refine ⟨_, _, ownsRoot, Or.inr ⟨height + 1, _, by omega, tree, rfl, ?_, rfl⟩, ?_, ?_⟩
    · simp [join]
    · have pages : (join fresh [left, right] (by simp)).pages =
          fresh :: (left.pages ++ right.pages) := by
        simp [join, Node.pages]
      rw [pages]
      exact moves
    · intro lonely
      have single := ((lonely_iff (update_self _ _ _)).mp lonely).2
      simp at single

theorem propagate_specs (lawful : LawfulCodec codec) (path : List (Level codec)) :
    FirstSpec laws codec path ∧ SplitSpec laws codec path := by
  induction path with
  | nil =>
    refine ⟨?_, ?_⟩
    · intro height heap state node fence owns tree _ nodup bound
      rw [map_nil, propagateFirst, ensures_pure]
      exact rebuilt_plug laws owns tree trivial nodup bound
    · intro height heap state left right fence owns leftTree rightTree _ nodup bound
      rw [map_nil, propagateSplit]
      have run := newRoot_spec laws lawful owns leftTree rightTree
        (by simpa [contextPages] using nodup)
      have shaped := run.imp fun root reached rebuilt =>
        rebuilt.imp (Widens codec False []) fun after top wide lonely => wide lonely
      simpa [contextPages, entriesBefore, entriesAfter] using shaped
  | cons level rest ih =>
    obtain ⟨first, next⟩ := ih
    refine ⟨?_, ?_⟩
    · intro height heap state node fence owns tree context nodup bound
      rw [length_cons] at bound
      obtain ⟨born, cells, holds⟩ := tree.stored
      have replaced := replaceHole_spec laws (cons_ne_nil node []) context
        (by simpa using tree) (by simpa using nodup) (by omega) lawful first next owns holds.stored
        (by simp)
      have lone : (level.left ++ [node] ++ level.right).length = 1 → level.siblings = [] := by
        intro single
        simp only [length_append, length_singleton] at single
        exact length_eq_zero_iff.mp (by rw [Level.siblings, length_append]; omega)
      replace replaced := replaced.imp fun root reached rebuilt =>
        rebuilt.imp (Widens codec (Lonely codec heap node.page) (level :: rest))
          fun after top widens lonely => (widens lonely).mono lone
      rw [map_cons, propagateFirst_cons]
      simp only [replaceFirstBranch, bind_assoc]
      rw [ensures_bind]
      refine branchAt_spec laws lawful owns holds.stored context (by omega) ?_
      simp only [branchCellBuf_eq lawful node.first node.page (laws.word owns holds.stored)]
      simpa [entriesBefore, entriesAfter, Node.cell, rootOf] using replaced
    · intro height heap state left right fence owns leftTree rightTree context nodup bound
      rw [length_cons] at bound
      obtain ⟨leftBorn, leftCells, leftHolds⟩ := leftTree.stored
      obtain ⟨rightBorn, rightCells, rightHolds⟩ := rightTree.stored
      have both : ∀ kid ∈ [left, right], TreeAt heap laws.txn height kid := by
        simp [leftTree, rightTree]
      have replaced := replaceHole_spec laws (cons_ne_nil left [right]) context both
        (by simpa using nodup) (by omega) lawful first next owns leftHolds.stored (by simp)
      have wide : (level.left ++ [left, right] ++ level.right).length ≠ 1 := by
        simp only [length_append, length_cons, length_nil]
        omega
      replace replaced := replaced.imp fun root reached rebuilt =>
        rebuilt.imp (Widens codec False (level :: rest))
          fun after top widens lonely => (widens lonely).mono fun single => absurd single wide
      rw [map_cons, propagateSplit_cons]
      simp only [insertBranch, bind_assoc]
      rw [ensures_bind]
      refine branchAt_spec laws lawful owns leftHolds.stored context (by omega) ?_
      simp only [branchCellBuf_eq lawful left.first left.page (laws.word owns leftHolds.stored),
        branchCellBuf_eq lawful right.first right.page (laws.word owns rightHolds.stored)]
      simpa [entriesBefore, entriesAfter, Node.cell, rootOf] using replaced

end Climb

end IpRange.FixedTree
