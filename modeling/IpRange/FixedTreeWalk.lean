import Mathlib.Data.List.Perm.Subperm
import IpRange.FixedTreeCursor
import IpRange.FixedTreeOwning

/-!
Postorder release of a detached tree: every page of it is handed over exactly
once, children before their parents.
-/

namespace IpRange.FixedTree

open List hiding get
open SlottedPage

variable {Key Leaf σ : Type} (codec : Codec Key Leaf)

structure WalkFrame where
  pageNumber : Nat
  nextChild : Nat
  childCount : Nat
  level : Nat
deriving DecidableEq, Repr

/-- The innermost branch stands first in `stack`. -/
structure Walker where
  stack : List WalkFrame
  current : Nat
  expectedLevel : Option Nat
deriving DecidableEq, Repr

namespace Walker

section Model

variable [Store σ] (release : Nat → EStateM Error σ Unit)

def firstChild (txn limit : Nat) (expectedLevel : Option Nat) (page : Page) :
    Except Error (Header × Option Nat) := do
  let header ← parse codec page txn expectedLevel
  if header.level = 0 then .ok (header, none)
  else do
    let child ← branchChild codec page header 0 limit
    .ok (header, some child)

def nextChild (txn limit : Nat) (frame : WalkFrame) (page : Page) : Except Error Nat := do
  let header ← parse codec page txn (some frame.level)
  if header.itemCount ≠ frame.childCount then
    .error (.corrupt "B+tree changed during postorder release")
  else branchChild codec page header frame.nextChild limit

def advance : List WalkFrame → EStateM Error σ (Option Walker)
  | [] => pure none
  | frame :: rest => do
    let state ← get
    if frame.nextChild < frame.childCount then do
      let child ← viewPage frame.pageNumber
        (nextChild codec (Store.targetTxn state) (Store.pageLimit state) frame)
      pure (some { stack := { frame with nextChild := frame.nextChild + 1 } :: rest, current := child,
                   expectedLevel := some (frame.level - 1) })
    else do
      release frame.pageNumber
      advance rest

def visit (walker : Walker) : EStateM Error σ (Option Walker) := do
  let state ← get
  let (header, child) ← viewPage walker.current
    (firstChild codec (Store.targetTxn state) (Store.pageLimit state) walker.expectedLevel)
  match child with
  | some child =>
    if walker.stack.length < maxTreeLevel then
      pure (some { stack := { pageNumber := walker.current, nextChild := 1,
                              childCount := header.itemCount, level := header.level } :: walker.stack
                   current := child, expectedLevel := some (header.level - 1) })
    else throw (.corrupt "B+tree exceeds its maximum height")
  | none => do
    release walker.current
    advance codec release walker.stack

/-- The loop of `run`. Every turn reads another page of the tree. -/
def run : Nat → Walker → EStateM Error σ Unit
  | 0, _ => throw (.corrupt "B+tree has more pages than its store")
  | turns + 1, walker => do
    match ← visit codec release walker with
    | none => pure ()
    | some next => run turns next

end Model

end Walker

def walk [Store σ] (release : Nat → EStateM Error σ Unit) (root : Nat) : EStateM Error σ Unit := do
  if root = 0 then pure ()
  else do
    let state ← get
    Walker.run codec release (Store.pageLimit state)
      { stack := [], current := root, expectedLevel := none }

def discardPrivateTree [Store σ] (root : Nat) : EStateM Error σ Unit :=
  walk codec Store.discardPrivate root

def childrenOf (page : Page) : List Nat :=
  if page.level = 0 then []
  else page.cells.filterMap fun cell => (codec.readBranchChild cell).toOption

def Postordered (heap : Heap) (order : List Nat) : Prop :=
  ∀ before parent after, order = before ++ parent :: after → ∀ page, heap parent = some page →
    ∀ child ∈ childrenOf codec page, child ∈ before

variable {codec}

theorem childrenOf_leaf (born : Nat) (cells : List Bytes) :
    childrenOf codec (treePage codec born 0 cells) = [] := if_pos rfl

theorem childrenOf_branch (lawful : LawfulCodec codec) (born height : Nat) (kids : List (Node codec))
    (words : ∀ kid ∈ kids, kid.page < 2 ^ 32) :
    childrenOf codec (treePage codec born (height + 1) (kids.map Node.cell)) =
      kids.map Node.page := by
  have level : (treePage codec born (height + 1) (kids.map Node.cell)).level ≠ 0 :=
    Nat.succ_ne_zero height
  have cells : (treePage codec born (height + 1) (kids.map Node.cell)).cells = kids.map Node.cell :=
    rfl
  rw [childrenOf, if_neg level, cells, filterMap_map]
  induction kids with
  | nil => rfl
  | cons kid rest ih =>
    have read := readBranchChild_cell lawful kid (words kid (by simp))
    have here : ((fun cell => (codec.readBranchChild cell).toOption) ∘ Node.cell) kid =
        some kid.page := by
      simp [read, Except.toOption]
    rw [filterMap_cons_some here, map_cons,
      ih (fun other member => words other (mem_cons_of_mem _ member)) (Nat.succ_ne_zero _) rfl]

theorem Postordered.snoc {heap : Heap} {order : List Nat} {address : Nat}
    (ordered : Postordered codec heap order)
    (children : ∀ page, heap address = some page → ∀ child ∈ childrenOf codec page, child ∈ order) :
    Postordered codec heap (order ++ [address]) := by
  intro before parent after shape page stored child member
  rcases eq_nil_or_concat after with rfl | ⟨others, last, rfl⟩
  · obtain ⟨rfl, same⟩ := append_inj' shape rfl
    rw [← singleton_inj.mp same] at stored
    exact children page stored child member
  · rw [concat_eq_append, ← cons_append, ← append_assoc] at shape
    obtain ⟨shape, -⟩ := append_inj' shape rfl
    exact ordered before parent others shape page stored child member

variable [Store σ] {laws : StoreLaws σ} {frame heap : Heap} {state : σ}

def pagesAhead (path : List (Level codec)) : List Nat :=
  path.flatMap fun level => level.right.flatMap Node.pages ++ [level.page]

def pagesUnread (path : List (Level codec)) : List Nat :=
  path.flatMap fun level => level.right.flatMap Node.pages

def walkFrames : Nat → List (Level codec) → List WalkFrame
  | _, [] => []
  | height, level :: rest =>
    { pageNumber := level.page
      nextChild := level.left.length + 1
      childCount := level.left.length + 1 + level.right.length
      level := height + 1 } :: walkFrames (height + 1) rest

@[simp] theorem walkFrames_length (height : Nat) (path : List (Level codec)) :
    (walkFrames height path).length = path.length := by
  induction path generalizing height with
  | nil => rfl
  | cons level rest ih => simp [walkFrames, ih]

variable {path : List (Level codec)} {release : Nat → EStateM Error σ Unit}

theorem TrailAt.congr {other : Heap} {txn height : Nat} {node : Node codec}
    (trail : TrailAt .forward heap txn height node path)
    (same : ∀ address ∈ pagesAhead path, other address = heap address) :
    TrailAt .forward other txn height node path := by
  induction path generalizing height node with
  | nil => trivial
  | cons level rest ih =>
    obtain ⟨⟨born, holds⟩, readable, siblings, above⟩ := trail
    have here : ∀ address ∈ level.right.flatMap Node.pages ++ [level.page],
        other address = heap address := fun address member =>
      same address (mem_append_left _ member)
    refine ⟨⟨born, holds.congr (here level.page (by simp))⟩, readable, ?_, ih above ?_⟩
    · intro kid member
      refine (siblings kid member).congr fun address inKid => here address ?_
      exact mem_append_left _ (mem_flatMap.mpr ⟨kid, member, inKid⟩)
    · exact fun address member => same address (mem_append_right _ member)

variable (codec) in
/-- A way to hand over pages, one after the other. `World done pages heap state` is what
holds once the pages of `done` were handed over and those of `pages` were not; nothing is
known of the contents of a page behind it. -/
structure Releasing (txn : Nat) (release : Nat → EStateM Error σ Unit) (P : Page → Prop)
    (fail : Error → σ → Prop) (World : List Nat → List Nat → Heap → σ → Prop) : Prop where
  perm : ∀ {done pages other : List Nat} {heap : Heap} {state : σ},
    World done pages heap state → other.Perm pages → World done other heap state
  nodup : ∀ {done pages : List Nat} {heap : Heap} {state : σ},
    World done pages heap state → pages.Nodup
  views : ∀ {done pages : List Nat} {heap : Heap} {state : σ},
    World done pages heap state → Views state txn heap
  step : ∀ {done pages : List Nat} {heap : Heap} {state : σ} {address : Nat} {page : Page},
    World done (address :: pages) heap state → heap address = some page → P page →
    (∀ child ∈ childrenOf codec page, child ∈ done) →
    Ensures (release address) state
      (fun _ reached => World (done ++ [address]) pages (Function.update heap address none) reached)
      fail

structure Walking (heap : Heap) (txn : Nat) (walker : Walker) (height : Nat) (node : Node codec)
    (path : List (Level codec)) : Prop where
  stack : walker.stack = walkFrames height path
  current : walker.current = node.page
  expected : ∀ wanted ∈ walker.expectedLevel, wanted = height
  tree : TreeAt heap txn height node
  trail : TrailAt .forward heap txn height node path
  depth : height + path.length ≤ maxTreeLevel

def Passed (path : List (Level codec)) (done : List Nat) : Prop :=
  ∀ level ∈ path, ∀ kid ∈ level.left, kid.page ∈ done ∧ kid.page < 2 ^ 32

theorem Passed.mono {done more : List Nat} (passed : Passed path done) :
    Passed path (done ++ more) := fun level member kid inLeft =>
  ⟨mem_append_left _ (passed level member kid inLeft).1, (passed level member kid inLeft).2⟩

section Release

variable {txn : Nat} {release : Nat → EStateM Error σ Unit} {P : Page → Prop} {fail : Error → σ → Prop}
  {World : List Nat → List Nat → Heap → σ → Prop} {done : List Nat}

def Resumes (txn : Nat) (World : List Nat → List Nat → Heap → σ → Prop) (done pages : List Nat)
    (heap : Heap) (unread : Nat) (codec : Codec Key Leaf) (result : Option Walker) (reached : σ) :
    Prop :=
  ∃ more after,
    match result with
    | none => more.Perm pages ∧ World (done ++ more) [] after reached
    | some walker => ∃ height, ∃ node : Node codec, ∃ path : List (Level codec),
        Walking after txn walker height node path ∧ Passed path (done ++ more) ∧
        (more ++ (node.pages ++ pagesAhead path)).Perm pages ∧
        World (done ++ more) (node.pages ++ pagesAhead path) after reached ∧
        (∀ address ∈ node.pages ++ pagesAhead path, after address = heap address) ∧
        node.pages.length + (pagesUnread path).length ≤ unread

variable {address height : Nat} {pages : List Nat} {node : Node codec} {path : List (Level codec)}

omit [Store σ] in
theorem Resumes.after {unread : Nat} {result : Option Walker} {reached : σ}
    (resumes : Resumes txn World (done ++ [address]) pages (Function.update heap address none) unread
      codec result reached) (outside : address ∉ pages) :
    Resumes txn World done (address :: pages) heap unread codec result reached := by
  obtain ⟨more, after, outcome⟩ := resumes
  refine ⟨address :: more, after, ?_⟩
  have joined : done ++ [address] ++ more = done ++ address :: more := by simp
  cases result with
  | none =>
    obtain ⟨order, world⟩ := outcome
    rw [joined] at world
    exact ⟨order.cons address, world⟩
  | some walker =>
    obtain ⟨height, node, path, walking, passed, split, world, still, fewer⟩ := outcome
    rw [joined] at passed world
    refine ⟨height, node, path, walking, passed, split.cons address, world, ?_, fewer⟩
    intro other member
    have inside : other ∈ pages := split.mem_iff.mp (mem_append_right _ member)
    have different : other ≠ address := fun same => outside (same ▸ inside)
    rw [still other member, Function.update_of_ne different]

theorem update_of_outside (heap : Heap) (outside : address ∉ pages) :
    ∀ other ∈ pages, Function.update heap address none other = heap other := by
  intro other member
  have different : other ≠ address := fun same => outside (same ▸ member)
  exact Function.update_of_ne different _ _

theorem ensures_inspect {α : Type} {page : Page} {inspect : Page → Except Error α} {value : α}
    {post : α → σ → Prop} (views : Views state txn heap) (held : heap address = some page)
    (result : inspect page = .ok value) (done : post value state) :
    Ensures (viewPage address inspect) state post fail := by
  have found : Store.inspectPage state address = .ok page := views.found held
  simp only [viewPage, ensures_bind, ensures_get, found, ensures_liftResult_ok, result]
  exact done

section

variable (lawful : LawfulCodec codec) (releasing : Releasing codec txn release P fail World)

include lawful releasing

theorem walk_advance_spec (path : List (Level codec))
    (world : World done (pagesAhead path) heap state)
    (trail : TrailAt .forward heap txn height node path)
    (depth : height + path.length ≤ maxTreeLevel) (passed : Passed path done)
    (finished : node.page ∈ done) (word : node.page < 2 ^ 32)
    (given : ∀ address ∈ pagesAhead path, ∀ page, heap address = some page → P page) :
    Ensures (Walker.advance codec release (walkFrames height path)) state
      (Resumes txn World done (pagesAhead path) heap (pagesUnread path).length codec) fail := by
  induction path generalizing height node heap state done with
  | nil =>
    refine ⟨[], heap, List.Perm.refl _, ?_⟩
    rw [append_nil]
    exact world
  | cons level rest ih =>
    obtain ⟨⟨born, holds⟩, readable, siblings, above⟩ := trail
    obtain ⟨page, left, right⟩ := level
    have left_ : ∀ kid ∈ left, kid.page ∈ done ∧ kid.page < 2 ^ 32 :=
      passed ⟨page, left, right⟩ (by simp)
    have rest_ : Passed rest done := fun level member => passed level (mem_cons_of_mem _ member)
    rw [walkFrames, Walker.advance, ensures_bind, ensures_get]
    cases right with
    | nil =>
      have last : ¬ (left.length + 1 < left.length + 1 + ([] : List (Node codec)).length) := by simp
      rw [if_neg last, ensures_bind]
      have here : World done (page :: pagesAhead rest) heap state := world
      have outside := (nodup_cons.mp (releasing.nodup here)).1
      have same := update_of_outside heap outside
      -- all subtrees below the page were handed over, so it may follow them
      have below : ∀ child ∈ childrenOf codec (treePage codec born (height + 1)
          (((⟨page, left, []⟩ : Level codec).nodes node).map Node.cell)), child ∈ done := by
        rw [childrenOf_branch lawful]
        · intro child member
          obtain ⟨kid, inNodes, rfl⟩ := mem_map.mp member
          rcases mem_append.mp inNodes with isLeft | isNode
          · exact (left_ kid isLeft).1
          · rw [mem_singleton.mp isNode]
            exact finished
        · intro kid inNodes
          rcases mem_append.mp inNodes with isLeft | isNode
          · exact (left_ kid isLeft).2
          · rw [mem_singleton.mp isNode]
            exact word
      refine (releasing.step here holds.stored (given page (by simp [pagesAhead]) _ holds.stored)
        below).imp ?_
      intro _ reached gone
      have real := (releasing.views here).word holds.stored
      refine (ih gone (above.congr same) (by simp at depth; omega) rest_.mono
        (mem_append_right _ (mem_singleton_self _)) real ?_).imp ?_
      · intro address member content stored
        rw [same address member] at stored
        exact given address (mem_cons_of_mem _ member) content stored
      · exact fun result final resumes => resumes.after outside
    | cons kid others =>
      have more : left.length + 1 < left.length + 1 + (kid :: others).length := by simp
      have tree := siblings kid (by simp [Level.ahead])
      have views := releasing.views world
      have target : Store.targetTxn state = txn := views.selected
      have shape : (⟨page, left, kid :: others⟩ : Level codec).nodes node =
          (left ++ [node]) ++ kid :: others := by simp [Level.nodes]
      rw [shape] at holds readable
      have child := branchChild_at lawful born (Store.pageLimit state) views tree readable
        (show _[left.length + 1]? = _ by simp) rfl
      have parsed := holds.parsed (some (height + 1)) (by simp at depth; omega) (by simp)
      have count : (((left ++ [node]) ++ kid :: others).map Node.cell).length =
          left.length + 1 + (kid :: others).length := by
        simp
        omega
      rw [if_pos more, ensures_bind]
      refine ensures_inspect views holds.stored (show _ = Except.ok kid.page from ?_) ?_
      · simp only [Walker.nextChild, target, parsed, bind, Except.bind,
          filledHeader_itemCount, count, ne_eq, not_true_eq_false, if_false, child]
      · rw [ensures_pure]
        refine ⟨[], heap, height, kid, ⟨page, left ++ [node], others⟩ :: rest,
          ⟨?_, rfl, by simp, tree, ⟨⟨born, holds⟩, readable, ?_, ?_⟩, by simpa using depth⟩,
          ?_, ?_, by simpa [pagesAhead] using world, fun _ _ => rfl, ?_⟩
        · simp [walkFrames]
          omega
        · exact fun sibling member => siblings sibling (mem_cons_of_mem _ member)
        · simpa [Level.nodes] using above
        · intro level member passedKid inLeft
          rw [append_nil]
          rcases mem_cons.mp member with rfl | inRest
          · rcases mem_append.mp inLeft with isLeft | isNode
            · exact left_ passedKid isLeft
            · rw [mem_singleton.mp isNode]
              exact ⟨finished, word⟩
          · exact rest_ level inRest passedKid inLeft
        · simp [pagesAhead]
        · simp [pagesUnread]

theorem visit_spec {walker : Walker} (walking : Walking heap txn walker height node path)
    (passed : Passed path done) (world : World done (node.pages ++ pagesAhead path) heap state)
    (given : ∀ address ∈ node.pages ++ pagesAhead path, ∀ page, heap address = some page → P page) :
    Ensures (walker.visit codec release) state
      (Resumes txn World done (node.pages ++ pagesAhead path) heap
        (node.pages.length + (pagesUnread path).length - 1) codec) fail := by
  obtain ⟨stack, current, expected, tree, trail, depth⟩ := walking
  have views := releasing.views world
  have target : Store.targetTxn state = txn := views.selected
  rw [Walker.visit, ensures_bind, ensures_get, ensures_bind, current, stack]
  cases height with
  | zero =>
    obtain ⟨leaf, born, holds⟩ := tree
    have parsed := holds.parsed walker.expectedLevel (by omega) expected
    refine ensures_inspect views holds.stored
      (show _ = Except.ok (filledHeader 0 (node.entries.map Entry.cell), none) from ?_) ?_
    · simp only [Walker.firstChild, target, parsed, bind, Except.bind, filledHeader_level, if_true]
    · have only : node.pages = [node.page] := by simp [Node.pages, leaf]
      have unread : node.pages.length + (pagesUnread path).length - 1 =
          (pagesUnread path).length := by
        rw [only, length_singleton]
        omega
      rw [unread]
      rw [only] at world given ⊢
      have outside := (nodup_cons.mp (releasing.nodup world)).1
      have same := update_of_outside heap outside
      refine Ensures.bind (releasing.step world holds.stored (given node.page (by simp) _ holds.stored)
        (by rw [childrenOf_leaf]; simp)) ?_
      intro _ reached gone
      refine (walk_advance_spec lawful releasing path gone (trail.congr same) depth passed.mono
        (by simp) (views.word holds.stored) ?_).imp ?_
      · intro address member content stored
        rw [same address member] at stored
        exact given address (by simp [member]) content stored
      · exact fun result final resumes => resumes.after outside
  | succ height =>
    obtain ⟨kids, some_, shape, ⟨born, holds⟩, trees⟩ := tree.branch
    generalize node.page = page at *
    subst shape
    obtain ⟨kid, others, rfl⟩ := exists_cons_of_ne_nil some_
    have readable := nodes_readable lawful views trees (height + 1) (by omega)
    have child := branchChild_at lawful born (Store.pageLimit state) views (trees kid (by simp))
      readable (show _[0]? = _ by simp) rfl
    have parsed := holds.parsed walker.expectedLevel (by omega) expected
    refine ensures_inspect views holds.stored (show _ = Except.ok
      (filledHeader (height + 1) ((kid :: others).map Node.cell), some kid.page) from ?_) ?_
    · simp only [Walker.firstChild, target, parsed, bind, Except.bind, filledHeader_level,
        Nat.add_one_ne_zero, if_false, child]
    · have shallow : (walkFrames (height + 1) path).length < maxTreeLevel := by
        rw [walkFrames_length]
        omega
      have order : (kid.pages ++ pagesAhead (⟨page, [], others⟩ :: path)).Perm
          ((join page (kid :: others) some_).pages ++ pagesAhead path) := by
        refine perm_iff_count.mpr fun address => ?_
        simp only [pagesAhead, join, Node.pages, flatMap_cons, count_append,
          count_cons, count_nil, cons_append]
        omega
      simp only [if_pos shallow, ensures_pure]
      refine ⟨[], heap, height, kid, ⟨page, [], others⟩ :: path, ⟨?_, rfl, by simp,
        trees kid (by simp), ⟨⟨born, holds⟩, readable, ?_, trail⟩, by simp; omega⟩, ?_, ?_, ?_,
        fun _ _ => rfl, ?_⟩
      · simp [walkFrames]
        omega
      · exact fun sibling member => trees sibling (mem_cons_of_mem _ member)
      · intro level member passedKid inLeft
        rw [append_nil]
        rcases mem_cons.mp member with rfl | inPath
        · cases inLeft
        · exact passed level inPath passedKid inLeft
      · simpa using order
      · rw [append_nil]
        exact releasing.perm world order
      · simp only [pagesUnread, join, Node.pages, flatMap_cons, length_append,
          length_cons]
        omega

theorem run_spec
    (turns : Nat) {walker : Walker} (walking : Walking heap txn walker height node path)
    (passed : Passed path done) (world : World done (node.pages ++ pagesAhead path) heap state)
    (given : ∀ address ∈ node.pages ++ pagesAhead path, ∀ page, heap address = some page → P page)
    (enough : node.pages.length + (pagesUnread path).length ≤ turns) :
    Ensures (Walker.run codec release turns walker) state
      (fun _ reached => ∃ more after, more.Perm (node.pages ++ pagesAhead path) ∧
        World (done ++ more) [] after reached) fail := by
  induction turns generalizing walker path height node heap state done with
  | zero => simp [Node.pages] at enough
  | succ turns ih =>
    rw [Walker.run, ensures_bind]
    refine (visit_spec lawful releasing walking passed world given).imp ?_
    rintro result reached ⟨more, after, outcome⟩
    cases result with
    | none => exact ⟨more, after, outcome⟩
    | some next =>
      obtain ⟨height_, node_, rest, walking, passed, split, world, still, fewer⟩ := outcome
      have inside : ∀ address ∈ node_.pages ++ pagesAhead rest,
          address ∈ node.pages ++ pagesAhead path := fun address member =>
        split.mem_iff.mp (mem_append_right _ member)
      refine (ih walking passed world ?_ (by omega)).imp ?_
      · intro address member page stored
        exact given address (inside address member) page ((still address member).symm.trans stored)
      · rintro _ final ⟨later, last, order, ended⟩
        refine ⟨more ++ later, last, (order.append_left more).trans split, ?_⟩
        rw [← append_assoc]
        exact ended

theorem walk_releases (done : List Nat) {root : Nat} {entries : List (Entry codec)}
    (world : World done pages heap state) (tree : RootAt heap txn root entries pages)
    (given : ∀ address ∈ pages, ∀ page, heap address = some page → P page) :
    Ensures (walk codec release root) state
      (fun _ reached => ∃ more after, more.Perm pages ∧ World (done ++ more) [] after reached)
      fail := by
  rw [walk]
  rcases tree with ⟨rfl, rfl, rfl⟩ | ⟨height, node, bound, whole, rfl, rfl, rfl⟩
  · rw [if_pos rfl, ensures_pure]
    exact ⟨[], heap, List.Perm.refl _, by simpa using world⟩
  · obtain ⟨born, cells, holds⟩ := whole.stored
    have views := releasing.views world
    have real : node.page ≠ 0 := by
      have low := (views.bounds holds.stored).1
      omega
    have few : node.pages.length ≤ Store.pageLimit state := by
      refine length_le_of_nodup (releasing.nodup world) fun address member => ?_
      obtain ⟨_, _, _, _, stored⟩ := whole.pages address member
      exact (views.bounds stored).2
    rw [if_neg real, ensures_bind, ensures_get]
    have walking : Walking heap txn ⟨[], node.page, none⟩ height node [] :=
      ⟨rfl, rfl, by simp, whole, trivial, by simpa using bound⟩
    refine (run_spec lawful releasing _ walking (by simp [Passed])
      (by simpa [pagesAhead] using world) (by simpa [pagesAhead] using given)
      (by simpa [pagesUnread] using few)).imp ?_
    rintro _ reached ⟨more, after, order, ended⟩
    exact ⟨more, after, by simpa [pagesAhead] using order, ended⟩

end

end Release

variable (laws) in
def Releases (release : Nat → EStateM Error σ Unit) (P : Page → Prop) : Prop :=
  ∀ {frame heap : Heap} {pages : List Nat} {state : σ} {address : Nat} {page : Page},
    Owning laws frame (address :: pages) heap state → heap address = some page → P page →
    Ensures (release address) state
      (fun _ reached => Owning laws frame pages (Function.update heap address none) reached) laws.Fails

theorem releases_discard : Releases laws Store.discardPrivate fun page => page.ownedBy laws.txn :=
  fun owning stored owned => owning.discard stored owned

theorem Releases.releasing {P : Page → Prop} (releases : Releases laws release P) (frame : Heap) :
    Releasing codec laws.txn release P laws.Fails fun _ => Owning laws frame where
  perm owning same := owning.perm same
  nodup owning := owning.nodup
  views owning := laws.views owning.owns
  step owning stored marked _ := releases owning stored marked

theorem walk_spec (lawful : LawfulCodec codec) {P : Page → Prop}
    (releases : Releases laws release P) {root : Nat} {entries : List (Entry codec)}
    {pages : List Nat} (owning : Owning laws frame pages heap state)
    (tree : RootAt heap laws.txn root entries pages)
    (given : ∀ address ∈ pages, ∀ page, heap address = some page → P page) :
    Ensures (walk codec release root) state
      (fun _ reached => ∃ after, Owning laws frame [] after reached) laws.Fails := by
  refine (walk_releases lawful (releases.releasing frame) [] owning tree given).imp ?_
  rintro _ reached ⟨_, after, _, owned⟩
  exact ⟨after, owned⟩

end IpRange.FixedTree
