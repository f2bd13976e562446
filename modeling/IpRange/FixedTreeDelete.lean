import IpRange.FixedTreeLeaf

/-!
Deletion of one leaf and of a run of leaves on one page: pages left without
records are discarded up the path, and a root with one child gives way to it.
-/

namespace IpRange.FixedTree

open List hiding get
open Function SlottedPage

variable {Key Leaf σ τ : Type} [Store σ] {codec : Codec Key Leaf} (laws : StoreLaws σ)

theorem removeAt_treePage (born level : Nat) (left right : List Bytes) (old : Bytes)
    (readable : Readable codec level (left ++ old :: right)) (several : left ++ right ≠ [])
    (packed : usedBytes (left ++ old :: right) ≤ pageSize) :
    removeAt codec (filledHeader level (left ++ old :: right)) left.length
        (treePage codec born level (left ++ old :: right)) =
      .ok () (treePage codec born level (left ++ right)) := by
  have found := codecCell_treePage born level (left ++ old :: right) left.length (by simp) readable
  have removed := remove_filledPage (pageTypeAt codec level) born level codec.aux left right old
    (readable.present old (by simp)) (length_pos_iff.mpr several) packed
  rw [getElem_append_right (Nat.le_refl _)] at found
  simp only [Nat.sub_self, getElem_cons_zero] at found
  simp only [removeAt, get_bind_apply, found, liftResult_bind_apply]
  exact removed

theorem Storable.sublist {fewer cells : List Bytes} (storable : Storable cells)
    (sub : fewer.Sublist cells) (some_ : fewer ≠ []) : Storable fewer :=
  ⟨some_, fun record member => storable.records record (sub.subset member),
    le_trans (usedBytes_sublist sub) storable.fits⟩

variable {heap : Heap} {height hole : Nat} {fence : Key} {level : Level codec}
  {path : List (Level codec)}

theorem level_without {txn : Nat} {rest : List (Level codec)}
    (context : ContextAt heap txn height hole fence (level :: rest))
    (nodup : (contextPages (level :: rest)).Nodup) (some_ : level.siblings ≠ [])
    (positive : 0 < txn) :
    Storable (level.siblings.map Node.cell) ∧
      TreeAt (Function.update heap level.page
        (some (treePage codec txn (height + 1) (level.siblings.map Node.cell)))) txn (height + 1)
        (join level.page level.siblings some_) ∧
      ContextAt (Function.update heap level.page
        (some (treePage codec txn (height + 1) (level.siblings.map Node.cell)))) txn (height + 1)
        level.page (level.fence fence) rest ∧
      Moves txn heap (Function.update heap level.page
        (some (treePage codec txn (height + 1) (level.siblings.map Node.cell))))
        (contextPages (level :: rest))
        ((join level.page level.siblings some_).pages ++ contextPages rest) := by
  obtain ⟨siblings, above⟩ := context.written
    (some (treePage codec txn (height + 1) (level.siblings.map Node.cell))) nodup
  obtain ⟨known, holds, _, _⟩ := context
  have storable : Storable (level.siblings.map Node.cell) := by
    refine Storable.sublist holds.storable ?_ (by simpa using some_)
    rw [Level.siblings, map_append, Level.cells]
    exact List.Sublist.append_left (sublist_cons_self _ _) _
  refine ⟨storable, treeAt_join some_ (Holds.of_update positive storable) siblings, above, ?_⟩
  have pages : (join level.page level.siblings some_).pages ++ contextPages rest =
      contextPages (level :: rest) := by
    simp [join, Node.pages, contextPages, Level.pages]
  rw [pages]
  exact Evolves.write nodup (by simp [contextPages, Level.pages]) holds.stored
    (treePage_not_committed _ _ _) (treePage_not_committed _ _ _)

/-- Closing the hole hands the root to a branch page with one record: the hole is an only child
up to the root, which has one other child, such a page. -/
def Topples (heap : Heap) : List (Level codec) → Prop
  | [] => False
  | level :: rest => level.siblings = [] ∧ Topples heap rest ∨
      rest = [] ∧ ∃ kid, level.siblings = [kid] ∧ Lonely codec heap kid.page

theorem Topples.congr {other : Heap}
    (same : ∀ level ∈ path, ∀ kid ∈ level.siblings, other kid.page = heap kid.page) :
    Topples other path ↔ Topples heap path := by
  induction path with
  | nil => exact Iff.rfl
  | cons level rest ih =>
    have above := ih fun upper member => same upper (mem_cons_of_mem _ member)
    have lonely : (∃ kid, level.siblings = [kid] ∧ Lonely codec other kid.page) ↔
        ∃ kid, level.siblings = [kid] ∧ Lonely codec heap kid.page := by
      refine exists_congr fun kid => and_congr_right fun single => Lonely.congr ?_
      exact same level (by simp) kid (by simp [single])
    rw [Topples, Topples, above, lonely]

theorem sibling_page_mem {kid : Node codec} (inPath : level ∈ path) (sibling : kid ∈ level.siblings) :
    kid.page ∈ contextPages path := by
  refine mem_flatMap.mpr ⟨level, inPath, mem_cons_of_mem _ ?_⟩
  exact mem_flatMap.mpr ⟨kid, sibling, by simp [Node.pages]⟩

theorem freed_spec {txn page level : Nat} {cells : List Bytes}
    (holds : Holds heap txn txn level page codec cells)
    (context : ContextAt heap txn height hole fence path)
    (nodup : (page :: contextPages path).Nodup) :
    Moves txn heap (Function.update heap page none) (page :: contextPages path)
        (contextPages path) ∧
      ContextAt (Function.update heap page none) txn height hole fence path ∧
      (Topples (Function.update heap page none) path ↔ Topples heap path) := by
  have elsewhere : ∀ address ∈ contextPages path,
      Function.update heap page none address = heap address := fun address member =>
    update_of_ne
      (fun same : address = page => (nodup_cons.mp nodup).1 (same ▸ member)) _ _
  exact ⟨Evolves.free nodup holds.stored (treePage_not_committed _ _ _), context.congr elsewhere,
    Topples.congr fun level member kid sibling => elsewhere _ (sibling_page_mem member sibling)⟩

def Settles (emptied : Prop) (heap : Heap) (path : List (Level codec)) (after : Heap)
    (root : Nat) : Prop :=
  (emptied ∧ Topples heap path → Lonely codec after root) ∧
    (Lonely codec after root → emptied ∧ Topples heap path ∨ Narrow False path)

theorem Widens.settles {emptied : Prop} (heap : Heap) (kept : ¬ emptied) (after : Heap) (root : Nat)
    (widens : Widens codec False path after root) :
    Settles emptied heap path after root :=
  ⟨fun toppled => absurd toppled.1 kept, fun lonely => Or.inr (widens lonely)⟩

theorem collapseRoot_spec (lawful : LawfulCodec codec) {state before : σ}
    (ownsBefore : laws.Owns before heap) (owns : laws.Owns state (Function.update heap level.page
      (some (treePage codec laws.txn (height + 1) (level.siblings.map Node.cell)))))
    (context : ContextAt heap laws.txn height hole fence [level])
    (nodup : (contextPages [level]).Nodup) (bound : height + 1 ≤ maxTreeLevel)
    (single : level.siblings.length = 1) :
    Ensures (collapseRoot codec level.page (height + 1)) state
      (Rebuilt laws heap (contextPages [level]) (entriesBefore [level] ++ entriesAfter [level])
        (Settles True heap [level])) (StretchFails laws False) := by
  have lone : level.siblings ≠ [] := fun none => by simp [none] at single
  obtain ⟨storable, tree, higher, moves⟩ := level_without context nodup lone laws.txnPositive
  obtain ⟨known, holds, siblings, above⟩ := context
  obtain ⟨kid, shape⟩ := length_eq_one_iff.mp single
  have kidTree := siblings kid (by simp [shape])
  obtain ⟨born, cells, kidHolds⟩ := kidTree.stored
  have pages : contextPages [level] = level.page :: kid.pages := by
    simp [contextPages, Level.pages, shape]
  have entries : entriesBefore [level] ++ entriesAfter [level] = kid.entries := by
    have all := congrArg (List.flatMap Node.entries) shape
    simpa [entriesBefore, entriesAfter, Level.siblings] using all
  rw [shape, map_singleton] at storable owns
  have kidReads := node_reads lawful (laws.views ownsBefore) kidTree (height + 1) (by omega)
  have readable : Readable codec (height + 1) [kid.cell] := by
    intro cell member
    rw [mem_singleton.mp member]
    exact ⟨_, kidReads.1⟩
  have outside : ∀ address ∈ kid.pages, address ≠ level.page := by
    rw [pages, nodup_cons] at nodup
    exact fun address member same => nodup.1 (same ▸ member)
  have kidHeld : Function.update heap level.page (some (treePage codec laws.txn (height + 1)
      [kid.cell])) kid.page = some (treePage codec born height cells) :=
    (update_of_ne (outside kid.page (by simp [Node.pages])) _ _).trans kidHolds.stored
  have parsed := parse_treePage codec laws.txn (height + 1) [kid.cell] laws.txn
    (some (height + 1)) storable laws.txnPositive (Nat.le_refl _) bound (by simp)
  have child := branchChild_treePage laws.txn (height + 1) [kid.cell] 0 (Store.pageLimit state)
    kid.page (by omega) (by simp) readable kidReads.2.1 (laws.bounds owns kidHeld).1
      (laws.bounds owns kidHeld).2
  simp only [collapseRoot, ensures_bind, ensures_get, laws.target owns]
  refine ensures_viewPage laws owns (update_self _ _ _)
    (show _ = Except.ok kid.page by simp only [parsed, bind, Except.bind, child]) ?_
  refine (laws.discard owns (update_self _ _ _) (treePage_ownedBy _ _ _)).impOr ?_
  intro _ reached ownsAfter
  rw [update_idem] at ownsAfter
  rw [ensures_pure, entries, pages]
  rw [pages] at nodup
  have unchanged : Lonely codec (Function.update heap level.page none) kid.page ↔
      Lonely codec heap kid.page :=
    Lonely.congr (update_of_ne (outside kid.page (by simp [Node.pages])) _ _)
  refine ⟨_, kid.pages, ownsAfter, Or.inr ⟨height, kid, by omega, ?_, rfl, rfl, rfl⟩, ?_, ?_, ?_⟩
  · exact kidTree.congr fun address member => update_of_ne (outside address member) _ _
  · exact Evolves.free nodup holds.stored (treePage_not_committed _ _ _)
  · rintro ⟨-, ⟨none, -⟩ | ⟨-, other, single_, lonely⟩⟩
    · exact absurd none lone
    · rw [shape] at single_
      cases single_
      exact unchanged.mpr lonely
  · exact fun lonely => Or.inl ⟨trivial, Or.inr ⟨rfl, kid, shape, unchanged.mp lonely⟩⟩

theorem removeEmptyChild_spec (lawful : LawfulCodec codec) {state : σ} (owns : laws.Owns state heap)
    (word : hole < 2 ^ 32) (context : ContextAt heap laws.txn height hole fence path)
    (nodup : (contextPages path).Nodup) (bound : height + path.length ≤ maxTreeLevel) :
    Ensures (removeEmptyChild codec (rootOf hole path) (path.map Level.frame)) state
      (Rebuilt laws heap (contextPages path) (entriesBefore path ++ entriesAfter path)
        (Settles True heap path)) (StretchFails laws False) := by
  induction path generalizing state heap height hole fence with
  | nil =>
    rw [map_nil, removeEmptyChild, ensures_pure]
    refine ⟨heap, [], owns, Or.inl ⟨rfl, rfl, rfl⟩, Evolves.refl (by simp [contextPages]), ?_, ?_⟩
    · exact fun toppled => toppled.2.elim
    · rintro ⟨born, level, cell, stored⟩
      have real := (laws.bounds owns stored).1
      omega
  | cons level rest ih =>
    obtain ⟨known, holds, siblings, above⟩ := id context
    have readable := level_readable lawful (laws.views owns) known word siblings
    rw [length_cons] at bound
    have parsed := holds.parsed none (by omega) (by simp)
    have count : (filledHeader (height + 1) (level.cells fence hole)).itemCount =
        level.siblings.length + 1 := by
      simp [Level.cells, Level.siblings]
      omega
    rw [map_cons, removeEmptyChild]
    simp only [ensures_bind, ensures_get, laws.target owns, Level.frame]
    refine ensures_viewPage laws owns holds.stored parsed ?_
    by_cases lone : level.siblings = []
    · have only : (filledHeader (height + 1) (level.cells fence hole)).itemCount = 1 := by
        rw [count, lone]
        rfl
      have pages : contextPages (level :: rest) = level.page :: contextPages rest := by
        simp [contextPages, Level.pages, lone]
      have noLeft : level.left = [] := (append_eq_nil_iff.mp lone).1
      have noRight : level.right = [] := (append_eq_nil_iff.mp lone).2
      have entries : entriesBefore (level :: rest) ++ entriesAfter (level :: rest) =
          entriesBefore rest ++ entriesAfter rest := by
        simp [entriesBefore, entriesAfter, noLeft, noRight]
      rw [pages] at nodup ⊢
      rw [entries]
      simp only [only, if_true, ensures_bind]
      refine (laws.discard owns holds.stored (treePage_ownedBy _ _ _)).impOr ?_
      intro _ reached ownsAfter
      obtain ⟨freed, higher, same⟩ := freed_spec holds above nodup
      refine (ih ownsAfter (laws.word owns holds.stored) higher (nodup_cons.mp nodup).2
        (by omega)).imp ?_
      refine fun root done rebuilt => Rebuilt.trans freed rebuilt ?_
      rintro after top ⟨falls, stands⟩
      refine ⟨?_, fun lonely => ?_⟩
      · rintro ⟨-, ⟨-, toppled⟩ | ⟨-, kid, single, -⟩⟩
        · exact falls ⟨trivial, same.mpr toppled⟩
        · rw [lone] at single
          cases single
      · rcases stands lonely with ⟨-, toppled⟩ | narrow
        · exact Or.inl ⟨trivial, Or.inl ⟨lone, same.mp toppled⟩⟩
        · exact Or.inr (narrow.mono False.elim)
    · have several : ¬ (filledHeader (height + 1) (level.cells fence hole)).itemCount = 1 := by
        rw [count]
        have some_ := length_pos_iff.mpr lone
        omega
      obtain ⟨storable, tree, higher, moves⟩ :=
        level_without context nodup lone laws.txnPositive
      have entries : entriesBefore (level :: rest) ++ entriesAfter (level :: rest) =
          entriesBefore rest ++ (join level.page level.siblings lone).entries ++
            entriesAfter rest := by
        simp [entriesBefore, entriesAfter, join, Level.siblings]
      have program := removeAt_treePage laws.txn (height + 1) (level.left.map Node.cell)
        (level.right.map Node.cell) (branchBytes codec fence hole) readable
        (by rw [← map_append]; exact fun none => lone (map_eq_nil_iff.mp none))
        holds.storable.fits
      rw [← map_append, length_map] at program
      simp only [several, if_false, ensures_bind]
      refine (laws.update owns holds.stored (writable_treePage laws _ _) program
        (treePage_ownedBy _ _ _)).impOr ?_
      rintro _ reached ⟨-, ownsAfter⟩
      have count_ : (filledHeader (height + 1) (level.cells fence hole)).itemCount - 1 =
          level.siblings.length := by
        rw [count]
        rfl
      simp only [count_, isEmpty_map, filledHeader_level]
      by_cases collapse : rest = [] ∧ level.siblings.length = 1
      · obtain ⟨rfl, single⟩ := collapse
        simp only [isEmpty_nil, single, BEq.rfl, Bool.and_self, if_true]
        exact collapseRoot_spec laws lawful owns ownsAfter context nodup (by omega) single
      · have stays : (rest.isEmpty && level.siblings.length == 1) = false := by
          rw [Bool.and_eq_false_iff, isEmpty_eq_false_iff, beq_eq_false_iff_ne]
          exact not_and_or.mp collapse
        -- the root page keeps two children, or lies above this one
        have settles : ∀ after top, Widens codec (Lonely codec (Function.update heap level.page
            (some (treePage codec laws.txn (height + 1) (level.siblings.map Node.cell))))
            level.page) rest after top → Settles True heap (level :: rest) after top := by
          intro after top widens
          refine ⟨?_, fun lonely => Or.inr ?_⟩
          · rintro ⟨-, ⟨none, -⟩ | ⟨top_, kid, single, -⟩⟩
            · exact absurd none lone
            · exact absurd ⟨top_, by rw [single]; rfl⟩ collapse
          · have narrow := widens lonely
            cases rest with
            | cons upper others => exact narrow
            | nil =>
              have single := ((lonely_iff (update_self _ _ _)).mp narrow).2
              exact absurd ⟨rfl, by simpa using single⟩ collapse
        rw [entries]
        simp only [stays, Bool.false_eq_true, if_false]
        by_cases edge : level.left = []
        · -- the first child went, so the page starts with another key
          obtain ⟨kid, others, shape⟩ := exists_cons_of_ne_nil lone
          have kidReads := (node_reads lawful (laws.views owns) (siblings kid (by simp [shape]))
            (height + 1) (by omega)).1
          have zero : level.left.length = 0 := by simp [edge]
          simp only [zero, if_true, ensures_bind]
          refine firstKey_spec laws ownsAfter (Holds.of_update laws.txnPositive storable)
            (by omega) (show level.siblings.map Node.cell = kid.cell :: others.map Node.cell by
              rw [shape, map_cons]) kidReads ?_
          have same : kid.first.key = (join level.page level.siblings lone).first.key := by
            rw [join_first]
            simp [shape]
          rw [same]
          exact ((propagate_specs laws lawful rest).1 (height + 1) _ reached _ _ ownsAfter tree
            higher moves.nodup (by omega)).imp fun root done rebuilt =>
              Rebuilt.trans moves rebuilt settles
        · have inner : ¬ level.left.length = 0 := by simpa using edge
          have same : level.fence fence = (join level.page level.siblings lone).first.key := by
            rw [join_first]
            obtain ⟨kid, others, shape⟩ := exists_cons_of_ne_nil edge
            simp [Level.fence, Level.siblings, shape]
          rw [same] at higher
          simp only [inner, if_false, ensures_pure]
          exact Rebuilt.trans moves
            (rebuilt_plug laws ownsAfter tree higher moves.nodup (by omega)) settles

section Leaves

variable {state : σ} {heap : Heap} {leaf : Node codec} {path : List (Level codec)}
  {records smaller run rest : List (Entry codec)}

theorem emptied_spec (lawful : LawfulCodec codec) (owns : laws.Owns state heap)
    (place : OnLeaf laws heap leaf path records) :
    Ensures (do
        Store.discardPrivate leaf.page
        removeEmptyChild codec (rootOf leaf.page path) (path.map Level.frame)) state
      (Refilled laws heap leaf path [] (Settles True heap path)) (StretchFails laws False) := by
  have pages := place.pages
  obtain ⟨hole, bound, -, holds⟩ := place
  have nodup := hole.nodup
  rw [pages] at nodup
  rw [Refilled, pages, append_nil, ensures_bind]
  refine (laws.discard owns holds.stored (treePage_ownedBy _ _ _)).impOr ?_
  intro _ reached ownsAfter
  obtain ⟨freed, above, same⟩ := freed_spec holds hole.context nodup
  refine (removeEmptyChild_spec laws lawful ownsAfter (laws.word owns holds.stored) above
    (nodup_cons.mp nodup).2 (by omega)).imp
      fun root done rebuilt => Rebuilt.trans freed rebuilt fun after top settles => ?_
  rwa [Settles, same] at settles

theorem shortened_spec (lawful : LawfulCodec codec)
    (place : OnLeaf laws heap leaf path (smaller ++ run ++ rest)) (lone : smaller ++ rest ≠ [])
    (storable : Storable ((smaller ++ rest).map Entry.cell))
    (owns : laws.Owns state (Function.update heap leaf.page
      (some (treePage codec laws.txn 0 ((smaller ++ rest).map Entry.cell))))) :
    Ensures (if smaller.length = 0 then
        firstKey codec leaf.page 0 >>= fun first =>
          propagateFirst codec (rootOf leaf.page path) (path.map Level.frame) first
      else pure (rootOf leaf.page path)) state
      (Refilled laws heap leaf path (smaller ++ rest) (Settles (smaller ++ rest = []) heap path))
      (StretchFails laws False) := by
  cases smaller with
  | nil =>
    cases rest with
    | nil => exact absurd rfl lone
    | cons entry others =>
      rw [length_nil, if_pos rfl, ensures_bind]
      refine firstKey_spec laws owns (Holds.of_update laws.txnPositive storable) (by omega)
        (map_cons ..) (entry_reads entry) ?_
      exact (place.first storable owns lawful).imp
        fun root done rebuilt => rebuilt.imp _ (Widens.settles heap lone)
  | cons head others =>
    rw [length_cons, if_neg (Nat.add_one_ne_zero _), ensures_pure]
    exact (place.kept storable owns (by simp [Node.first, place.cut])).imp _
      (Widens.settles heap lone)

theorem deleteTarget_spec (lawful : LawfulCodec codec) {old : Entry codec}
    (owns : laws.Owns state heap) (place : OnLeaf laws heap leaf path (smaller ++ old :: rest)) :
    Ensures (deleteTarget codec (rootOf leaf.page path) (path.map Level.frame) leaf.page
        (filledHeader 0 ((smaller ++ old :: rest).map Entry.cell)) smaller.length) state
      (Refilled laws heap leaf path (smaller ++ rest) (Settles (smaller ++ rest = []) heap path))
      (StretchFails laws False) := by
  have holds := place.holds
  have count : (filledHeader 0 ((smaller ++ old :: rest).map Entry.cell)).itemCount =
      (smaller ++ rest).length + 1 := by
    simp
    omega
  unfold deleteTarget
  rw [count]
  by_cases lone : smaller ++ rest = []
  · have only : ¬ 1 < (smaller ++ rest).length + 1 := by simp [lone]
    rw [if_neg only]
    simp only [lone]
    exact emptied_spec laws lawful owns place
  · have several : 1 < (smaller ++ rest).length + 1 := by
      have some_ := length_pos_iff.mpr lone
      omega
    have cells : (smaller ++ old :: rest).map Entry.cell =
        smaller.map Entry.cell ++ old.cell :: rest.map Entry.cell := by simp
    have storable : Storable ((smaller ++ rest).map Entry.cell) :=
      Storable.sublist holds.storable
        ((List.Sublist.append_left (sublist_cons_self _ _) _).map _) (by simpa using lone)
    have readable := entries_readable (smaller ++ old :: rest)
    have packed := holds.storable.fits
    rw [cells] at readable packed
    have program := removeAt_treePage laws.txn 0 (smaller.map Entry.cell) (rest.map Entry.cell)
      old.cell readable (by rw [← map_append]; simpa using lone) packed
    rw [← cells, ← map_append, length_map] at program
    rw [if_pos several, ensures_bind]
    refine (laws.update owns holds.stored (writable_treePage laws _ _) program
      (treePage_ownedBy _ _ _)).impOr ?_
    rintro _ reached ⟨-, ownsAfter⟩
    rw [ite_not]
    have held : OnLeaf laws heap leaf path (smaller ++ [old] ++ rest) := by simpa using place
    exact shortened_spec laws lawful held lone storable ownsAfter

end Leaves

end IpRange.FixedTree
