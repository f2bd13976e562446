import IpRange.FixedTreeDescent

/-!
Edits of the leaf page a descent found: one record put in place, one record
replaced by several, with the page split where the records do not fit.
-/

namespace IpRange.FixedTree

open Function List SlottedPage

variable {Key Leaf σ : Type} [Store σ] {codec : Codec Key Leaf} (laws : StoreLaws σ)

def leafNode (page : Nat) (entries : List (Entry codec)) (some_ : entries ≠ []) : Node codec where
  page := page
  entries := entries
  below := []
  inhabited := some_

variable {entries records rest : List (Entry codec)} {heap : Heap} {leaf : Node codec}
  {path : List (Level codec)} {state : σ} {entry : Entry codec}

theorem entries_some (storable : Storable (entries.map Entry.cell)) :
    entries ≠ [] := fun none => storable.inhabited (by simp [none])

theorem treeAt_leaf {txn born page : Nat} (some_ : entries ≠ [])
    (holds : Holds heap txn born 0 page codec (entries.map Entry.cell)) :
    TreeAt heap txn 0 (leafNode page entries some_) :=
  ⟨rfl, born, holds⟩

theorem leaf_key {page : Nat} {some_ : entries ≠ []} {cell : Bytes}
    {others more : List Bytes} {key : Key} (shape : entries.map Entry.cell ++ more = cell :: others)
    (reads : Reads codec 0 cell key) :
    key = (leafNode page entries some_).first.key := by
  cases entries with
  | nil => exact absurd rfl some_
  | cons entry rest =>
    have same : entry.cell = cell := (List.cons.inj shape).1
    have both := (entry_reads entry).read.symm.trans (same ▸ reads.read)
    exact (Except.ok.inj both).symm

structure OnLeaf (heap : Heap) (leaf : Node codec) (path : List (Level codec))
    (records : List (Entry codec)) : Prop where
  hole : Hole laws heap 0 leaf path
  bound : path.length ≤ maxTreeLevel
  cut : leaf.entries = records
  holds : Holds heap laws.txn laws.txn 0 leaf.page codec (records.map Entry.cell)

abbrev Refilled (heap : Heap) (leaf : Node codec) (path : List (Level codec))
    (entries : List (Entry codec)) : (Heap → Nat → Prop) → Nat → σ → Prop :=
  Rebuilt laws heap (leaf.pages ++ contextPages path)
    (entriesBefore path ++ entries ++ entriesAfter path)

section OnLeaf

variable {laws} (place : OnLeaf laws heap leaf path records)

include place

theorem OnLeaf.pages : leaf.pages = [leaf.page] := by
  obtain ⟨⟨⟨below, _⟩, _, _⟩, _⟩ := place
  rw [Node.pages, below]

theorem OnLeaf.rewritten (storable : Storable (entries.map Entry.cell)) :
    TreeAt (Function.update heap leaf.page
        (some (treePage codec laws.txn 0 (entries.map Entry.cell)))) laws.txn 0
        (leafNode leaf.page entries (entries_some storable)) ∧
      ContextAt (Function.update heap leaf.page
        (some (treePage codec laws.txn 0 (entries.map Entry.cell)))) laws.txn 0 leaf.page
        leaf.first.key path ∧
      Moves laws.txn heap (Function.update heap leaf.page
        (some (treePage codec laws.txn 0 (entries.map Entry.cell))))
        (leaf.pages ++ contextPages path)
        ((leafNode leaf.page entries (entries_some storable)).pages ++ contextPages path) := by
  have nodup := place.hole.nodup
  rw [place.pages] at nodup ⊢
  refine ⟨treeAt_leaf _ (Holds.of_update laws.txnPositive storable), ?_, ?_⟩
  · refine place.hole.context.congr fun address member => update_of_ne ?_ _ _
    exact fun same => (nodup_append.mp nodup).2.2 leaf.page (by simp) address member same.symm
  · exact Evolves.write nodup (by simp) place.holds.stored (treePage_not_committed _ _ _)
      (treePage_not_committed _ _ _)

variable (storable : Storable ((entry :: rest).map Entry.cell))
  (owns : laws.Owns state (Function.update heap leaf.page
    (some (treePage codec laws.txn 0 ((entry :: rest).map Entry.cell)))))

include storable owns

theorem OnLeaf.first (lawful : LawfulCodec codec) :
    Ensures (propagateFirst codec (rootOf leaf.page path) (path.map Level.frame) entry.key) state
      (Refilled laws heap leaf path (entry :: rest) (Widens codec False path))
      (StretchFails laws False) := by
  have shallow := place.bound
  obtain ⟨tree, context, moves⟩ := place.rewritten storable
  exact ((propagate_specs laws lawful path).1 0 _ state _ _ owns tree context moves.nodup
    (by omega)).imp fun root reached rebuilt => Rebuilt.trans moves rebuilt
      (Widens.mono (not_lonely_leaf (update_self _ _ _)))

theorem OnLeaf.kept (same : leaf.first.key = entry.key) :
    Refilled laws heap leaf path (entry :: rest) (Widens codec False path) (rootOf leaf.page path)
      state := by
  have shallow := place.bound
  obtain ⟨tree, context, moves⟩ := place.rewritten storable
  rw [same] at context
  exact Rebuilt.trans moves (rebuilt_plug laws owns tree context moves.nodup (by omega))
    (Widens.mono (not_lonely_leaf (update_self _ _ _)))

end OnLeaf

theorem entries_readable (entries : List (Entry codec)) :
    Readable codec 0 (entries.map Entry.cell) := by
  intro cell member
  obtain ⟨entry, _, rfl⟩ := mem_map.mp member
  exact ⟨_, entry_reads entry⟩

theorem OnLeaf.split {laws : StoreLaws σ} (lawful : LawfulCodec codec) {middle rightPage : Nat}
    {leftFirst rightFirst : Key} (place : OnLeaf laws heap leaf path records)
    (splits : SplitsAt (entries.map Entry.cell) middle)
    (parted : Parted laws codec heap 0 leaf.page (entries.map Entry.cell) middle rightPage
      leftFirst rightFirst state) :
    Ensures (propagateSplit codec (rootOf leaf.page path) (path.map Level.frame) leaf.page leftFirst
        rightPage rightFirst 0) state
      (Refilled laws heap leaf path entries (Widens codec False path))
      (StretchFails laws False) := by
  obtain ⟨unused, leftReads, rightReads, owns⟩ := parted
  have pages := place.pages
  obtain ⟨hole, bound, -, holds⟩ := place
  have nodup := hole.nodup
  obtain ⟨_, leftHolds, rightHolds⟩ :=
    parted_holds holds unused splits (entries_readable entries).present
  obtain ⟨moved, unchanged⟩ := parted_moves (entries.map Entry.cell) middle holds unused nodup
    hole.held (by simp [pages])
  generalize partedHeap codec heap laws.txn 0 leaf.page (entries.map Entry.cell) middle
    rightPage = after at owns leftHolds rightHolds moved unchanged
  rw [← map_take] at leftHolds
  rw [← map_drop] at rightHolds rightReads
  have leftSome := entries_some leftHolds.storable
  have rightSome := entries_some rightHolds.storable
  have perm : ((leafNode leaf.page (entries.take middle) leftSome).pages ++
      (leafNode rightPage (entries.drop middle) rightSome).pages ++ contextPages path).Perm
      (rightPage :: (leaf.pages ++ contextPages path)) := by
    rw [pages]
    exact List.Perm.swap _ _ _
  have moves := moved.congr (fun _ => Iff.rfl) perm
  have context := hole.context.congr fun address member =>
    unchanged address (mem_append_right _ member) fun same =>
      (nodup_append.mp nodup).2.2 leaf.page (by simp [pages]) address member same.symm
  have leftKey : leftFirst = (leafNode leaf.page (entries.take middle) leftSome).first.key := by
    obtain ⟨rest, first, shape, reads⟩ := leftReads
    rw [← take_append_drop middle entries, map_append] at shape
    exact leaf_key shape reads
  have rightKey : rightFirst = (leafNode rightPage (entries.drop middle) rightSome).first.key := by
    obtain ⟨first, rest, shape, reads⟩ := rightReads
    exact leaf_key (by rw [append_nil]; exact shape) reads
  have run := (propagate_specs laws lawful path).2 0 _ state
    (leafNode leaf.page (entries.take middle) leftSome)
    (leafNode rightPage (entries.drop middle) rightSome) _ owns (treeAt_leaf _ leftHolds)
    (treeAt_leaf _ rightHolds) context moves.nodup (by omega)
  rw [leftKey, rightKey]
  refine run.imp fun root reached rebuilt => Rebuilt.trans moves ?_ fun _ _ widens => widens
  simpa [leafNode] using rebuilt

theorem cut_cells (smaller rest : List (Entry codec)) (stored : Option (Entry codec)) :
    (smaller ++ stored.toList ++ rest).map Entry.cell = smaller.map Entry.cell ++
      (stored.map Entry.cell).toList ++ rest.map Entry.cell := by
  cases stored <;> simp

section EditLeaf

variable {state : σ} {heap : Heap} {leaf : Node codec} {path : List (Level codec)}
  {smaller rest : List (Entry codec)} {stored : Option (Entry codec)} {entry : Entry codec}

def targetAt (path : List (Level codec)) (page : Nat) (smaller rest : List (Entry codec))
    (stored : Option (Entry codec)) : LeafTarget where
  path := path.map Level.frame
  pageNumber := page
  header := filledHeader 0 ((smaller ++ stored.toList ++ rest).map Entry.cell)
  index := smaller.length
  found := stored.isSome

/-- A record of variable size that takes over half a page, so that it can keep a page from splitting. -/
def Bulky (codec : Codec Key Leaf) (cell : Bytes) : Prop :=
  codec.leafSize = 0 ∧ maxSplitCell < cell.length

theorem Bulky.long (bulky : Bulky codec entry.cell) : maxTreeCell < codec.maxLeafSize := by
  have bounded := entry.bounded
  have size := bulky.2
  simp only [maxSplitCell, pageSize, headerSize, maxTreeCell] at size ⊢
  omega

theorem bulky_of_not_separable (lawful : LawfulCodec codec)
    (packed : usedBytes ((smaller ++ stored.toList ++ rest).map Entry.cell) ≤ pageSize)
    (full : ¬ usedBytes ((smaller ++ entry :: rest).map Entry.cell) ≤ pageSize)
    (stuck : ¬ Separable (smaller.map Entry.cell) (rest.map Entry.cell) entry.cell) :
    Bulky codec entry.cell := by
  have kept : usedBytes (smaller.map Entry.cell ++ rest.map Entry.cell) ≤ pageSize := by
    refine le_trans (usedBytes_sublist ?_) packed
    rw [← map_append]
    exact List.Sublist.map _ (List.Sublist.append_right (sublist_append_left _ _) _)
  have exceeds : ¬ usedBytes (smaller.map Entry.cell ++ entry.cell :: rest.map Entry.cell) ≤
      pageSize := by
    simpa using full
  constructor
  · by_contra fixed
    have sized (other : Entry codec) : other.cell.length = codec.leafSize := by
      have layout := other.layout
      rw [lawful.leafFixed fixed] at layout
      exact layout
    refine stuck (separable_of_fixed (fun cell member => ?_) (sized entry)
      (alone_fits lawful _ (Or.inr entry.bounded)) kept exceeds)
    rw [← map_append] at member
    obtain ⟨other, _, rfl⟩ := mem_map.mp member
    exact sized other
  · by_contra short
    exact stuck (separable_of_small (by omega) kept exceeds)

variable (entry) in
theorem splitLeaf_spec (lawful : LawfulCodec codec) (owns : laws.Owns state heap)
    (place : OnLeaf laws heap leaf path (smaller ++ stored.toList ++ rest))
    (full : ¬ usedBytes ((smaller ++ entry :: rest).map Entry.cell) ≤ pageSize) :
    Ensures (splitLeaf codec (rootOf leaf.page path) (targetAt path leaf.page smaller rest stored)
        { index := smaller.length, replace := stored.isSome, cell := entry.cell }) state
      (Refilled laws heap leaf path (smaller ++ entry :: rest) (Widens codec False path))
      (StretchFails laws
        (¬ Separable (smaller.map Entry.cell) (rest.map Entry.cell) entry.cell)) := by
  have holds := place.holds
  have cells := cut_cells smaller rest stored
  have readable := entries_readable (smaller ++ stored.toList ++ rest)
  have readsAll := entries_readable (smaller ++ entry :: rest)
  have packed := holds.storable.fits
  have joined : smaller.map Entry.cell ++ entry.cell :: rest.map Entry.cell =
      (smaller ++ entry :: rest).map Entry.cell := by simp
  have several := two_of_full (smaller.map Entry.cell) [entry.cell] (rest.map Entry.cell) (by simp)
    (by simpa using alone_fits lawful _ (Or.inr entry.bounded)) (by simpa using full)
  rw [append_assoc, singleton_append] at several
  have edit : ({ index := smaller.length, replace := stored.isSome, cell := entry.cell } : Edit) =
      leafEdit (smaller.map Entry.cell) (stored.map Entry.cell) entry.cell := by
    simp [leafEdit]
  have stored_ := holds.stored
  rw [cells] at readable packed stored_
  have chosen := splitIndex_leafEdit laws.txn 0 _ _ _ entry.cell readable lawful entry.key
    (entry_reads entry) several
  simp only [splitLeaf, splitLeafAt, targetAt, edit, cells, ensures_bind, viewPage,
    ensures_get, laws.inspect owns stored_, ensures_liftResult_ok, leafEdit_total]
  rcases chosen with ⟨middle, found, splits⟩ | failed
  · rw [found, ensures_liftResult_ok]
    refine parts_spec laws owns (by omega) (cells ▸ holds) (joined ▸ readsAll) splits
      (fun blank => ?_) (fun copied after ownsRight stored_ => ?_)
      fun fresh cut leftFirst rightFirst parted left right => ?_
    · exact buildEdit_leafEdit laws.txn 0 _ _ _ entry.cell readable entry.present blank middle
        splits
    · have kept := keepLeftRecord_leafEdit laws.txn 0 _ _ _ entry.cell readable entry.present
        packed lawful middle splits
      simp only [keepLeftEdit, ensures_bind, ensures_get, laws.target ownsRight]
      exact (laws.update ownsRight stored_ (writable_treePage laws _ _) kept
        (treePage_ownedBy _ _ _)).imp fun _ _ written => written.2
    · rw [joined] at splits parted
      refine left (right ?_)
      exact (place.split lawful splits parted).mono
        (fun _ _ rebuilt => rebuilt) fun error _ failed => failed.imp False.elim
  · rw [failed.2, ensures_liftResult_error]
    refine Or.inr (Or.inr ⟨fun separable => ?_, rfl⟩)
    obtain ⟨middle, splits⟩ := separable.exists_split (le_trans (usedBytes_sublist (by simp)) packed)
    exact failed.1 middle splits

variable (entry) in
theorem editLeaf_spec (lawful : LawfulCodec codec) (owns : laws.Owns state heap)
    (place : OnLeaf laws heap leaf path (smaller ++ stored.toList ++ rest)) :
    Ensures (editLeaf codec (rootOf leaf.page path) entry.cell
        (targetAt path leaf.page smaller rest stored)) state
      (fun result reached => (result.1 = true ↔ stored = none ∨
          ¬ usedBytes ((smaller ++ entry :: rest).map Entry.cell) ≤ pageSize) ∧
        Refilled laws heap leaf path (smaller ++ entry :: rest) (Widens codec False path) result.2
          reached)
      (StretchFails laws (Bulky codec entry.cell)) := by
  have holds := place.holds
  have cells := cut_cells smaller rest stored
  have readable := entries_readable (smaller ++ stored.toList ++ rest)
  have packed := holds.storable.fits
  have stored_ := holds.stored
  rw [cells] at readable packed stored_
  have joined : smaller.map Entry.cell ++ entry.cell :: rest.map Entry.cell =
      (smaller ++ entry :: rest).map Entry.cell := by simp
  have measured := editFits_leafEdit laws.txn 0 _ _ _ entry.cell readable entry.present packed
  have edit : ({ index := smaller.length, replace := stored.isSome, cell := entry.cell } : Edit) =
      leafEdit (smaller.map Entry.cell) (stored.map Entry.cell) entry.cell := by
    simp [leafEdit]
  have split := splitLeaf_spec laws entry lawful owns place
  unfold editLeaf
  simp only [targetAt, ensures_bind] at split ⊢
  refine ensures_viewPage laws owns stored_ (by rw [cells, edit]; exact measured) ?_
  rw [joined]
  by_cases fits : usedBytes ((smaller ++ entry :: rest).map Entry.cell) ≤ pageSize
  · have storable : Storable ((smaller ++ entry :: rest).map Entry.cell) :=
      ⟨by simp, (entries_readable _).present, fits⟩
    have applied := applyEdit_leafEdit laws.txn 0 _ _ _ entry.cell readable entry.present packed
      (by rw [joined]; exact fits)
    rw [← edit, ← cells, joined] at applied
    simp only [fits, decide_true, Bool.not_true, Bool.false_eq_true, if_false, ensures_bind]
    refine (laws.update owns holds.stored (writable_treePage laws _ _) applied
      (treePage_ownedBy _ _ _)).impOr ?_
    rintro _ reached ⟨-, ownsAfter⟩
    cases smaller with
    | nil =>
      simp only [length_nil, if_true, entry.keyRead, ensures_bind, ensures_liftResult_ok,
        ensures_pure]
      refine (place.first storable ownsAfter lawful).mono ?_
        fun error _ failed => failed.imp False.elim
      exact fun root done rebuilt => ⟨by simp, rebuilt⟩
    | cons head others =>
      simp only [length_cons, Nat.add_one_ne_zero, if_false, ensures_pure]
      refine ⟨by simp, ?_⟩
      exact place.kept storable ownsAfter (by simp [Node.first, place.cut])
  · simp only [fits, decide_false, Bool.not_false, if_true, ensures_bind, ensures_pure]
    refine (split fits).mono (fun root reached rebuilt => ⟨by simp, rebuilt⟩) ?_
    exact fun error _ failed => failed.imp
      (bulky_of_not_separable lawful (by rw [cells]; exact packed) fits)

end EditLeaf

theorem replaceTarget_spec (more : List (Entry codec)) (lawful : LawfulCodec codec)
    {smaller : List (Entry codec)} {old first : Entry codec} (owns : laws.Owns state heap)
    (place : OnLeaf laws heap leaf path (smaller ++ old :: rest)) (same : first.key = old.key)
    (few : (first :: more).length ≤ 3) :
    Ensures (replaceTarget codec (rootOf leaf.page path)
        (targetAt path leaf.page smaller rest (some old)) ((first :: more).map Entry.cell)) state
      (Refilled laws heap leaf path (smaller ++ first :: more ++ rest) (Widens codec False path))
      (GrowthFails laws codec) := by
  have cells : (smaller ++ old :: rest).map Entry.cell =
      smaller.map Entry.cell ++ old.cell :: rest.map Entry.cell := by simp
  have readable := entries_readable (smaller ++ old :: rest)
  have held := place.holds
  rw [cells] at readable held
  have run := applyReplacement_spec laws (maxTreeCell < codec.maxLeafSize) lawful owns (by omega)
    held readable (entries_readable (first :: more)) (by simp) (by simpa using few) (by
      intro limit cell member
      rw [← map_append, ← map_append] at member
      obtain ⟨entry, _, rfl⟩ := mem_map.mp member
      exact le_trans entry.bounded (Nat.not_lt.mp limit)) (by
      intro cell member
      obtain ⟨entry, _, rfl⟩ := mem_map.mp member
      exact alone_fits lawful _ (Or.inr entry.bounded))
  rw [← cells, ← map_append, ← map_append, length_map] at run
  have header : (smaller ++ (some old).toList ++ rest) = smaller ++ old :: rest := by simp
  simp only [replaceTarget, targetAt, header, ensures_bind]
  refine run.imp ?_
  intro result reached outcome
  cases outcome with
  | whole _ storable ownsWhole =>
    rw [ensures_pure]
    cases smaller with
    | nil =>
      exact place.kept storable ownsWhole (by simp [Node.first, place.cut, same])
    | cons head others =>
      exact place.kept storable ownsWhole (by simp [Node.first, place.cut])
  | split _ split middle splits unused sameLevel leftReads rightReads ownsBoth =>
    simp only [sameLevel, ne_eq, not_true_eq_false, if_false]
    refine (place.split lawful splits
      ⟨unused, leftReads, rightReads, ownsBoth⟩).mono (fun _ _ rebuilt => rebuilt) ?_
    exact fun error _ failed => StretchFails.imp failed False.elim

theorem newLeaf_spec (lawful : LawfulCodec codec) (owns : laws.Owns state heap) :
    Ensures (newLeaf codec entry.cell) state (Rebuilt laws heap [] [entry]
      fun after root => ¬ Lonely codec after root) (StretchFails laws False) := by
  have storable : Storable ([entry].map Entry.cell) :=
    ⟨by simp, by simpa using entry.present, alone_fits lawful _ (Or.inr entry.bounded)⟩
  unfold newLeaf
  rw [ensures_bind]
  refine (laws.allocate owns).impOr ?_
  rintro fresh reached ⟨unused, blank, blankPrivate, ownsFresh⟩
  have built := build_filledPage blank codec.leafType laws.txn 0 codec.aux [entry.cell] storable
  have pageType : codec.leafType = pageTypeAt codec 0 := by simp [pageTypeAt]
  rw [pageType] at built
  simp only [ensures_bind, ensures_get, laws.target ownsFresh, pageType]
  refine (laws.update ownsFresh (update_self _ _ _) blankPrivate built
    (treePage_ownedBy _ _ _)).impOr ?_
  rintro _ done ⟨-, ownsLeaf⟩
  rw [update_idem] at ownsLeaf
  rw [ensures_pure]
  refine ⟨_, [fresh], ownsLeaf, Or.inr ⟨0, leafNode fresh [entry] (by simp), by omega,
    treeAt_leaf _ (Holds.of_update laws.txnPositive storable), rfl, rfl, rfl⟩, ?_,
    not_lonely_leaf (update_self _ _ _)⟩
  exact Evolves.allocate (by simp) (by simp) unused (treePage_not_committed _ _ _)

end IpRange.FixedTree
