import IpRange.RangeStore
import IpRange.RangeBulkCore

/-!
The bulk builder yields well-formed trees. Each level holds finished subtrees
back until it can place them; together with the open leaf they hold all records
pushed so far, in order.
-/

set_option linter.unusedSectionVars false

namespace IpRange.RangeBulk

open Function List SlottedPage FixedTree

variable {K σ : Type} [IpKey K] [Store σ]

variable (K) in
def cellSize (level : Nat) : Nat := if level = 0 then recordSize K else IpKey.width K + 4

variable (K) in
def fillingPage (txn level : Nat) (cells : List Bytes) : Page :=
  appenderPage (pageTypeAt (rangeCodec K) level) txn level (IpKey.family K) cells

theorem fillingPage_ownedBy (txn level : Nat) (cells : List Bytes) :
    (fillingPage K txn level cells).ownedBy txn = true := by
  simp [fillingPage, appenderPage, initializePage, Page.ownedBy, Page.hasMagic]

structure PackedAt (heap : Heap) (txn level : Nat) (page : PackedPage K) (address : Nat)
    (first : Option K) (cells : List Bytes) : Prop where
  same : page = { appender := some (appenderFor cells), first, pageNumber := some address }
  stored : heap address = some (fillingPage K txn level cells)
  fits : usedBytes cells ≤ pageSize
  sizes : ∀ cell ∈ cells, cell.length = cellSize K level

section Levels

abbrev Subtree (K : Type) [IpKey K] := FixedTree.Node (rangeCodec K)

def ref (node : Subtree K) : Node K := { first := node.first.key, pageNumber := node.page }

def BranchAt (heap : Heap) (txn level : Nat) (branch : BranchLevel K) (kids : List (Subtree K))
    (own : List Nat) : Prop :=
  (branch.page = PackedPage.empty ∧ own = [] ∧ ((kids = [] ∧ branch.onlyChild = none) ∨
    ∃ kid, kids = [kid] ∧ branch.onlyChild = some (ref kid))) ∨
  ∃ address first rest, own = [address] ∧ kids = first :: rest ∧ rest ≠ [] ∧
    branch.onlyChild = none ∧ PackedAt heap txn (level + 1) branch.page address
      (some first.first.key) ((first :: rest).map FixedTree.Node.cell)

def branchFanout : Nat := 184

def Stocked (level : Nat) (node : Subtree K) : Prop := branchFanout ^ level ≤ node.pages.length

/-- One level with the records and pages of those above it: subtrees held back higher up come
first. A level that never emitted a page has nothing above it. -/
structure Holding (heap : Heap) (txn level : Nat) (branch : BranchLevel K)
    (kids : List (Subtree K)) (own : List Nat) (upper : List (Entry (rangeCodec K)))
    (abovePages : List Nat) (entries : List (Entry (rangeCodec K))) (pages : List Nat) : Prop where
  branch_ : BranchAt heap txn level branch kids own
  trees : ∀ kid ∈ kids, TreeAt heap txn level kid
  entries_ : entries = upper ++ kids.flatMap FixedTree.Node.entries
  pages_ : pages = own ++ (kids.flatMap FixedTree.Node.pages ++ abovePages)
  emitted : if branch.emitted then kids ≠ [] ∧ upper ≠ [] else upper = [] ∧ abovePages = []

def LevelsAt (heap : Heap) (txn : Nat) :
    Nat → List (BranchLevel K) → List (Entry (rangeCodec K)) → List Nat → Prop
  | _, [], entries, pages => entries = [] ∧ pages = []
  | level, branch :: above, entries, pages => ∃ kids own upper abovePages,
      Holding heap txn level branch kids own upper abovePages entries pages ∧
      LevelsAt heap txn (level + 1) above upper abovePages ∧ ∀ kid ∈ kids, Stocked level kid

def PlacedAt (heap : Heap) (txn level : Nat) (node : Subtree K)
    (before : List (Entry (rangeCodec K))) (branches : List (BranchLevel K)) (pages : List Nat) :
    Prop :=
  ∃ branch above kids own upper abovePages, branches = branch :: above ∧
    Holding heap txn level branch kids own upper abovePages (before ++ node.entries) pages ∧
    LevelsAt heap txn (level + 1) above upper abovePages ∧
    (∀ kid ∈ kids, kid = node ∨ Stocked level kid) ∧
    (before ≠ [] → branch.emitted = true ∨ 2 ≤ kids.length)

variable {heap other : Heap} {txn level : Nat} {pages own abovePages : List Nat} {branch : BranchLevel K}
  {kids : List (Subtree K)} {branches : List (BranchLevel K)}
  {upper entries : List (Entry (rangeCodec K))}

theorem PackedAt.congr {page : PackedPage K} {address : Nat} {first : Option K} {cells : List Bytes}
    (packed : PackedAt heap txn level page address first cells)
    (same : other address = heap address) : PackedAt other txn level page address first cells :=
  ⟨packed.same, same.trans packed.stored, packed.fits, packed.sizes⟩

theorem BranchAt.congr (at_ : BranchAt heap txn level branch kids own)
    (same : ∀ address ∈ own, other address = heap address) :
    BranchAt other txn level branch kids own := by
  rcases at_ with idle | ⟨address, first, rest, rfl, isKids, more, only, packed⟩
  · exact Or.inl idle
  · exact Or.inr ⟨address, first, rest, rfl, isKids, more, only,
      packed.congr (same address (by simp))⟩

theorem Holding.congr
    (holding : Holding heap txn level branch kids own upper abovePages entries pages)
    (same : ∀ address ∈ pages, other address = heap address) :
    Holding other txn level branch kids own upper abovePages entries pages := by
  obtain ⟨at_, trees, isEntries, rfl, emitted⟩ := holding
  refine ⟨at_.congr fun address member => same address (by simp [member]), ?_, isEntries, rfl,
    emitted⟩
  intro kid member
  refine (trees kid member).congr fun address inKid => same address ?_
  simp only [mem_append, mem_flatMap]
  exact Or.inr (Or.inl ⟨kid, member, inKid⟩)

theorem LevelsAt.congr (levels : LevelsAt heap txn level branches entries pages)
    (same : ∀ address ∈ pages, other address = heap address) :
    LevelsAt other txn level branches entries pages := by
  induction branches generalizing level entries pages with
  | nil => exact levels
  | cons branch above ih =>
    obtain ⟨kids, own, upper, abovePages, holding, higher, stocked⟩ := levels
    refine ⟨kids, own, upper, abovePages, holding.congr same, ih higher ?_, stocked⟩
    intro address member
    exact same address (by simp [holding.pages_, member])

theorem LevelsAt.pages_nil (levels : LevelsAt heap txn level branches [] pages) : pages = [] := by
  induction branches generalizing level pages with
  | nil => exact levels.2
  | cons branch above ih =>
    obtain ⟨kids, own, upper, abovePages, ⟨at_, _, isEntries, rfl, _⟩, higher, _⟩ := levels
    obtain ⟨rfl, noKids⟩ := append_eq_nil_iff.mp isEntries.symm
    have none : kids = [] := by
      by_contra some_
      exact flatMap_entries_ne_nil kids some_ noKids
    subst none
    rcases at_ with ⟨-, rfl, -⟩ | ⟨_, _, _, _, some_, _⟩
    · simpa using ih higher
    · cases some_

theorem LevelsAt.length_le (levels : LevelsAt heap txn level branches entries pages) :
    entries.length ≤ pages.length * pageSize := by
  induction branches generalizing level entries pages with
  | nil => simp [levels.1]
  | cons branch above ih =>
    obtain ⟨kids, own, upper, abovePages, ⟨_, trees, rfl, rfl, _⟩, higher, _⟩ := levels
    have below := flatMap_length_le kids fun kid member => (trees kid member).length_le
    have upper_ := ih higher
    simp only [length_append, Nat.add_mul]
    omega

theorem PlacedAt.levels {node : Subtree K} {before : List (Entry (rangeCodec K))}
    (placed : PlacedAt heap txn level node before branches pages) (stocked : Stocked level node) :
    LevelsAt heap txn level branches (before ++ node.entries) pages := by
  obtain ⟨branch, above, kids, own, upper, abovePages, rfl, holding, higher, full, -⟩ := placed
  refine ⟨kids, own, upper, abovePages, holding, higher, fun kid member => ?_⟩
  rcases full kid member with rfl | isStocked
  · exact stocked
  · exact isStocked

end Levels

variable [LawfulIpKey K] {laws : StoreLaws σ} {frame heap : Heap} {pages : List Nat} {state : σ}
  {level address : Nat}

theorem cellSize_bounds (level : Nat) : 0 < cellSize K level ∧ cellSize K level ≤ 36 := by
  have narrow := LawfulIpKey.narrow (K := K)
  unfold cellSize recordSize
  split
  · omega
  · omega

theorem tryPush_full (pageType txn level aux size : Nat) (cells : List Bytes) (record : Bytes)
    (positive : 0 < size) (small : size ≤ 36) (fits : usedBytes cells ≤ pageSize)
    (sizes : ∀ cell ∈ cells, cell.length = size) (length : record.length = size)
    (full : pageSize < usedBytes (cells ++ [record])) :
    (appenderFor cells).tryPush record (appenderPage pageType txn level aux cells) =
      .ok none (appenderPage pageType txn level aux cells) := by
  have total := payload_fixed cells size sizes
  simp only [usedBytes, length_append, length_singleton, payload_append, payload_cons,
    payload_nil, total, pageSize, headerSize] at fits full
  have present : record ≠ [] := by
    rintro rfl
    simp at length
    omega
  have area : ¬ (appenderFor cells).upper < record.length := by
    simp only [appenderFor, total, pageSize]
    intro short
    have few : cells.length ≤ 1 := by omega
    have payload_ : cells.length * size ≤ 1 * size := Nat.mul_le_mul_right size few
    omega
  have room : (appenderFor cells).upper - record.length <
      headerSize + ((appenderFor cells).itemCount + 1) * 2 := by
    simp only [appenderFor, total, pageSize, headerSize]
    omega
  simp only [Appender.tryPush, List.isEmpty_iff, present, if_false, if_neg area, if_pos room]
  rfl

theorem start_spec (level : Nat) (owning : Owning laws frame pages heap state) :
    Ensures (PackedPage.start K laws.txn level) state (fun page reached => ∃ address content,
      heap address = none ∧
      Owning laws frame (address :: pages) (Function.update heap address content) reached ∧
      PackedAt (Function.update heap address content) laws.txn level page address none [])
      laws.Fails := by
  rw [PackedPage.start, ensures_bind]
  refine owning.allocate.imp ?_
  rintro address reached ⟨unused, given, writable, owning⟩
  have run : Appender.new (pageTypeAt (rangeCodec K) level) laws.txn level (IpKey.family K) given =
      .ok (appenderFor []) (fillingPage K laws.txn level []) := rfl
  refine Ensures.bind (owning.update (by simp) (update_self _ _ _) writable run
    (fillingPage_ownedBy _ _ _)) ?_
  rintro appender last ⟨rfl, owning⟩
  rw [update_idem] at owning
  rw [ensures_pure]
  exact ⟨address, _, unused, owning, rfl, update_self _ _ _, by decide, by simp⟩

variable {page : PackedPage K}

theorem push_spec {first : Option K} {cells : List Bytes} (key : K) (cell : Bytes)
    (owning : Owning laws frame pages heap state) (member : address ∈ pages)
    (packed : PackedAt heap laws.txn level page address first cells)
    (size : cell.length = cellSize K level) :
    Ensures (page.push key cell) state (fun result reached =>
      (result.1 = true ∧ usedBytes (cells ++ [cell]) ≤ pageSize ∧ ∃ content,
        Owning laws frame pages (Function.update heap address content) reached ∧
        PackedAt (Function.update heap address content) laws.txn level result.2 address
          (some (first.getD key)) (cells ++ [cell])) ∨
      (result.1 = false ∧ result.2 = page ∧ cells ≠ [] ∧ pageSize < usedBytes (cells ++ [cell]) ∧
        Owning laws frame pages heap reached))
      laws.Fails := by
  obtain ⟨positive, small⟩ := cellSize_bounds (K := K) level
  have present : cell ≠ [] := by
    rintro rfl
    simp at size
    omega
  have sizes : ∀ other ∈ cells ++ [cell], other.length = cellSize K level := by
    intro other inCells
    rcases mem_append.mp inCells with old | new
    · exact packed.sizes other old
    · rw [mem_singleton.mp new]
      exact size
  have writable := laws.writable _ (fillingPage_ownedBy (K := K) laws.txn level cells)
  rw [packed.same, PackedPage.push, ensures_bind]
  by_cases fits : usedBytes (cells ++ [cell]) ≤ pageSize
  · refine (owning.update member packed.stored writable
      (tryPush_appenderPage _ _ _ _ cells cell present fits)
      (fillingPage_ownedBy (K := K) laws.txn level (cells ++ [cell]))).imp ?_
    rintro result reached ⟨rfl, owning⟩
    rw [ensures_pure]
    exact Or.inl ⟨rfl, fits, _, owning, rfl, update_self _ _ _, fits, sizes⟩
  · have full := not_le.mp fits
    refine (owning.update member packed.stored writable
      (tryPush_full _ _ _ _ _ cells cell positive small packed.fits packed.sizes size full)
      (fillingPage_ownedBy (K := K) laws.txn level cells)).imp ?_
    rintro result reached ⟨rfl, owning⟩
    have same : Function.update heap address (some (fillingPage K laws.txn level cells)) = heap := by
      rw [← packed.stored, update_eq_self]
    rw [ensures_pure]
    refine Or.inr ⟨rfl, rfl, ?_, full, same ▸ owning⟩
    rintro rfl
    simp only [usedBytes, nil_append, length_singleton, payload_cons, payload_nil, size,
      pageSize, headerSize] at full
    omega

theorem finish_spec {first : K} {cells : List Bytes} (owning : Owning laws frame pages heap state)
    (member : address ∈ pages)
    (packed : PackedAt heap laws.txn level page address (some first) cells) (some_ : cells ≠ []) :
    Ensures page.finish state (fun result reached => result = (⟨first, address⟩, PackedPage.empty) ∧
      Storable cells ∧ Owning laws frame pages
        (Function.update heap address (some (treePage (rangeCodec K) laws.txn level cells))) reached)
      laws.Fails := by
  have writable := laws.writable _ (fillingPage_ownedBy (K := K) laws.txn level cells)
  have storable : Storable cells := by
    refine ⟨some_, ?_, packed.fits⟩
    rintro cell inCells rfl
    have size := packed.sizes _ inCells
    have positive := (cellSize_bounds (K := K) level).1
    simp at size
    omega
  have run : (appenderFor cells).finish (fillingPage K laws.txn level cells) =
      .ok () (treePage (rangeCodec K) laws.txn level cells) := by
    have built := pushAll_appenderPage (pageTypeAt (rangeCodec K) level) laws.txn level
      (IpKey.family K) cells [] (by simpa using storable)
    rw [append_nil] at built
    exact built
  rw [packed.same, PackedPage.finish, ensures_bind]
  refine (owning.update member packed.stored writable run (treePage_ownedBy _ _ _)).imp ?_
  rintro _ reached ⟨-, owning⟩
  rw [ensures_pure]
  exact ⟨rfl, storable, owning⟩

section Push

variable {branch : BranchLevel K} {kids : List (Subtree K)} {own extra : List Nat}

theorem node_cell (node : Subtree K) :
    (rangeCodec K).writeBranch (ref node).first (ref node).pageNumber =
    .ok node.cell ∧ ∀ level, node.cell.length = cellSize K (level + 1) := by
  refine ⟨rfl, fun level => ?_⟩
  have same : node.cell = IpKey.writeLe node.first.key ++ toLeBytes 4 node.page := rfl
  simp [same, cellSize, LawfulIpKey.writeLength]

theorem full_fanout {cells : List Bytes} {cell : Bytes}
    (sizes : ∀ other ∈ cells, other.length = cellSize K (level + 1))
    (size : cell.length = cellSize K (level + 1))
    (full : pageSize < usedBytes (cells ++ [cell])) : branchFanout ≤ cells.length := by
  have narrow := LawfulIpKey.narrow (K := K)
  have small : cellSize K (level + 1) ≤ 20 := by
    simp only [cellSize, Nat.add_one_ne_zero, if_false]
    omega
  have total := payload_fixed cells (cellSize K (level + 1)) sizes
  simp only [usedBytes, length_append, length_singleton, payload_append, payload_cons,
    payload_nil, total, size, pageSize, headerSize] at full
  have most : cells.length * cellSize K (level + 1) ≤ cells.length * 20 :=
    Nat.mul_le_mul_left cells.length small
  simp only [branchFanout]
  omega

theorem owned_few (owning : Owning laws frame pages heap state) : pages.length ≤ 2 ^ 32 := by
  refine length_le_of_nodup owning.nodup fun address member => ?_
  obtain ⟨page, stored⟩ := Option.ne_none_iff_exists'.mp (owning.held address member)
  exact laws.word owning.owns stored

variable {page : PackedPage K} {node : Subtree K}

theorem pushCell_spec {first : Option K} {cells : List Bytes} (node : Subtree K)
    (owning : Owning laws frame pages heap state) (member : address ∈ pages)
    (packed : PackedAt heap laws.txn (level + 1) page address first cells) :
    Ensures (BranchLevel.pushCell page (ref node)) state (fun result reached =>
      (result.1 = true ∧ ∃ content,
        Owning laws frame pages (Function.update heap address content) reached ∧
        PackedAt (Function.update heap address content) laws.txn (level + 1) result.2 address
          (some (first.getD node.first.key)) (cells ++ [node.cell])) ∨
      (result.1 = false ∧ result.2 = page ∧ cells ≠ [] ∧ branchFanout ≤ cells.length ∧
        Owning laws frame pages heap reached))
      laws.Fails := by
  rw [BranchLevel.pushCell, ensures_bind, (node_cell node).1, ensures_liftResult_ok]
  refine (push_spec (ref node).first node.cell owning member packed ((node_cell node).2 level)).imp ?_
  rintro result reached (⟨fits, -, content, owning, packed⟩ | ⟨refused, same, some_, full, owning⟩)
  · exact Or.inl ⟨fits, content, owning, packed⟩
  · refine Or.inr ⟨refused, same, some_, ?_, owning⟩
    refine full_fanout (K := K) packed.sizes ((node_cell node).2 level) full

theorem startWith_spec (level : Nat) (node : Subtree K) (owning : Owning laws frame pages heap state) :
    Ensures (BranchLevel.startWith laws.txn level (ref node)) state (fun page reached =>
      ∃ address content, heap address = none ∧
      Owning laws frame (address :: pages) (Function.update heap address content) reached ∧
      PackedAt (Function.update heap address content) laws.txn (level + 1) page address
        (some node.first.key) [node.cell]) laws.Fails := by
  rw [BranchLevel.startWith, ensures_bind]
  refine (start_spec (level + 1) owning).imp ?_
  rintro page reached ⟨address, content, unused, owning, packed⟩
  refine Ensures.bind (pushCell_spec node owning (by simp) packed) ?_
  rintro ⟨fits, page⟩ last (⟨rfl, content, owning, packed⟩ | ⟨-, -, some_, -, -⟩)
  · rw [update_idem] at owning packed
    exact ⟨address, content, unused, owning, packed⟩
  · exact absurd rfl some_

theorem openPage_spec (owning : Owning laws frame (own ++ extra) heap state)
    (at_ : BranchAt heap laws.txn level branch kids own) :
    Ensures (BranchLevel.openPage laws.txn level branch) state (fun result reached =>
      match result with
      | none => kids = [] ∧ own = [] ∧ branch.page = PackedPage.empty ∧ reached = state
      | some page => ∃ after address first rest, kids = first :: rest ∧
          Owning laws frame (address :: extra) after reached ∧
          PackedAt after laws.txn (level + 1) page address (some first.first.key)
            ((first :: rest).map FixedTree.Node.cell) ∧
          ∀ other ∈ extra, after other = heap other) laws.Fails := by
  rw [BranchLevel.openPage]
  rcases at_ with ⟨idle, rfl, (⟨rfl, only⟩ | ⟨kid, rfl, only⟩)⟩ |
    ⟨address, first, rest, rfl, rfl, -, only, packed⟩
  · have inactive : ¬ branch.page.active = true := by simp [idle, PackedPage.active, PackedPage.empty]
    rw [if_neg inactive, only]
    exact ⟨rfl, rfl, idle, rfl⟩
  · have inactive : ¬ branch.page.active = true := by simp [idle, PackedPage.active, PackedPage.empty]
    rw [if_neg inactive, only, ensures_map]
    refine (startWith_spec level kid owning).imp ?_
    rintro page reached ⟨address, content, unused, owned, packed⟩
    refine ⟨_, address, kid, [], rfl, owned, packed, fun other member => ?_⟩
    refine update_of_ne ?_ _ _
    rintro rfl
    exact owning.held other member unused
  · have active : branch.page.active = true := by simp [packed.same, PackedPage.active]
    rw [if_pos active, ensures_pure]
    exact ⟨heap, address, first, rest, rfl, owning, packed, fun _ _ => rfl⟩

theorem joined_spec {first : Subtree K} {rest : List (Subtree K)}
    (owning : Owning laws frame (address :: ((first :: rest).flatMap FixedTree.Node.pages ++ extra))
      heap state) (packed : PackedAt heap laws.txn (level + 1) page address (some first.first.key)
      ((first :: rest).map FixedTree.Node.cell))
    (trees : ∀ kid ∈ first :: rest, TreeAt heap laws.txn level kid) :
    Ensures page.finish state (fun result reached => ∃ after, ∃ node : Subtree K,
      result = (ref node, PackedPage.empty) ∧ TreeAt after laws.txn (level + 1) node ∧
      node.entries = (first :: rest).flatMap FixedTree.Node.entries ∧
      node.pages.length = (((first :: rest).flatMap FixedTree.Node.pages).length + 1) ∧
      (∃ born, after node.page = some (treePage (rangeCodec K) born (level + 1)
        ((first :: rest).map FixedTree.Node.cell))) ∧
      Owning laws frame (node.pages ++ extra) after reached ∧
      ∀ other ∈ extra, after other = heap other) laws.Fails := by
  have outside := (nodup_cons.mp owning.nodup).1
  refine (finish_spec owning (by simp) packed (by simp)).imp ?_
  rintro result reached ⟨rfl, storable, owned⟩
  have keeps : ∀ content, ∀ other ∈ (first :: rest).flatMap FixedTree.Node.pages ++ extra,
      Function.update heap address content other = heap other := by
    intro content other member
    have different : other ≠ address := fun equal => outside (equal ▸ member)
    exact update_of_ne different _ _
  refine ⟨_, join address (first :: rest) (by simp), ?_, ?_, rfl, rfl,
    ⟨laws.txn, update_self _ _ _⟩, owned, fun other member =>
      keeps _ other (mem_append_right _ member)⟩
  · simp only [ref, join_first, head_cons]
    rfl
  · refine treeAt_join (by simp) ⟨laws.txnPositive, le_rfl, storable, update_self _ _ _⟩ ?_
    intro kid member
    refine (trees kid member).congr fun other inKid => keeps _ other ?_
    exact mem_append_left _ (mem_flatMap.mpr ⟨kid, member, inKid⟩)

theorem stocked_zero (node : Subtree K) : Stocked 0 node := by
  simp [Stocked, FixedTree.Node.pages]

theorem stocked_join {kids : List (Subtree K)} (many : branchFanout ≤ kids.length)
    (stocked : ∀ kid ∈ kids, Stocked level kid)
    (pages_ : node.pages.length = (kids.flatMap FixedTree.Node.pages).length + 1) :
    Stocked (level + 1) node := by
  have counted : ∀ some_ : List (Subtree K), (∀ kid ∈ some_, Stocked level kid) →
      some_.length * branchFanout ^ level ≤ (some_.flatMap FixedTree.Node.pages).length := by
    intro some_ full
    induction some_ with
    | nil => simp
    | cons kid rest ih =>
      have here : branchFanout ^ level ≤ kid.pages.length := full kid (by simp)
      have later := ih fun other member => full other (mem_cons_of_mem _ member)
      simp only [length_cons, flatMap_cons, length_append, Nat.add_mul, Nat.one_mul]
      omega
  have below := counted kids stocked
  have enough : branchFanout * branchFanout ^ level ≤ kids.length * branchFanout ^ level :=
    Nat.mul_le_mul_right _ many
  rw [Stocked, pages_, Nat.pow_succ, Nat.mul_comm]
  omega

theorem pushNode_spec (branches : List (BranchLevel K)) {entries : List (Entry (rangeCodec K))}
    (levels : LevelsAt heap laws.txn level branches entries pages)
    (tree : TreeAt heap laws.txn level node)
    (owning : Owning laws frame (pages ++ node.pages) heap state)
    (depth : level + branches.length = branchLevels) (room : branches = [] → Stocked level node) :
    Ensures (pushNode laws.txn level branches (ref node)) state
      (fun result reached => ∃ after kept, Owning laws frame kept after reached ∧
        result.length = branches.length ∧ PlacedAt after laws.txn level node entries result kept)
      laws.Fails := by
  induction branches generalizing level entries pages node frame heap state with
  | nil =>
    -- a full subtree of this level has more pages than can be numbered
    have top : level = branchLevels := depth
    have tall : branchFanout ^ level ≤ node.pages.length := room rfl
    have few := owned_few owning
    rw [length_append] at few
    rw [top] at tall
    have large : 2 ^ 32 < branchFanout ^ branchLevels := by decide
    omega
  | cons branch above ih =>
    obtain ⟨kids, own, upper, abovePages, ⟨at_, trees, rfl, rfl, emitted⟩, higher, stocked⟩ := levels
    rw [pushNode, ensures_bind]
    have regroup : own ++ (kids.flatMap FixedTree.Node.pages ++ abovePages) ++ node.pages =
        own ++ (kids.flatMap FixedTree.Node.pages ++ abovePages ++ node.pages) := by simp
    rw [regroup] at owning
    refine (openPage_spec owning at_).imp ?_
    intro result reached opened
    cases result with
    | none =>
      obtain ⟨rfl, rfl, idle, rfl⟩ := opened
      have fresh : branch.emitted = false := by
        by_contra set_
        rw [Bool.not_eq_false] at set_
        rw [set_] at emitted
        exact emitted.1 rfl
      rw [fresh] at emitted
      obtain ⟨rfl, rfl⟩ := emitted
      rw [ensures_pure]
      refine ⟨heap, node.pages, by simpa using owning, rfl, _, above, [node], [], [], [], rfl,
        ⟨Or.inl ⟨idle, rfl, Or.inr ⟨node, rfl, rfl⟩⟩, by simpa using tree, by simp, by simp,
          by simp [fresh]⟩, higher, ?_, by simp⟩
      exact fun kid member => Or.inl (mem_singleton.mp member)
    | some page =>
      obtain ⟨after, address, first, rest, rfl, owned, packed, same⟩ := opened
      have outside := (nodup_cons.mp owned.nodup).1
      -- whatever is written to the open page, the other pages keep their contents
      have keeps : ∀ content, ∀ other ∈
          (first :: rest).flatMap FixedTree.Node.pages ++ abovePages ++ node.pages,
          Function.update after address content other = heap other := by
        intro content other member
        have different : other ≠ address := fun equal => outside (equal ▸ member)
        rw [update_of_ne different, same other member]
      have keepsTree : ∀ content, ∀ kid ∈ first :: rest,
          TreeAt (Function.update after address content) laws.txn level kid := by
        intro content kid member
        refine (trees kid member).congr fun other inKid => keeps content other ?_
        exact mem_append_left _ (mem_append_left _
          (mem_flatMap.mpr ⟨kid, member, inKid⟩))
      have keepsNode : ∀ content,
          TreeAt (Function.update after address content) laws.txn level node := fun content =>
        tree.congr fun other member => keeps content other (mem_append_right _ member)
      have keepsHigher : ∀ content, LevelsAt (Function.update after address content) laws.txn
          (level + 1) above upper abovePages := fun content =>
        higher.congr fun other member => keeps content other
          (mem_append_left _ (mem_append_right _ member))
      refine Ensures.bind (pushCell_spec node owned (by simp) packed) ?_
      rintro ⟨fits, page⟩ pushed (⟨rfl, content, owned, packed⟩ | ⟨rfl, rfl, -, many, owned⟩)
      · simp only [if_true, ensures_pure]
        refine ⟨_, _, owned.perm ?_, rfl, _, above, (first :: rest) ++ [node], [address], upper,
          abovePages, rfl, ⟨Or.inr ⟨address, first, rest ++ [node], rfl, rfl, by simp, rfl,
            by simpa using packed⟩, ?_, by simp, rfl, ?_⟩, keepsHigher content, ?_, ?_⟩
        · refine perm_iff_count.mpr fun other => ?_
          simp only [flatMap_append, flatMap_cons, flatMap_nil, append_nil,
            count_append, count_cons, count_nil]
          omega
        · intro kid member
          rcases mem_append.mp member with old | new
          · exact keepsTree content kid old
          · rw [mem_singleton.mp new]
            exact keepsNode content
        · cases flag : branch.emitted with
          | true =>
            rw [flag] at emitted
            exact ⟨by simp, emitted.2⟩
          | false => simpa [flag] using emitted
        · intro kid member
          rcases mem_append.mp member with old | new
          · exact Or.inr (stocked kid old)
          · exact Or.inl (mem_singleton.mp new)
        · exact fun _ => Or.inr (by simp)
      · simp only [Bool.false_eq_true, if_false, ensures_bind]
        rw [append_assoc] at owned
        have kidTrees : ∀ kid ∈ first :: rest, TreeAt after laws.txn level kid := by
          intro kid member
          refine (trees kid member).congr fun other inKid => same other ?_
          exact mem_append_left _ (mem_append_left _
            (mem_flatMap.mpr ⟨kid, member, inKid⟩))
        -- the full page becomes a subtree of the next level
        refine (joined_spec owned packed kidTrees).imp ?_
        rintro _ finished ⟨joinedHeap, joined, rfl, whole, isEntries, isPages, -, owned, still⟩
        rw [← append_assoc] at owned
        have owned := owned.perm (perm_append_comm.append_right node.pages)
        have aboveStill := higher.congr fun other member =>
          (still other (mem_append_left _ member)).trans (same other (by simp [member]))
        rw [length_map] at many
        have full : Stocked (level + 1) joined := stocked_join many stocked isPages
        refine (ih aboveStill whole owned.lend (by simp at depth; omega) fun _ => full).imp ?_
        rintro result last ⟨final, kept, later, levels_, placed⟩
        obtain ⟨restored, lent⟩ := owned.restore later
        rw [ensures_pure]
        refine ⟨final, _, restored.perm ?_, by simp [levels_], _, result, [node], [], _, kept, rfl,
          ⟨Or.inl ⟨rfl, rfl, Or.inr ⟨node, rfl, rfl⟩⟩, ?_, by simp [isEntries], rfl, ?_⟩,
          placed.levels full, ?_, fun _ => Or.inl rfl⟩
        · simpa using perm_append_comm
        · intro kid member
          rw [mem_singleton.mp member]
          exact tree.congr fun other inNode => (lent other inNode).2.trans
            ((still other (mem_append_right _ inNode)).trans (same other (by simp [inNode])))
        · simp [joined.inhabited]
        · exact fun kid member => Or.inl (mem_singleton.mp member)

theorem finishLevel_spec
    (owning : Owning laws frame (own ++ (kids.flatMap FixedTree.Node.pages ++ extra)) heap state)
    (at_ : BranchAt heap laws.txn level branch kids own)
    (trees : ∀ kid ∈ kids, TreeAt heap laws.txn level kid) (some_ : kids ≠ []) :
    Ensures (finishLevel laws.txn level branch) state (fun result reached =>
      ∃ after height, ∃ node : Subtree K, TreeAt after laws.txn height node ∧
        node.entries = kids.flatMap FixedTree.Node.entries ∧
        Owning laws frame (node.pages ++ extra) after reached ∧
        (∀ other ∈ extra, after other = heap other) ∧
        if branch.emitted then height = level + 1 ∧ result = some (.parent (ref node))
        else result = some (.root node.page) ∧ ((height = level ∧ kids.length = 1) ∨
          (height = level + 1 ∧ ∃ born cells, 2 ≤ cells.length ∧
            after node.page = some (treePage (rangeCodec K) born (level + 1) cells)))) laws.Fails := by
  rw [finishLevel]
  rcases at_ with ⟨idle, rfl, (⟨rfl, only⟩ | ⟨kid, rfl, only⟩)⟩ |
    ⟨address, first, rest, rfl, rfl, more, only, packed⟩
  · exact absurd rfl some_
  · have inactive : ¬ branch.page.active = true := by simp [idle, PackedPage.active, PackedPage.empty]
    rw [if_neg inactive, only]
    cases flag : branch.emitted with
    | false =>
      simp only [Bool.false_eq_true, if_false, ensures_pure]
      exact ⟨heap, level, kid, trees kid (by simp), by simp, by simpa using owning, fun _ _ => rfl,
        rfl, Or.inl ⟨rfl, rfl⟩⟩
    | true =>
      simp only [if_true, ensures_bind]
      refine (startWith_spec level kid owning).imp ?_
      rintro page reached ⟨address, content, unused, owned, packed⟩
      have keeps : ∀ other ∈ [kid].flatMap FixedTree.Node.pages ++ extra,
          Function.update heap address content other = heap other := by
        intro other member
        refine update_of_ne ?_ _ _
        rintro rfl
        exact owning.held other member unused
      refine (joined_spec owned packed ?_).imp ?_
      · intro other member
        refine (trees other member).congr fun page inNode => keeps page ?_
        exact mem_append_left _ (mem_flatMap.mpr ⟨other, member, inNode⟩)
      · rintro result last ⟨after, node, rfl, tree, entries, -, -, owned, same⟩
        rw [ensures_pure]
        exact ⟨after, level + 1, node, tree, entries, owned, fun other member =>
          (same other member).trans (keeps other (mem_append_right _ member)), rfl, rfl⟩
  · have active : branch.page.active = true := by simp [packed.same, PackedPage.active]
    rw [if_pos active, ensures_bind]
    refine (joined_spec owning packed trees).imp ?_
    rintro result last ⟨after, node, rfl, tree, entries, -, ⟨born, stored⟩, owned, same⟩
    rw [ensures_pure]
    refine ⟨after, level + 1, node, tree, entries, owned, same, ?_⟩
    cases branch.emitted with
    | true => exact ⟨rfl, rfl⟩
    | false =>
      refine ⟨rfl, Or.inr ⟨rfl, born, _, ?_, stored⟩⟩
      have count := length_pos_iff.mpr more
      simp only [length_map, length_cons]
      omega

variable (K) in
def RootBranches (heap : Heap) (root : Nat) : Prop :=
  ∀ born level cells, heap root = some (treePage (rangeCodec K) born (level + 1) cells) →
    2 ≤ cells.length

theorem finishLevels_spec (turns : Nat) (branches : List (BranchLevel K))
    {before : List (Entry (rangeCodec K))}
    (placed : PlacedAt heap laws.txn level node before branches pages)
    (below : level = 0 ∨ before ≠ []) (depth : level + branches.length = branchLevels)
    (enough : branches.length ≤ turns) (owning : Owning laws frame pages heap state) :
    Ensures (finishLevels laws.txn turns level branches) state
      (fun root reached => ∃ after kept, Owning laws frame kept after reached ∧
        RootAt after laws.txn root (before ++ node.entries) kept ∧ RootBranches K after root)
      laws.Fails := by
  induction turns generalizing level branches before node pages heap state with
  | zero =>
    obtain ⟨branch, above, _, _, _, _, rfl, _⟩ := placed
    simp at enough
  | succ turns ih =>
    obtain ⟨branch, above, kids, own, upper, abovePages, rfl, ⟨at_, trees, isEntries, rfl, emitted⟩,
      higher, full, shape⟩ := placed
    have someKids : kids ≠ [] := by
      rintro rfl
      cases flag : branch.emitted with
      | true =>
        rw [flag] at emitted
        exact emitted.1 rfl
      | false =>
        rw [flag] at emitted
        rw [emitted.1] at isEntries
        simp [node.inhabited] at isEntries
    rw [finishLevels, ensures_bind]
    refine (finishLevel_spec owning at_ trees someKids).imp ?_
    rintro result reached ⟨after, height, top, tree, topEntries, owned, same, outcome⟩
    rw [isEntries, ← topEntries]
    cases flag : branch.emitted with
    | false =>
      rw [flag] at emitted outcome
      obtain ⟨rfl, rfl⟩ := emitted
      obtain ⟨rfl, heights⟩ := outcome
      have bound : height ≤ maxTreeLevel := by
        have most : branchLevels ≤ maxTreeLevel := by decide
        simp only [length_cons] at depth
        rcases heights with ⟨rfl, -⟩ | ⟨rfl, -⟩ <;> omega
      rw [ensures_pure]
      refine ⟨after, top.pages, by simpa using owned, Or.inr ⟨height, top, bound, tree, rfl,
        by simp, rfl⟩, ?_⟩
      intro born level_ cells stored
      rcases heights with ⟨rfl, single⟩ | ⟨rfl, born_, cells_, two, isTop⟩
      · -- a lone subtree is the root only where nothing was emitted below, on leaf pages
        have low : height = 0 := by
          rcases below with zero | some_
          · exact zero
          · rcases shape some_ with set_ | two
            · rw [flag] at set_
              cases set_
            · omega
        obtain ⟨topBorn, topCells, holds⟩ := tree.stored
        rw [low] at holds
        rw [holds.stored, Option.some.injEq] at stored
        exact absurd (congrArg Page.level stored) (Nat.succ_ne_zero level_).symm
      · rw [isTop, Option.some.injEq] at stored
        have sameCells : cells_ = cells := congrArg Page.cells stored
        rw [← sameCells]
        exact two
    | true =>
      rw [flag] at outcome emitted
      obtain ⟨rfl, rfl⟩ := outcome
      simp only [length_cons] at depth enough
      have room : above = [] → Stocked (level + 1) top := by
        rintro rfl
        exact absurd higher.1 emitted.2
      refine Ensures.bind (pushNode_spec above (higher.congr same) tree (owned.perm perm_append_comm)
        (by omega) room) ?_
      rintro result last ⟨final, kept, owned, levels_, placed⟩
      exact ih result placed (Or.inr emitted.2) (by omega) (by omega) owned

end Push

section Build

variable {builder : Builder K} {upper lower : List (Entry (rangeCodec K))} {own extra : List Nat}

def LeafAt (heap : Heap) (txn : Nat) (leaf : PackedPage K) (lower : List (Entry (rangeCodec K)))
    (own : List Nat) : Prop :=
  (leaf = PackedPage.empty ∧ lower = [] ∧ own = []) ∨
  ∃ address first rest, own = [address] ∧ lower = first :: rest ∧
    PackedAt heap txn 0 leaf address (some first.key) ((first :: rest).map Entry.cell)

structure BuildAt (heap : Heap) (txn : Nat) (builder : Builder K)
    (entries : List (Entry (rangeCodec K))) (pages : List Nat) : Prop where
  levels : builder.branches.length = branchLevels
  parts : ∃ upper lower levelPages leafPages, LevelsAt heap txn 0 builder.branches upper levelPages ∧
    LeafAt heap txn builder.leaf lower leafPages ∧ entries = upper ++ lower ∧
    pages = leafPages ++ levelPages ∧ (lower = [] → upper = [])

theorem openLeaf_spec (born : builder.bornTxn = laws.txn)
    (owning : Owning laws frame (own ++ extra) heap state)
    (at_ : LeafAt heap laws.txn builder.leaf lower own) :
    Ensures builder.openLeaf state (fun page reached => ∃ after address,
      Owning laws frame (address :: extra) after reached ∧
      PackedAt after laws.txn 0 page address (lower.head?.map Entry.key) (lower.map Entry.cell) ∧
      ∀ other ∈ extra, after other = heap other) laws.Fails := by
  rw [Builder.openLeaf, born]
  rcases at_ with ⟨idle, rfl, rfl⟩ | ⟨address, first, rest, rfl, rfl, packed⟩
  · have inactive : ¬ builder.leaf.active = true := by
      simp [idle, PackedPage.active, PackedPage.empty]
    rw [if_neg inactive]
    refine (start_spec 0 owning).imp ?_
    rintro page reached ⟨address, content, unused, owned, packed⟩
    refine ⟨_, address, owned, packed, fun other member => update_of_ne ?_ _ _⟩
    rintro rfl
    exact owning.held other member unused
  · have active : builder.leaf.active = true := by simp [packed.same, PackedPage.active]
    rw [if_pos active, ensures_pure]
    exact ⟨heap, address, owning, packed, fun _ _ => rfl⟩

theorem entry_length (entry : Entry (rangeCodec K)) : entry.cell.length = cellSize K 0 :=
  entry.layout

theorem leafDone_spec {page : PackedPage K} {first : Entry (rangeCodec K)}
    {rest : List (Entry (rangeCodec K))} (owning : Owning laws frame (address :: extra) heap state)
    (packed : PackedAt heap laws.txn 0 page address (some first.key)
      ((first :: rest).map Entry.cell)) :
    Ensures page.finish state (fun result reached => ∃ after, ∃ node : Subtree K,
      result = (ref node, PackedPage.empty) ∧ TreeAt after laws.txn 0 node ∧
      node.entries = first :: rest ∧ Owning laws frame (extra ++ node.pages) after reached ∧
      ∀ other ∈ extra, after other = heap other) laws.Fails := by
  refine (finish_spec owning (by simp) packed (by simp)).imp ?_
  rintro result reached ⟨rfl, storable, owned⟩
  refine ⟨_, leafNode address (first :: rest) (by simp), rfl, ⟨rfl, laws.txn, laws.txnPositive, le_rfl,
    storable, update_self _ _ _⟩, rfl, owned.perm perm_append_comm, ?_⟩
  intro other member
  have different : other ≠ address := fun equal =>
    (nodup_cons.mp owning.nodup).1 (equal ▸ member)
  exact update_of_ne different _ _

theorem pushLeafCell_spec (born : builder.bornTxn = laws.txn) (entry : Entry (rangeCodec K))
    {entries : List (Entry (rangeCodec K))} (owning : Owning laws frame pages heap state)
    (at_ : BuildAt heap laws.txn builder entries pages) :
    Ensures (builder.pushLeafCell entry.key entry.cell) state
      (fun result reached => result = { builder with leaf := result.leaf, branches := result.branches } ∧
        ∃ after kept, Owning laws frame kept after reached ∧
          BuildAt after laws.txn result (entries ++ [entry]) kept)
      laws.Fails := by
  obtain ⟨depth, upper, lower, levelPages, leafPages, levels, leaf, rfl, rfl, below⟩ := at_
  rw [Builder.pushLeafCell, ensures_bind]
  refine (openLeaf_spec born owning leaf).imp ?_
  rintro page opened ⟨after, address, owned, packed, same⟩
  have outside := (nodup_cons.mp owned.nodup).1
  refine Ensures.bind (push_spec entry.key entry.cell owned (by simp) packed (entry_length entry)) ?_
  rintro ⟨fits, page⟩ pushed (⟨rfl, -, content, owned, packed⟩ | ⟨rfl, rfl, some_, -, owned⟩)
  · simp only [if_true, ensures_pure]
    refine ⟨trivial, _, _, owned, depth, upper, lower ++ [entry], levelPages, [address], ?_, Or.inr ?_,
      by simp, rfl, by simp⟩
    · refine levels.congr fun other member => ?_
      have different : other ≠ address := fun equal => outside (equal ▸ member)
      rw [update_of_ne different, same other member]
    · cases lower with
      | nil => exact ⟨address, entry, [], rfl, rfl, packed⟩
      | cons first rest => exact ⟨address, first, rest ++ [entry], rfl, rfl, by simpa using packed⟩
  · simp only [Bool.false_eq_true, if_false, ensures_bind]
    cases lower with
    | nil => exact absurd rfl some_
    | cons first rest =>
      refine (leafDone_spec owned packed).imp ?_
      rintro _ finished ⟨heap₁, node, rfl, tree, isEntries, owned, still⟩
      have levels := levels.congr fun other member => (still other member).trans (same other member)
      rw [born]
      refine (pushNode_spec builder.branches levels tree owned (by omega)
        fun _ => stocked_zero node).imp ?_
      rintro branches placed ⟨heap₂, pages₂, owned, length_, placed_⟩
      have levels := placed_.levels (stocked_zero node)
      refine (start_spec 0 owned).imp ?_
      rintro page started ⟨address₂, content, unused, fresh, packed⟩
      refine (push_spec entry.key entry.cell fresh (by simp) packed (entry_length entry)).imp ?_
      rintro ⟨fits, page⟩ pushed (⟨rfl, -, content, final, packed⟩ | ⟨-, -, some_, -, -⟩)
      · simp only [if_true, ensures_pure]
        refine ⟨trivial, _, _, final, length_.trans depth, upper ++ node.entries, [entry], pages₂,
          [address₂], ?_,
          Or.inr ⟨address₂, entry, [], rfl, rfl, packed⟩, by simp [isEntries], rfl, by simp⟩
        refine levels.congr fun other member => ?_
        have different : other ≠ address₂ := by
          rintro rfl
          exact owned.held other member unused
        rw [update_of_ne different, update_of_ne different]
      · exact absurd rfl some_

end Build

section Builder

variable {builder : Builder K} {records : List (Record K)}

structure Building (laws : StoreLaws σ) (frame : Heap) (builder : Builder K)
    (records : List (Record K)) (state : σ) : Prop where
  born : builder.bornTxn = laws.txn
  counted : builder.recordCount = records.length
  last : builder.previous = records.getLast?
  canonical : Canonical records
  built : ∃ heap, ∃ entries : List (Entry (rangeCodec K)), ∃ pages,
    Owning laws frame pages heap state ∧ BuildAt heap laws.txn builder entries pages ∧
    entries.map Entry.item = recordItems records

theorem levelsAt_empty (heap : Heap) (txn level count : Nat) :
    LevelsAt (K := K) heap txn level (List.replicate count BranchLevel.empty) [] [] := by
  induction count generalizing level with
  | zero => exact ⟨rfl, rfl⟩
  | succ count ih =>
    exact ⟨[], [], [], [], ⟨Or.inl ⟨rfl, rfl, Or.inl ⟨rfl, rfl⟩⟩, by simp, rfl, rfl, rfl, rfl⟩,
      ih (level + 1), by simp⟩

theorem building_new (valueKind : ValueKind) (owning : Owning laws frame [] heap state) :
    Building laws frame (Builder.new laws.txn valueKind : Builder K) [] state :=
  ⟨rfl, rfl, rfl, ⟨List.Pairwise.nil, by simp⟩, heap, [], [], owning,
    ⟨length_replicate, [], [], [], [], levelsAt_empty _ _ _ _, Or.inl ⟨rfl, rfl, rfl⟩, rfl, rfl,
      fun _ => rfl⟩, rfl⟩

section

variable (building : Building laws frame builder records state)

include building

theorem canAppend_spec {record : Record K}
    (proper : record.from_ ≤ record.to_) (named : builder.valueKind = .direct ∨ record.value ≠ 0) :
    ∃ appends, builder.canAppend record = .ok appends ∧
      (appends = true ↔ Canonical (records ++ [record])) := by
  have valued : ¬ (builder.valueKind ≠ .direct ∧ record.value = 0) := by tauto
  simp only [Builder.canAppend, if_neg (not_lt.mpr proper), if_neg valued, building.last]
  have canonical := building.canonical
  cases isLast : records.getLast? with
  | none =>
    refine ⟨true, rfl, iff_of_true rfl (canonical.concat proper ?_)⟩
    simp [isLast]
  | some previous =>
    refine ⟨_, rfl, ?_⟩
    simp only [Bool.not_eq_true', Bool.or_eq_false_iff, decide_eq_false_iff_not, Bool.and_eq_false_iff,
      not_le, checkedNext_iff]
    constructor
    · rintro ⟨past, apart⟩
      refine canonical.concat proper ?_
      rintro last isThis
      rw [isLast] at isThis
      cases isThis
      exact ⟨past, fun same => apart.resolve_left (not_not.mpr same)⟩
    · intro whole
      have precedes := whole.follows previous (by simp [isLast])
      refine ⟨precedes.1, ?_⟩
      by_cases same : previous.value = record.value
      · exact Or.inr (precedes.2 same)
      · exact Or.inl same

theorem building_few : records.length ≤ 2 ^ 32 * pageSize := by
  obtain ⟨heap, entries, pages, owning, ⟨_, upper, lower, levelPages, leafPages, levels, leaf, rfl, rfl,
    _⟩, items⟩ := building.built
  have few := owned_few owning
  have count : (upper ++ lower).length = records.length := by
    have lengths := congrArg List.length items
    simpa [recordItems] using lengths
  have above := levels.length_le
  have onLeaf : lower.length ≤ leafPages.length * pageSize := by
    rcases leaf with ⟨-, rfl, -⟩ | ⟨address, first, rest, rfl, rfl, packed⟩
    · simp
    · have fits := packed.fits
      simp only [usedBytes, length_map, length_cons] at fits
      simp only [length_cons, length_nil]
      omega
  have total : (leafPages.length + levelPages.length) * pageSize ≤ 2 ^ 32 * pageSize := by
    refine Nat.mul_le_mul_right pageSize ?_
    simpa using few
  rw [← count, length_append]
  rw [Nat.add_mul] at total
  omega

theorem tryPush_spec {record : Record K}
    (proper : record.from_ ≤ record.to_) (named : builder.valueKind = .direct ∨ record.value ≠ 0) :
    Ensures (builder.tryPush record) state (fun result reached =>
      (result.1 = true ∧ result.2.valueKind = builder.valueKind ∧
        Building laws frame result.2 (records ++ [record]) reached) ∨
      (result.1 = false ∧ result.2 = builder ∧ reached = state ∧ ¬ Canonical (records ++ [record])))
      laws.Fails := by
  obtain ⟨appends, decided, extends_⟩ := canAppend_spec building proper named
  rw [Builder.tryPush, decided, ensures_bind, ensures_liftResult_ok]
  cases appends with
  | false =>
    simp only [Bool.false_eq_true, if_false, ensures_pure]
    exact Or.inr ⟨trivial, trivial, trivial, fun whole => by simpa using extends_.mpr whole⟩
  | true =>
    have whole := extends_.mp rfl
    rw [if_pos rfl]
    have fits : builder.recordCount + 1 < 2 ^ 64 := by
      have few := building_few building
      rw [building.counted]
      simp only [pageSize] at few
      omega
    obtain ⟨heap, entries, pages, owning, at_, items⟩ := building.built
    have encoded : encodeRecord record = .ok (record.entry proper).cell :=
      if_neg (not_lt.mpr proper)
    rw [if_pos fits, encoded, ensures_bind, ensures_liftResult_ok, ensures_bind]
    refine (pushLeafCell_spec building.born (record.entry proper) owning at_).imp ?_
    rintro result reached ⟨same, after, kept, owned, placed⟩
    rw [ensures_pure, same]
    refine Or.inl ⟨rfl, rfl, building.born, ?_, ?_, whole, after,
      entries ++ [record.entry proper], kept,
      owned, ?_, ?_⟩
    · simp [building.counted]
    · simp
    · exact ⟨placed.levels, placed.parts⟩
    · simp only [map_append, items, recordItems, map_cons, map_nil]
      rfl

theorem builder_finish_spec :
    Ensures builder.finish state (fun result reached => result.2 = records.length ∧
      ∃ heap, ∃ entries : List (Entry (rangeCodec K)), ∃ pages, Owning laws frame pages heap reached ∧
        WellFormed laws heap result.1 entries pages ∧ entries.map Entry.item = recordItems records ∧
        RootBranches K heap result.1)
      laws.Fails := by
  obtain ⟨heap, entries, pages, owning, ⟨depth, upper, lower, levelPages, leafPages, levels, leaf,
    rfl, rfl,
    below⟩, items⟩ := building.built
  have sorted : KeysSorted (upper ++ lower) := by
    have keys : (upper ++ lower).map Entry.key = records.map Span.from_ := by
      have firsts := congrArg (List.map Prod.fst) items
      simpa [recordItems, Entry.item, comp_def] using firsts
    have starts := pairwise_map.mpr building.canonical.sorted
    rw [← keys] at starts
    exact pairwise_map.mp starts
  have length : (upper ++ lower).length = records.length := by
    have lengths := congrArg List.length items
    simpa [recordItems] using lengths
  rw [Builder.finish, building.counted, building.born]
  rcases leaf with ⟨-, rfl, rfl⟩ | ⟨address, first, rest, rfl, rfl, packed⟩
  · have none : upper = [] := below rfl
    subst none
    have noPages := levels.pages_nil
    subst noPages
    have empty : records.length = 0 := length.symm
    rw [if_pos empty, ensures_pure]
    refine ⟨length, heap, [], [], owning, ⟨Or.inl ⟨rfl, rfl, rfl⟩, nodup_nil, sorted⟩, items, ?_⟩
    intro born level cells stored
    exact absurd (laws.bounds owning.owns stored).1 (by decide)
  · have some_ : ¬ records.length = 0 := by
      simp only [length_append, length_cons] at length
      omega
    rw [if_neg some_, ensures_bind]
    refine (leafDone_spec owning packed).imp ?_
    rintro _ finished ⟨after, node, rfl, tree, isEntries, owned, same⟩
    refine Ensures.bind (pushNode_spec builder.branches (levels.congr same) tree owned (by omega)
      fun _ => stocked_zero node) ?_
    rintro branches placed ⟨heap₂, pages₂, owned, length_, placed_⟩
    refine Ensures.bind (finishLevels_spec branchLevels branches placed_ (Or.inl rfl) (by omega)
      (by omega)
      owned) ?_
    rintro root reached ⟨final, kept, owned, tree, branching⟩
    rw [ensures_pure]
    rw [isEntries] at tree
    exact ⟨rfl, final, _, kept, owned, ⟨tree, owned.nodup, sorted⟩, items, branching⟩

end

end Builder

end IpRange.RangeBulk
