import IpRange.FixedTreeCursor

/-!
The point query of a tree: one look at each page from the root to a leaf page,
where the caller reads the record at the position of its key.
-/

namespace IpRange.FixedTree

open SlottedPage

variable {Key Leaf σ α : Type} [LinearOrder Key] [PageSource σ]

section Query

variable (codec : Codec Key Leaf) (state : σ) (key : Key)
  (inspect : Page → Header → Nat → Nat → Bool → Except Error (Option α))

/-- The loop of `query`; `fuel` is what is left of its height limit. -/
def queryFrom : Nat → Nat → Option Nat → Except Error (Option α)
  | 0, _, _ => .error (.corrupt "B+tree exceeds its maximum height")
  | fuel + 1, pageNumber, expectedLevel => do
    let page ← PageSource.viewPage state pageNumber
    let header ← parse codec page (PageSource.selectedTxn state) expectedLevel
    if header.level = 0 then
      let (position, exact_) ← lowerBound codec page header key true
      inspect page header pageNumber position exact_
    else
      let (position, _) ← lowerBound codec page header key false
      let child ← branchChild codec page header position (PageSource.selectedPageLimit state)
      queryFrom fuel child (some (header.level - 1))

def query (root : Nat) : Except Error (Option α) :=
  if root = 0 then .ok none
  else queryFrom codec state key inspect (maxTreeLevel + 1) root none

end Query

variable {codec : Codec Key Leaf} {state : σ} {heap : Heap} {txn : Nat}
  {inspect : Page → Header → Nat → Nat → Bool → Except Error (Option α)}

def Answers (codec : Codec Key Leaf) (key : Key)
    (inspect : Page → Header → Nat → Nat → Bool → Except Error (Option α))
    (answer : Option (Entry codec) → Except Error (Option α)) : Prop :=
  answer none = .ok none ∧ ∀ born number (smaller larger : List (Entry codec)),
    inspect (treePage codec born 0 ((smaller ++ larger).map Entry.cell))
        (filledHeader 0 ((smaller ++ larger).map Entry.cell)) number smaller.length
        (decide (larger.head?.map Entry.key = some key)) =
      answer (larger.head?.filter fun entry => entry.key = key)

variable {key : Key} {entries : List (Entry codec)}
  {answer : Option (Entry codec) → Except Error (Option α)}

theorem find_none (apart : ∀ entry ∈ entries, entry.key ≠ key) :
    entries.find? (fun entry => entry.key = key) = none :=
  List.find?_eq_none.mpr fun entry member => by simpa using apart entry member

theorem find_cut {smaller larger : List (Entry codec)} (sorted : KeysSorted larger)
    (below : ∀ entry ∈ smaller, entry.key < key) (above : ∀ entry ∈ larger, key ≤ entry.key) :
    (smaller ++ larger).find? (fun entry => entry.key = key) =
      larger.head?.filter fun entry => entry.key = key := by
  rw [List.find?_append, find_none fun entry member => (below entry member).ne, Option.none_or]
  cases larger with
  | nil => rfl
  | cons first rest =>
    by_cases here : first.key = key
    · simp [here, Option.filter]
    · have past : key < first.key := lt_of_le_of_ne (above first (by simp)) (Ne.symm here)
      have later := find_none fun entry (member : entry ∈ rest) =>
        (lt_trans past ((List.pairwise_cons.mp sorted).1 entry member)).ne'
      simp [here, later, Option.filter]

theorem queryFrom_spec (lawful : LawfulCodec codec) (views : Views state txn heap)
    (answers : Answers codec key inspect answer) {height fuel : Nat} {node : Node codec}
    {expectedLevel : Option Nat} (enough : height < fuel) (bound : height ≤ maxTreeLevel)
    (expected : ∀ wanted ∈ expectedLevel, wanted = height) (tree : TreeAt heap txn height node)
    (sorted : KeysSorted node.entries) :
    queryFrom codec state key inspect fuel node.page expectedLevel =
      answer (node.entries.find? fun entry => entry.key = key) := by
  induction height generalizing fuel node expectedLevel with
  | zero =>
    obtain ⟨below, born, holds⟩ := tree
    obtain ⟨fuel, rfl⟩ := Nat.exists_eq_succ_of_ne_zero (Nat.ne_of_gt enough)
    obtain ⟨smaller, larger, cut, low, high, search⟩ :=
      lowerBound_leaf key lawful born node.entries holds.storable sorted
    have parsed := holds.parsed expectedLevel bound expected
    rw [cut] at parsed search sorted ⊢
    rw [find_cut (List.pairwise_append.mp sorted).2.1 low high,
      ← answers.2 born node.page smaller larger]
    simp only [queryFrom, views.found holds.stored, views.selected, cut, bind, Except.bind, parsed,
      filledHeader_level, if_true, search]
  | succ height ih =>
    obtain ⟨kids, some_, shape, ⟨born, holds⟩, trees⟩ := tree.branch
    obtain ⟨fuel, rfl⟩ := Nat.exists_eq_succ_of_ne_zero (Nat.ne_of_gt (Nat.zero_lt_of_lt enough))
    rw [shape] at sorted
    obtain ⟨probe, probed, search⟩ := lowerBound_treePage born (height + 1) (kids.map Node.cell)
      lawful _ holds.storable (node_keys lawful views trees)
    obtain ⟨left, kid, right, rfl, smaller, larger, exact_, run⟩ :=
      route_spec key some_ sorted probe probed
    have parsed := holds.parsed expectedLevel bound expected
    have readable := nodes_readable lawful views trees _ (Nat.succ_ne_zero height)
    have child := branchChild_at lawful born _ views (trees kid (by simp)) readable
      (show _[left.length]? = _ by simp) rfl
    have kidSorted : KeysSorted kid.entries :=
      (List.pairwise_flatMap.mp sorted).1 kid (by simp)
    have next : queryFrom codec state key inspect fuel kid.page (some height) =
        answer (kid.entries.find? fun entry => entry.key = key) :=
      ih (by omega) (by omega) (by simp) (trees kid (by simp)) kidSorted
    -- only the child on the way can store the key
    have before := find_none fun entry member => (smaller entry member).ne
    have past := find_none fun entry member => (larger entry member).ne'
    have leaves : node.entries = left.flatMap Node.entries ++
        (kid.entries ++ right.flatMap Node.entries) := by
      rw [congrArg Node.entries shape]
      simp [join]
    have whole : (node.entries.find? fun entry => entry.key = key) =
        kid.entries.find? fun entry => entry.key = key := by
      rw [leaves, List.find?_append, List.find?_append, before, past, Option.none_or,
        Option.or_none]
    rw [whole, ← next]
    simp only [queryFrom, views.found holds.stored, views.selected, bind, Except.bind, parsed,
      filledHeader_level, Nat.add_one_ne_zero, if_false, search, run, child,
      Nat.add_sub_cancel]

theorem query_spec (lawful : LawfulCodec codec) (views : Views state txn heap)
    (answers : Answers codec key inspect answer) {root : Nat} {pages : List Nat}
    (tree : RootAt heap txn root entries pages) (sorted : KeysSorted entries) :
    query codec state key inspect root = answer (entries.find? fun entry => entry.key = key) := by
  rcases tree with ⟨rfl, rfl, -⟩ | ⟨height, node, bound, whole, rfl, rfl, -⟩
  · rw [query, if_pos rfl, List.find?_nil, answers.1]
  · obtain ⟨born, cells, holds⟩ := whole.stored
    have real := (views.bounds holds.stored).1
    rw [query, if_neg (by omega)]
    exact queryFrom_spec lawful views answers (Nat.lt_succ_of_le bound) bound (by simp) whole sorted

end IpRange.FixedTree
