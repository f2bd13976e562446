import IpRange.FixedTreeQuery
import IpRange.FixedTreeCalls

/-!
The read side of a tree against the ordered map it denotes: the point query,
the two neighbour lookups, and a cursor that is repositioned and advanced at
will.
-/

namespace IpRange.FixedTree

open List SlottedPage

variable {Key Leaf σ α : Type}

section Program

variable (codec : Codec Key Leaf)

/-- `Exact`. -/
def exactLeaf (_page : Page) (_header : Header) (_pageNumber _position : Nat) (exact_ : Bool) :
    Except Error (Option Unit) :=
  .ok (if exact_ then some () else none)

def contains [LinearOrder Key] [PageSource σ] (state : σ) (root : Nat) (key : Key) :
    Except Error Bool :=
  Option.isSome <$> query codec state key exactLeaf root

/-- `IgnoreItem`. -/
def ignoreItem (_page : Page) (_header : Header) (_pageNumber _index : Nat) : Except Error Unit :=
  .ok ()

namespace Cursor

def seek [LinearOrder Key] [PageSource σ]
    (policy : Page → Header → Nat → Bool → Direction → Except Error SeekPosition) (key : Key)
    (cursor : Cursor) : EStateM Error σ Cursor := do
  let (_, cursor) ← seekReadInner codec policy ignoreItem Access.shared key cursor
  pure cursor

def next [PageSource σ] (item : Page → Header → Nat → Nat → Except Error α) (cursor : Cursor) :
    EStateM Error σ (Option α × Cursor) :=
  nextInner codec Access.shared item false cursor

end Cursor

inductive Move (Key : Type) where
  | seek (key : Key)
  | next
deriving DecidableEq, Repr

/-- Every seek brings its own policy, as `RangeSeek` holds its target. -/
def traverse [LinearOrder Key] [PageSource σ]
    (policy : Key → Page → Header → Nat → Bool → Direction → Except Error SeekPosition) :
    List (Move Key) → Cursor → EStateM Error σ (List (Option Leaf))
  | [], _ => pure []
  | .seek key :: moves, cursor => do
    let cursor ← Cursor.seek codec (policy key) key cursor
    traverse policy moves cursor
  | .next :: moves, cursor => do
    let (found, cursor) ← Cursor.next codec (readLeafItem codec) cursor
    let later ← traverse policy moves cursor
    pure (found :: later)

end Program

section Ranges

variable {K : Type} [IpKey K]

def leafRecord (page : Page) (header : Header) (index : Nat) : Except Error (Record K) := do
  decodeCell (← cell page header index (recordSize K))

/-- `RangeSeek`: forward, the range that reaches to the target is not passed over. -/
def rangeSeek (target : K) (page : Page) (header : Header) (position : Nat) (exact_ : Bool)
    (direction : Direction) : Except Error SeekPosition :=
  let previous :=
    if exact_ then some position else if position = 0 then none else some (position - 1)
  match direction, previous with
  | .backward, some index => .ok (.index index)
  | .backward, none => .ok .finished
  | .forward, none => .ok (.index 0)
  | .forward, some index => do
    let record ← leafRecord page header index
    if target ≤ record.to_ then .ok (.index index)
    else if index + 1 < header.itemCount then .ok (.index (index + 1))
    else .ok .nextLeaf

theorem rangeSeek_aims (target : K) (direction : Direction) :
    Aims target direction (rangeSeek target)
      fun entry : Entry (rangeCodec K) => decide (target ≤ entry.leaf.to_) := by
  intro born upTo past exact_ some_ isExact
  rcases eq_nil_or_concat upTo with rfl | ⟨others, entry, rfl⟩
  · have none_ : exact_ = false := by simpa using isExact
    cases direction <;> simp [rangeSeek, selects, none_]
  · rw [concat_eq_append] at *
    have inside : others.length < (others ++ [entry] ++ past).length := by simp
    have found := readLeafItem_reads born (others ++ [entry] ++ past) 0 others.length inside
    have record : leafRecord (treePage (rangeCodec K) born 0
        ((others ++ [entry] ++ past).map Entry.cell))
        (filledHeader 0 ((others ++ [entry] ++ past).map Entry.cell)) others.length =
        .ok entry.leaf := found.trans (by simp)
    -- found or not, the entry before the insertion point is the last one up to the target
    have previous : ∀ position, position = (if exact_ then (others ++ [entry]).length - 1
        else (others ++ [entry]).length) →
        (if exact_ then some position else if position = 0 then none else some (position - 1)) =
          some others.length := by
      rintro position rfl
      cases exact_ <;> simp
    cases direction with
    | backward =>
      simp only [rangeSeek, previous _ rfl]
      simp [selects]
    | forward =>
      simp only [rangeSeek, previous _ rfl, record, bind, Except.bind]
      by_cases reaches : target ≤ entry.leaf.to_
      · simp [selects, reaches]
      · by_cases more : past = []
        · simp [selects, reaches, more]
        · simp [selects, reaches, more, length_pos_iff.mpr more]

end Ranges

/-- What the moves return on a list: `from_ key` is what lies ahead of a cursor placed at `key`. -/
def yielded (from_ : Key → List α) : List (Move Key) → List α → List (Option α)
  | [], _ => []
  | .seek key :: moves, _ => yielded from_ moves (from_ key)
  | .next :: moves, ahead => ahead.head? :: yielded from_ moves ahead.tail

theorem yielded_next (from_ : Key → List α) (count : Nat) (ahead : List α) :
    yielded from_ (List.replicate count .next) ahead =
      (List.range count).map fun position => ahead[position]? := by
  induction count generalizing ahead with
  | zero => rfl
  | succ count ih =>
    rw [replicate_succ, yielded, ih, range_succ_eq_map, map_cons, map_map]
    congr 1
    · exact head?_eq_getElem?
    · refine map_congr_left fun position _ => ?_
      simp

section Reading

variable [LinearOrder Key] [PageSource σ] {codec : Codec Key Leaf} {heap : Heap} {txn : Nat}
  {state : σ} {root : Nat} {entries : List (Entry codec)} {pages : List Nat} {fail : Error → σ → Prop}

variable {direction : Direction}
  {policy : Key → Page → Header → Nat → Bool → Direction → Except Error SeekPosition}
  {stays : Key → Entry codec → Bool} (lawful : LawfulCodec codec) (views : Views state txn heap)
  (tree : RootAt heap txn root entries pages) (sorted : KeysSorted entries)

section Cursors

include lawful views tree sorted

theorem seek_spec {key : Key} (aims : Aims key direction (policy key) (stays key)) {cursor : Cursor}
    (open_ : OpenOn state txn root direction cursor) :
    Ensures (Cursor.seek codec (policy key) key cursor) state
      (fun moved reached => reached = state ∧ OpenOn state txn root direction moved ∧
        Remains state txn heap moved (direction.aimed (stays key) key entries)) fail := by
  have reads : ∀ born (items : List (Entry codec)) page index (inside : index < items.length),
      ignoreItem (treePage codec born 0 (items.map Entry.cell))
        (filledHeader 0 (items.map Entry.cell)) page index =
          .ok (Function.const (Entry codec) () items[index]) := fun _ _ _ _ _ => rfl
  rw [Cursor.seek, ensures_bind]
  refine (seekReadInner_spec reads key lawful views aims tree sorted open_).imp ?_
  rintro ⟨output, moved⟩ reached ⟨same, _, opened, remains⟩
  exact ⟨same, opened, remains⟩

theorem traverse_spec (aims : ∀ key, Aims key direction (policy key) (stays key))
    (moves : List (Move Key)) {cursor : Cursor} {ahead : List (Entry codec)}
    (open_ : OpenOn state txn root direction cursor) (remains : Remains state txn heap cursor ahead) :
    Ensures (traverse codec policy moves cursor) state
      (fun found reached => reached = state ∧
        found = (yielded (fun key => direction.aimed (stays key) key entries) moves ahead).map
          (Option.map Entry.leaf)) fail := by
  induction moves generalizing cursor ahead with
  | nil => exact ⟨rfl, rfl⟩
  | cons move moves ih =>
    cases move with
    | seek key =>
      rw [traverse, ensures_bind]
      refine (seek_spec lawful views tree sorted (aims key) open_).imp ?_
      rintro moved reached ⟨rfl, opened, placed⟩
      exact ih opened placed
    | next =>
      rw [traverse, Cursor.next, ensures_bind]
      refine (nextInner_spec readLeafItem_reads lawful views remains).imp ?_
      rintro ⟨found, moved⟩ reached ⟨rfl, output, opened, left⟩
      rw [open_.direction_, open_.root_] at opened
      refine Ensures.bind (ih opened left) ?_
      rintro later final ⟨same, listed⟩
      refine ⟨same, ?_⟩
      rw [yielded, map_cons, ← listed, ← output]

theorem open_traverse_spec (aims : ∀ key, Aims key direction (policy key) (stays key))
    (moves : List (Move Key)) :
    Ensures (Cursor.openAt codec Access.shared root direction >>= traverse codec policy moves) state
      (fun found reached => reached = state ∧
        found = (yielded (fun key => direction.aimed (stays key) key entries) moves
          (direction.arrange entries)).map (Option.map Entry.leaf)) fail := by
  rw [ensures_bind]
  refine (openAt_spec lawful direction views tree).imp ?_
  rintro cursor reached ⟨rfl, opened, _, remains⟩
  exact traverse_spec lawful views tree sorted aims moves opened remains

end Cursors

theorem exactLeaf_answers (key : Key) : Answers codec key exactLeaf
    (fun stored => .ok (stored.map fun _ => ())) := by
  refine ⟨rfl, fun born number smaller larger => ?_⟩
  cases larger with
  | nil => rfl
  | cons first rest => by_cases here : first.key = key <;> simp [exactLeaf, here, Option.filter]

theorem contains_spec (lawful : LawfulCodec codec) (views : Views state txn heap) (key : Key)
    (tree : RootAt heap txn root entries pages) (sorted : KeysSorted entries) :
    contains codec state root key = .ok (decide (∃ entry ∈ entries, entry.key = key)) := by
  rw [contains, query_spec lawful views (exactLeaf_answers key) tree sorted]
  simp only [Functor.map, Except.map, Option.isSome_map]
  congr 1
  rw [Bool.eq_iff_iff, find?_isSome, decide_eq_true_eq]
  simp

theorem greatest_upTo (sorted : KeysSorted entries) (key : Key) (found : Option (Entry codec))
    (last : found = (entries.filter fun entry => decide (entry.key ≤ key)).getLast?) :
    (found = none ∧ ∀ entry ∈ entries, key < entry.key) ∨
      ∃ entry ∈ entries, found = some entry ∧
        IsGreatest {stored | stored ∈ entries.map Entry.key ∧ stored ≤ key} entry.key := by
  have ordered := List.Pairwise.filter (fun entry => decide (entry.key ≤ key)) sorted
  rcases eq_nil_or_concat (entries.filter fun entry : Entry codec => decide (entry.key ≤ key))
    with none_ | ⟨others, entry, shape⟩
  · refine Or.inl ⟨by rw [last, none_]; rfl, ?_⟩
    simpa using none_
  · rw [concat_eq_append] at shape
    have kept : ∀ stored : Entry codec, stored ∈ entries ∧ stored.key ≤ key ↔
        stored ∈ others ++ [entry] := by
      intro stored
      rw [← shape, mem_filter, decide_eq_true_eq]
    have here := (kept entry).mpr (by simp)
    refine Or.inr ⟨entry, here.1, by rw [last, shape]; simp, ?_, ?_⟩
    · exact ⟨mem_map_of_mem here.1, here.2⟩
    · rintro _ ⟨member, upTo⟩
      obtain ⟨stored, stays, rfl⟩ := mem_map.mp member
      rw [shape] at ordered
      rcases mem_append.mp ((kept stored).mp ⟨stays, upTo⟩) with before | same
      · exact le_of_lt ((pairwise_append.mp ordered).2.2 stored before entry (by simp))
      · rw [mem_singleton.mp same]

theorem least_from (sorted : KeysSorted entries) (key : Key) (found : Option (Entry codec))
    (first : found = (entries.filter fun entry => decide (key ≤ entry.key)).head?) :
    (found = none ∧ ∀ entry ∈ entries, entry.key < key) ∨
      ∃ entry ∈ entries, found = some entry ∧
        IsLeast {stored | stored ∈ entries.map Entry.key ∧ key ≤ stored} entry.key := by
  have ordered := List.Pairwise.filter (fun entry => decide (key ≤ entry.key)) sorted
  cases shape : entries.filter fun entry => decide (key ≤ entry.key) with
  | nil =>
    refine Or.inl ⟨by rw [first, shape]; rfl, ?_⟩
    simpa using shape
  | cons entry others =>
    have kept : ∀ stored : Entry codec, stored ∈ entries ∧ key ≤ stored.key ↔
        stored ∈ entry :: others := by
      intro stored
      rw [← shape, mem_filter, decide_eq_true_eq]
    have here := (kept entry).mpr (by simp)
    refine Or.inr ⟨entry, here.1, by rw [first, shape]; simp, ?_, ?_⟩
    · exact ⟨mem_map_of_mem here.1, here.2⟩
    · rintro _ ⟨member, past⟩
      obtain ⟨stored, stays, rfl⟩ := mem_map.mp member
      rw [shape] at ordered
      rcases mem_cons.mp ((kept stored).mp ⟨stays, past⟩) with same | after
      · rw [same]
      · exact le_of_lt ((pairwise_cons.mp ordered).1 stored after)

/-- The read side of a tree agrees with the ordered map it denotes: a query
sees the entry of its key or none, the neighbour lookups find the greatest key
up to the argument and the least key from it on, and a cursor, however it is
moved, returns the entries ahead of the last seek in order, each once, and then
none; what a seek puts ahead is what its policy aims at, by key order the entries
from the key on. No read changes the store or fails. -/
theorem reads_agree_with_map (lawful : LawfulCodec codec) (views : Views state txn heap)
    (tree : RootAt heap txn root entries pages) (sorted : KeysSorted entries) (key : Key) :
    contains codec state root key = .ok (decide (∃ entry ∈ entries, entry.key = key)) ∧
    (∀ (Output : Type) (inspect : Page → Header → Nat → Nat → Bool → Except Error (Option Output))
      (answer : Option (Entry codec) → Except Error (Option Output)),
      Answers codec key inspect answer →
      query codec state key inspect root =
        answer (entries.find? fun entry => entry.key = key)) ∧
    Ensures (predecessor codec root key) state
      (fun result reached => reached = state ∧
        ((result = none ∧ ∀ entry ∈ entries, key < entry.key) ∨
          ∃ entry ∈ entries, result = some entry.leaf ∧
            IsGreatest {stored | stored ∈ entries.map Entry.key ∧ stored ≤ key} entry.key))
      (fun _ _ => False) ∧
    Ensures (atOrAfter codec root key) state
      (fun result reached => reached = state ∧
        ((result = none ∧ ∀ entry ∈ entries, entry.key < key) ∨
          ∃ entry ∈ entries, result = some entry.leaf ∧
            IsLeast {stored | stored ∈ entries.map Entry.key ∧ key ≤ stored} entry.key))
      (fun _ _ => False) ∧
    ∀ direction : Direction,
      (∀ count, Ensures (Cursor.openAt codec Access.shared root direction >>=
          traverse codec (fun _ => orderedSeek direction)
            (.seek key :: List.replicate count .next)) state
        (fun found reached => reached = state ∧ found = (List.range count).map fun position =>
          (direction.fromKey key entries)[position]?.map Entry.leaf) (fun _ _ => False)) ∧
      (∀ moves, Ensures (Cursor.openAt codec Access.shared root direction >>=
          traverse codec (fun _ => orderedSeek direction) moves) state
        (fun found reached => reached = state ∧
          found = (yielded (direction.fromKey · entries) moves (direction.arrange entries)).map
            (Option.map Entry.leaf)) (fun _ _ => False)) ∧
      ∀ (policy : Key → Page → Header → Nat → Bool → Direction → Except Error SeekPosition)
        (stays : Key → Entry codec → Bool),
        (∀ key, Aims key direction (policy key) (stays key)) →
        ∀ moves, Ensures (Cursor.openAt codec Access.shared root direction >>=
            traverse codec policy moves) state
          (fun found reached => reached = state ∧
            found = (yielded (fun key => direction.aimed (stays key) key entries) moves
              (direction.arrange entries)).map (Option.map Entry.leaf)) (fun _ _ => False) := by
  refine ⟨contains_spec lawful views key tree sorted,
    fun Output inspect answer answers => query_spec lawful views answers tree sorted, ?_, ?_, ?_⟩
  · refine (predecessor_spec key lawful views tree sorted).imp ?_
    rintro result reached ⟨same, rfl⟩
    refine ⟨same, ?_⟩
    rcases greatest_upTo sorted key _ rfl with ⟨none_, beyond⟩ | ⟨entry, member, found, greatest⟩
    · exact Or.inl ⟨by rw [none_]; rfl, beyond⟩
    · exact Or.inr ⟨entry, member, by rw [found]; rfl, greatest⟩
  · refine (atOrAfter_spec key lawful views tree sorted).imp ?_
    rintro result reached ⟨same, rfl⟩
    refine ⟨same, ?_⟩
    rcases least_from sorted key _ rfl with ⟨none_, before⟩ | ⟨entry, member, found, least⟩
    · exact Or.inl ⟨by rw [none_]; rfl, before⟩
    · exact Or.inr ⟨entry, member, by rw [found]; rfl, least⟩
  · intro direction
    have byKey : ∀ moves, Ensures _ state _ fun _ _ => False := fun moves =>
      open_traverse_spec lawful views tree sorted (fun key => orderedSeek_aims key direction) moves
    simp only [aimed_exact _ direction sorted] at byKey
    refine ⟨fun count => (byKey _).imp ?_, byKey, fun policy stays aims moves =>
      open_traverse_spec lawful views tree sorted aims moves⟩
    rintro found reached ⟨same, rfl⟩
    refine ⟨same, ?_⟩
    rw [yielded, yielded_next, map_map]
    rfl

end Reading

def nearLeaf : Node (rangeCodec Ipv4Key) :=
  leafNode 2 [(sampleRange 10 20 1).entry nearRange_proper] (by decide)

def farLeaf : Node (rangeCodec Ipv4Key) :=
  leafNode 3 [(sampleRange 30 40 2).entry farRange_proper] (by decide)

def forkNode : Node (rangeCodec Ipv4Key) := join 4 [nearLeaf, farLeaf] (by decide)

def stemNode : Node (rangeCodec Ipv4Key) := join 5 [forkNode] (by decide)

def stemHeap : Heap
  | 2 => some (treePage (rangeCodec Ipv4Key) 3 0 (nearLeaf.entries.map Entry.cell))
  | 3 => some (treePage (rangeCodec Ipv4Key) 3 0 (farLeaf.entries.map Entry.cell))
  | 4 => some (treePage (rangeCodec Ipv4Key) 3 1 ([nearLeaf, farLeaf].map Node.cell))
  | 5 => some (treePage (rangeCodec Ipv4Key) 3 2 ([forkNode].map Node.cell))
  | _ => none

def stemWorkspace : Workspace where
  mapping address := (stemHeap address).getD default
  first := 2
  limit := 64
  next := 6
  free := 0
  txn := 7

theorem stem_stored {address : Nat} {page : Page} (stored : stemHeap address = some page) :
    2 ≤ address ∧ address < 6 := by
  unfold stemHeap at stored
  split at stored <;> first | omega | cases stored

theorem stem_owned : Workspace.Holds 7 stemWorkspace stemHeap := by
  exact Workspace.Holds.of_heap (by decide) (by decide) (by decide) fun _ _ stored =>
    stem_stored stored

theorem stem_tree {txn : Nat} (later : 3 ≤ txn) :
    RootAt stemHeap txn 5 stemNode.entries [5, 4, 2, 3] := by
  refine Or.inr ⟨2, stemNode, by decide, ⟨[forkNode], rfl, rfl, ⟨3, ?_⟩, ?_⟩, rfl, rfl, rfl⟩
  · exact ⟨by decide, later, ⟨by decide, by decide, by decide⟩, rfl⟩
  · simp only [mem_singleton, forall_eq]
    refine ⟨[nearLeaf, farLeaf], rfl, rfl, ⟨3, ?_⟩, ?_⟩
    · exact ⟨by decide, later, ⟨by decide, by decide, by decide⟩, rfl⟩
    · simp only [mem_cons, not_mem_nil, or_false, forall_eq_or_imp, forall_eq]
      refine ⟨⟨rfl, 3, ?_⟩, rfl, 3, ?_⟩
      · exact ⟨by decide, later, ⟨by decide, by decide, by decide⟩, rfl⟩
      · exact ⟨by decide, later, ⟨by decide, by decide, by decide⟩, rfl⟩

theorem reads_agree_with_map_sample :
    contains (rangeCodec Ipv4Key) stemWorkspace 5 ⟨25⟩ = .ok false ∧
    (∃ found reached, (Cursor.openAt (rangeCodec Ipv4Key) Access.shared 5 .forward >>=
        traverse (rangeCodec Ipv4Key) (fun _ => orderedSeek .forward)
          [.seek ⟨25⟩, .next, .next]) stemWorkspace = .ok found reached ∧
      found = [some (sampleRange 30 40 2), none]) ∧
    -- 15 lies inside the first range, 25 between the two
    ∃ found reached, (Cursor.openAt (rangeCodec Ipv4Key) Access.shared 5 .forward >>=
        traverse (rangeCodec Ipv4Key) rangeSeek
          [.seek ⟨15⟩, .next, .next, .seek ⟨25⟩, .next, .next]) stemWorkspace = .ok found reached ∧
      found = [some (sampleRange 10 20 1), some (sampleRange 30 40 2),
        some (sampleRange 30 40 2), none] := by
  have views := (Workspace.laws 7 (by decide) (by decide)).views stem_owned
  have spec := reads_agree_with_map rangeCodec_lawful views (stem_tree (by decide)) (by decide) ⟨25⟩
  obtain ⟨counted, -, aimed⟩ := spec.2.2.2.2 .forward
  refine ⟨spec.1.trans (by decide), ?_, ?_⟩
  · obtain ⟨found, reached, run, _, yields⟩ := (counted 2).total
    exact ⟨found, reached, run, yields⟩
  · obtain ⟨found, reached, run, _, yields⟩ :=
      (aimed rangeSeek _ (fun key => rangeSeek_aims key .forward) _).total
    exact ⟨found, reached, run, yields⟩

end IpRange.FixedTree
