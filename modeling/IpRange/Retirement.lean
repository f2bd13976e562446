import IpRange.RetirementExtents
import IpRange.FixedTreeCalls
import IpRange.FixedTreeCursor

/-!
Retiring pages into the tree. A page joins the extents it is adjacent to, so the
extents of a transaction stay maximal runs. In a draft the tree opens the page where
the transaction's own extents begin only once: from then on it retires nothing of its
own, and the pages it did retire can be fed back into it.
-/

namespace IpRange.Retirement

open List SlottedPage FixedTree

variable {σ : Type} [Store σ] (laws : StoreLaws σ)

section Draft

/-- A draft's retirement tree: no extent is of a later transaction, those on committed pages are
of earlier ones, and committed pages point at committed pages. -/
structure Drafted (heap : Heap) (entries : List (Entry retirementCodec)) (pages : List Nat) :
    Prop where
  latest : ∀ entry ∈ entries, entry.key.txn ≤ laws.txn
  older : ∀ address ∈ pages, ∀ born, ∀ records : List (Entry retirementCodec),
    heap address = some (treePage retirementCodec born 0 (records.map Entry.cell)) →
    born ≠ laws.txn → ∀ record ∈ records, record.key.txn < laws.txn
  closed : Closed retirementCodec heap laws.txn pages

def Guarded (heap : Heap) (entries : List (Entry retirementCodec)) (pages : List Nat) : Prop :=
  ∃ guard ∈ entries.map Entry.key, guard.txn < laws.txn ∧
    (∀ key ∈ entries.map Entry.key, key.txn < laws.txn → key ≤ guard) ∧
    ∀ address ∈ pages, ∀ born, ∀ records : List (Entry retirementCodec),
      heap address = some (treePage retirementCodec born 0 (records.map Entry.cell)) →
      born ≠ laws.txn → ∀ record ∈ records, record.key ≠ guard

structure Keeps (txn : Nat) (heap : Heap) (entries : List (Entry retirementCodec))
    (pages : List Nat) (after : Heap) (last : List (Entry retirementCodec)) (kept gone : List Nat) :
    Prop where
  drafted : txn = laws.txn → Drafted laws heap entries pages → Drafted laws after last kept
  quiet : txn = laws.txn → Drafted laws heap entries pages → Guarded laws heap entries pages →
    gone = [] ∧ Guarded laws after last kept
  guards : txn = laws.txn → Drafted laws heap entries pages → gone ≠ [] →
    Guarded laws after last kept

variable {laws} {txn : Nat} {heap middle after : Heap}
  {entries first last : List (Entry retirementCodec)} {pages between kept gone later : List Nat}

theorem Keeps.refl : Keeps laws txn heap entries pages heap entries pages [] :=
  ⟨fun _ drafted => drafted, fun _ _ guarded => ⟨rfl, guarded⟩, fun _ _ some_ => absurd rfl some_⟩

theorem Keeps.trans (before : Keeps laws txn heap entries pages middle first between gone)
    (next : Keeps laws txn middle first between after last kept later) :
    Keeps laws txn heap entries pages after last kept (gone ++ later) := by
  refine ⟨fun same drafted => next.drafted same (before.drafted same drafted), ?_, ?_⟩
  · intro same drafted guarded
    obtain ⟨none, stillGuarded⟩ := before.quiet same drafted guarded
    obtain ⟨noneLater, lastGuarded⟩ :=
      next.quiet same (before.drafted same drafted) stillGuarded
    exact ⟨by rw [none, noneLater, append_nil], lastGuarded⟩
  · intro same drafted some_
    have stillDrafted := before.drafted same drafted
    by_cases none : gone = []
    · rw [none, nil_append] at some_
      exact next.guards same stillDrafted some_
    · exact (next.quiet same stillDrafted (before.guards same drafted none)).2

def SameOthers (txn : Nat) (entries last : List (Entry retirementCodec)) : Prop :=
  ∀ key : Key, key.txn ≠ txn → (key ∈ last.map Entry.key ↔ key ∈ entries.map Entry.key)

theorem Drafted.moves (drafted : Drafted laws heap entries pages)
    (moves : Moves laws.txn heap after pages (kept ++ gone))
    (same : SameOthers laws.txn entries last) : Drafted laws after last kept := by
  refine ⟨?_, ?_, drafted.closed.moves moves⟩
  · intro entry member
    by_cases own : entry.key.txn = laws.txn
    · exact own.le
    · obtain ⟨twin, inEntries, key⟩ :=
        mem_map.mp ((same entry.key own).mp (mem_map_of_mem member))
      rw [← key]
      exact drafted.latest twin inEntries
  · intro address member born records stored old
    obtain ⟨inPages, was⟩ := moves.origin address _ (mem_append_left _ member) stored old
    exact drafted.older address inPages born records was old

theorem Guarded.moves (guarded : Guarded laws heap entries pages)
    (moves : Moves laws.txn heap after pages (kept ++ gone))
    (same : SameOthers laws.txn entries last) : Guarded laws after last kept := by
  obtain ⟨guard, member, older, greatest, aside⟩ := guarded
  refine ⟨guard, (same guard older.ne).mpr member, older, ?_, ?_⟩
  · exact fun key inLast earlier => greatest key ((same key earlier.ne).mp inLast) earlier
  · intro address inKept born records stored old
    obtain ⟨inPages, was⟩ := moves.origin address _ (mem_append_left _ inKept) stored old
    exact aside address inPages born records was old

section Opened

variable {key : Key} {held : List (Entry retirementCodec)}

section Drafted

variable (opened : Opened laws key heap entries pages gone kept after held)
  (sorted : KeysSorted entries) (own : key.txn = laws.txn)
  (drafted : Drafted laws heap entries pages)

include opened sorted own drafted

theorem earlier_of_opened (some_ : gone ≠ []) :
    (∀ entry ∈ held, entry ∈ entries ∧ entry.key.txn < laws.txn) ∧
      ∀ entry ∈ entries, entry.key.txn < laws.txn →
        (∀ other ∈ held, entry.key < other.key) ∨ entry ∈ held := by
  obtain ⟨address, inPages, born, stored, retires⟩ := opened.page
  have older := drafted.older address inPages born held stored (retires drafted.closed some_)
  obtain ⟨before, beyond, rfl, below, above⟩ := opened.cut
  refine ⟨fun entry isHeld => ⟨by simp [isHeld], older entry isHeld⟩, ?_⟩
  intro entry member earlier
  rcases mem_append.mp member with low | high
  · rcases mem_append.mp low with isBefore | isHeld
    · have ordered := (pairwise_append.mp (pairwise_append.mp sorted).1).2.2
      exact Or.inl fun other isHeld => ordered entry isBefore other isHeld
    · exact Or.inr isHeld
  · have past := Key.lt_iff.mp (above entry high)
    omega

theorem quiet_of_guarded (guarded : Guarded laws heap entries pages) : gone = [] := by
  by_contra some_
  obtain ⟨guard, member, older, greatest, aside⟩ := guarded
  obtain ⟨entry, inEntries, rfl⟩ := mem_map.mp member
  obtain ⟨inside, upTo⟩ := earlier_of_opened opened sorted own drafted some_
  rcases upTo entry inEntries older with before | isHeld
  · obtain ⟨other, isHeld⟩ := exists_mem_of_ne_nil held opened.inhabited
    obtain ⟨stored, earlier⟩ := inside other isHeld
    exact absurd (before other isHeld)
      (not_lt.mpr (greatest other.key (mem_map_of_mem stored) earlier))
  · obtain ⟨address, inPages, born, stored, retires⟩ := opened.page
    exact aside address inPages born held stored (retires drafted.closed some_) entry isHeld rfl

theorem guarded_of_opened (some_ : gone ≠ []) (same : SameOthers laws.txn entries last) :
    Guarded laws after last kept := by
  obtain ⟨inside, upTo⟩ := earlier_of_opened opened sorted own drafted some_
  have isHeld := getLast_mem opened.inhabited
  obtain ⟨stored, earlier⟩ := inside _ isHeld
  -- the guard is the last extent of the opened page
  refine ⟨(held.getLast opened.inhabited).key, (same _ earlier.ne).mpr (mem_map_of_mem stored),
    earlier, ?_, ?_⟩
  · intro key inLast older
    obtain ⟨entry, inEntries, rfl⟩ := mem_map.mp ((same key older.ne).mp inLast)
    rcases upTo entry inEntries older with before | alsoHeld
    · exact le_of_lt (before _ isHeld)
    · obtain ⟨before, beyond, rfl, -, -⟩ := opened.cut
      have ordered := (pairwise_append.mp (pairwise_append.mp sorted).1).2.1
      rw [← dropLast_concat_getLast opened.inhabited] at ordered alsoHeld
      rcases mem_append.mp alsoHeld with earlierHeld | isLast
      · exact le_of_lt ((pairwise_append.mp ordered).2.2 entry earlierHeld _ (by simp))
      · exact le_of_eq (congrArg Entry.key (mem_singleton.mp isLast))
  · intro address inKept born records found old record inRecords
    exact opened.moved address inKept born records found old _ isHeld record inRecords

end Drafted

theorem quiet_of_present (opened : Opened laws key heap entries pages gone kept after held)
    (own : key.txn = laws.txn) (drafted : Drafted laws heap entries pages)
    (present : key ∈ entries.map Entry.key) : gone = [] := by
  by_contra some_
  obtain ⟨entry, inEntries, rfl⟩ := mem_map.mp present
  obtain ⟨address, inPages, born, stored, retires⟩ := opened.page
  obtain ⟨before, beyond, rfl, below, above⟩ := opened.cut
  have isHeld : entry ∈ held := by
    rcases mem_append.mp inEntries with low | high
    · rcases mem_append.mp low with isBefore | isHeld
      · exact absurd (below entry isBefore) (lt_irrefl _)
      · exact isHeld
    · exact absurd (above entry high) (lt_irrefl _)
  have older := drafted.older address inPages born held stored (retires drafted.closed some_) entry
    isHeld
  exact absurd own older.ne

theorem keeps_of_opened (sorted : KeysSorted entries) (own : key.txn = txn)
    (moves : Moves laws.txn heap after pages (kept ++ gone))
    (committed : ∀ address ∈ gone, address ∈ pages) (inhabited : pages ≠ [] → entries ≠ [])
    (opens : entries ≠ [] → ∃ records, Opened laws key heap entries pages gone kept after records)
    (same : SameOthers txn entries last) :
    Keeps laws txn heap entries pages after last kept gone := by
  have opened : gone ≠ [] →
      ∃ records, Opened laws key heap entries pages gone kept after records := by
    intro some_
    obtain ⟨address, member⟩ := exists_mem_of_ne_nil gone some_
    exact opens (inhabited (ne_nil_of_mem (committed address member)))
  refine ⟨?_, ?_, ?_⟩
  · rintro rfl drafted
    exact drafted.moves moves same
  · rintro rfl drafted guarded
    refine ⟨?_, guarded.moves moves same⟩
    by_contra some_
    obtain ⟨records, found⟩ := opened some_
    exact some_ (quiet_of_guarded found sorted own drafted guarded)
  · rintro rfl drafted some_
    obtain ⟨records, found⟩ := opened some_
    exact guarded_of_opened found sorted own drafted some_ same

end Opened

end Draft

section Calls

variable {laws} {txn : Nat} {heap : Heap} {state : σ} {tree : Tree}
  {entries : List (Entry retirementCodec)} {pages retired : List Nat}

def Extent.item (extent : Extent) : Key × Extent := (extent.key, extent)

theorem items_eq (entries : List (Entry retirementCodec)) :
    entries.map Entry.item = (entries.map Entry.leaf).map Extent.item := by
  rw [map_map]
  exact map_congr_left fun entry _ => by simp [Entry.item, Extent.item, entry_key]

theorem leaves_of_items (entries : List (Entry retirementCodec)) :
    (entries.map Entry.item).map Prod.snd = entries.map Entry.leaf := by
  rw [map_map]
  rfl

theorem leaves_ordered (sorted : KeysSorted entries) :
    (entries.map Entry.leaf).Pairwise fun earlier later => earlier.key < later.key := by
  rw [pairwise_map]
  exact sorted.imp fun less => by rwa [← entry_key, ← entry_key]

theorem leaves_valid (entries : List (Entry retirementCodec)) :
    ∀ extent ∈ entries.map Entry.leaf, extent.Valid := by
  intro extent member
  obtain ⟨entry, -, rfl⟩ := mem_map.mp member
  exact entry_valid entry

variable (laws) in
def Reaches (txn : Nat) (heap : Heap) (entries : List (Entry retirementCodec)) (pages : List Nat)
    (extents : List Extent) (tree : Tree) (gone : List Nat) (reached : σ) : Prop :=
  ∃ after kept, ∃ last : List (Entry retirementCodec),
    Advanced laws heap pages after last kept gone tree.root reached ∧
    tree.extentCount = last.length ∧ last.map Entry.leaf = extents ∧
    Keeps laws txn heap entries pages after last kept gone

section Yields

variable {key : Key} {left mid right new : List Extent} {root : Nat} {gone : List Nat} {reached : σ}
  {shape : List (Entry retirementCodec) → Heap → Nat → Prop}

theorem inhabited_of_pages (wellFormed : WellFormed laws heap root entries pages)
    (some_ : pages ≠ []) : entries ≠ [] := by
  rcases wellFormed.tree with ⟨-, -, none⟩ | ⟨height, node, -, -, -, rfl, -⟩
  · exact absurd none some_
  · exact node.inhabited

theorem reaches_of_yields {before : Nat} {tree : Tree}
    (wellFormed : WellFormed laws heap before entries pages) (own : key.txn = txn)
    (cut : entries.map Entry.leaf = left ++ mid ++ right)
    (below : ∀ extent ∈ left, extent.key < key) (here : ∀ extent ∈ mid, extent.key = key)
    (above : ∀ extent ∈ right, key < extent.key) (newKeys : ∀ extent ∈ new, extent.key = key)
    (yields : YieldsAt laws key heap entries pages gone tree.root reached shape
      (splice key (new.map Extent.item) (entries.map Entry.item)))
    (counted : tree.extentCount = (left ++ new ++ right).length) :
    Reaches laws txn heap entries pages (left ++ new ++ right) tree gone reached := by
  obtain ⟨last, ⟨after, kept, owns, whole, moves, committed, -, opens⟩, sorted, same⟩ := yields
  have spliced : splice key (new.map Extent.item) (entries.map Entry.item) =
      (left ++ new ++ right).map Extent.item := by
    rw [items_eq, cut]
    simp only [map_append]
    refine splice_cut key _ ?_ ?_ ?_
    · intro item member
      obtain ⟨extent, inLeft, rfl⟩ := mem_map.mp member
      exact below extent inLeft
    · intro item member
      obtain ⟨extent, inMid, rfl⟩ := mem_map.mp member
      exact here extent inMid
    · intro item member
      obtain ⟨extent, inRight, rfl⟩ := mem_map.mp member
      exact above extent inRight
  have leaves : last.map Entry.leaf = left ++ new ++ right := by
    rw [← leaves_of_items, same, spliced, map_map]
    exact map_id _
  have others : SameOthers txn entries last := by
    intro other foreign
    have apart : other ≠ key := fun equal => foreign (equal ▸ own)
    rw [← keys_of_items, ← keys_of_items, same]
    simp only [mem_map, mem_splice]
    constructor
    · rintro ⟨item, ⟨extent, inNew, rfl⟩ | ⟨stored, -⟩, rfl⟩
      · exact absurd (newKeys extent inNew) apart
      · exact ⟨item, stored, rfl⟩
    · rintro ⟨item, stored, rfl⟩
      exact ⟨item, Or.inr ⟨stored, apart⟩, rfl⟩
  refine ⟨after, kept, last, ⟨owns, ⟨whole, (nodup_append.mp moves.nodup).1, sorted⟩, moves,
    committed⟩, ?_, leaves, ?_⟩
  · rw [counted, ← leaves, length_map]
  · exact keeps_of_opened wellFormed.sorted own moves
      (fun address member => (committed address member).1)
      (inhabited_of_pages wellFormed) opens others

theorem quiet_of_yields {items : List (Key × Extent)} (own : key.txn = laws.txn)
    (drafted : Drafted laws heap entries pages) (present : key ∈ entries.map Entry.key)
    (yields : YieldsAt laws key heap entries pages gone root reached shape items) : gone = [] := by
  obtain ⟨last, ⟨after, kept, -, -, -, -, -, opens⟩, -, -⟩ := yields
  have some_ : entries ≠ [] := by
    rintro rfl
    cases present
  obtain ⟨records, opened⟩ := opens some_
  exact quiet_of_present opened own drafted present

end Yields

variable (laws) in
/-- Those of the store, a tree that cannot grow, and, unless the tree is `settled`, more
replaced pages than a path has. -/
def RetireFails (settled : Prop) (error : Error) (state : σ) : Prop :=
  StretchFails laws False error state ∨
    ¬ settled ∧ error = .corrupt "COW path exceeds the maximum tree height"

variable {reached : σ} {extents : List Extent} {gone added : List Nat}
  {last : List (Entry retirementCodec)}

theorem RetireFails.mono {settled weaker : Prop} {error : Error}
    (failed : RetireFails laws weaker error reached) (stronger : settled → weaker) :
    RetireFails laws settled error reached :=
  failed.imp_right fun crowded => ⟨mt stronger crowded.1, crowded.2⟩

theorem Reaches.length_lt (reaches : Reaches laws txn heap entries pages extents tree gone reached) :
    extents.length < 2 ^ 64 := by
  obtain ⟨after, kept, last, advanced, -, rfl, -⟩ := reaches
  rw [length_map]
  refine lt_of_le_of_lt (advanced.wellFormed.length_le advanced.owns) ?_
  decide

theorem countUp_eq {count next : Nat} (same : count + 1 = next) (word : next < 2 ^ 64) :
    countUp count = .ok next := by
  rw [countUp, same, if_pos word]

theorem extendRetired_spec (retired pages : List Nat) :
    extendRetired retired pages = .ok (retired ++ pages) ∨
      pages ≠ [] ∧ extendRetired retired pages =
        .error (.corrupt "COW path exceeds the maximum tree height") := by
  induction pages generalizing retired with
  | nil => exact Or.inl (by simp [extendRetired, pure, Except.pure])
  | cons page rest ih =>
    by_cases room : retired.length < maxPath + 1
    · have step : extendRetired retired (page :: rest) = extendRetired (retired ++ [page]) rest := by
        simp only [extendRetired, foldlM_cons, pushRetired, if_pos room, bind, Except.bind]
      rw [step]
      rcases ih (retired ++ [page]) with done | ⟨_, failed⟩
      · exact Or.inl (by rw [done, append_assoc, singleton_append])
      · exact Or.inr ⟨cons_ne_nil _ _, failed⟩
    · refine Or.inr ⟨cons_ne_nil _ _, ?_⟩
      simp only [extendRetired, foldlM_cons, pushRetired, if_neg room, bind, Except.bind]

theorem Reaches.after {after : Heap} {kept later : List Nat} {root : Nat} {done : σ}
    (advanced : Advanced laws heap pages after last kept gone root reached)
    (keeps : Keeps laws txn heap entries pages after last kept gone)
    (next : Reaches laws txn after last kept extents tree later done) :
    Reaches laws txn heap entries pages extents tree (gone ++ later) done := by
  obtain ⟨final, held, records, further, counted, leaves, keepsOn⟩ := next
  exact ⟨final, held, records, advanced.trans laws further, counted, leaves, keeps.trans keepsOn⟩

theorem grow_eq {count by_ : Nat} (word : count + by_ < 2 ^ 32) :
    grow count by_ = .ok (count + by_) := if_pos word

theorem joinPage_valid {key : Key} {previous next : Option Extent} (created : 1 < key.txn)
    (txnWord : key.txn < 2 ^ 64) (real : 2 ≤ key.first)
    (word : key.first < 2 ^ 32)
    (isPrevious : ∀ extent ∈ previous, extent.key.txn = key.txn ∧ extent.past = key.first)
    (isNext : ∀ extent ∈ next, extent.key.txn = key.txn ∧ extent.key.first = key.first + 1)
    (validPrevious : ∀ extent ∈ previous, extent.Valid) (validNext : ∀ extent ∈ next, extent.Valid) :
    (joinPage key previous next).Valid := by
  have past := joinPage_past (fun extent member => (isPrevious extent member).2)
    fun extent member => (isNext extent member).2
  have inside : (joinPage key previous next).past ≤ 2 ^ 32 := by
    rw [past]
    cases next with
    | none => exact word
    | some extent => exact (validNext extent rfl).inside
  have some_ : 0 < (joinPage key previous next).count := by
    simp only [joinPage]
    omega
  cases previous with
  | none => exact ⟨created, txnWord, real, some_, inside⟩
  | some extent =>
    have valid := validPrevious extent rfl
    exact ⟨valid.created, valid.txnWord, valid.real, some_, inside⟩

variable (laws) in
def Retires (txn : Nat) (heap : Heap) (entries : List (Entry retirementCodec)) (pages : List Nat)
    (added : List Nat) (tree : Tree) (gone : List Nat) (reached : σ) : Prop :=
  ∃ extents, Adds txn added (entries.map Entry.leaf) extents ∧
    Reaches laws txn heap entries pages extents tree gone reached

theorem Retires.after {after : Heap} {kept later more : List Nat} {root : Nat} {done : σ}
    (adds : Adds txn added (entries.map Entry.leaf) (last.map Entry.leaf))
    (advanced : Advanced laws heap pages after last kept gone root reached)
    (keeps : Keeps laws txn heap entries pages after last kept gone)
    (next : Retires laws txn after last kept more tree later done) :
    Retires laws txn heap entries pages (added ++ more) tree (gone ++ later) done := by
  obtain ⟨extents, addsMore, reaches⟩ := next
  exact ⟨extents, adds.trans addsMore, Reaches.after advanced keeps reaches⟩

theorem Adds.still_fresh {page : Nat} {rest : List Nat} {before after : List Extent}
    (adds : Adds txn [page] before after) (nodup : (page :: rest).Nodup)
    (fresh : ∀ other ∈ page :: rest, ¬ Covered txn before other) :
    ∀ other ∈ rest, ¬ Covered txn after other := by
  intro other member covered
  rcases (adds.covered other).mp covered with already | isPage
  · exact fresh other (mem_cons_of_mem _ member) already
  · exact (nodup_cons.mp nodup).1 (mem_singleton.mp isPage ▸ member)

theorem Retires.quiet (retires : Retires laws laws.txn heap entries pages added tree gone reached)
    (drafted : Drafted laws heap entries pages) (guarded : Guarded laws heap entries pages) :
    gone = [] := by
  obtain ⟨extents, -, after, kept, last, -, -, -, keeps⟩ := retires
  exact (keeps.quiet rfl drafted guarded).1

variable (laws) in
/-- A draft's retirement tree: its extents are counted and maximal runs, and no committed page
of its own is retired yet. -/
structure DraftTree (heap : Heap) (tree : Tree) (entries : List (Entry retirementCodec))
    (pages : List Nat) : Prop where
  wellFormed : WellFormed laws heap tree.root entries pages
  counted : tree.extentCount = entries.length
  coalesced : Coalesced laws.txn (entries.map Entry.leaf)
  drafted : Drafted laws heap entries pages
  unretired : ∀ address ∈ pages, ∀ page, heap address = some page → Committed laws.txn page →
    ¬ Covered laws.txn (entries.map Entry.leaf) address

section Standing

variable (owns : laws.Owns state heap)
  (wellFormed : WellFormed laws heap tree.root entries pages)
  (counted : tree.extentCount = entries.length)

include owns wellFormed counted

variable {right : List Extent}

theorem insert_reaches {left : List Extent} {old : Option Extent} {extent : Extent}
    (valid : extent.Valid) (own : extent.key.txn = txn)
    (cut : entries.map Entry.leaf = left ++ old.toList ++ right)
    (below : ∀ other ∈ left, other.key < extent.key)
    (here : ∀ other ∈ old.toList, other.key = extent.key)
    (above : ∀ other ∈ right, extent.key < other.key) :
    Ensures (insert tree extent retired) state
      (fun result reached => ∃ gone, result.2 = retired ++ gone ∧
        Reaches laws txn heap entries pages (left ++ [extent] ++ right) result.1 gone reached)
      (RetireFails laws (retired = [])) := by
  have bulk : ¬ Bulky retirementCodec (extent.entry valid).cell :=
    fun bulky => absurd bulky.1 (by decide)
  have lengths : entries.length = left.length + old.toList.length + right.length := by
    have same := congrArg List.length cut
    simp only [length_map, length_append] at same
    exact same
  have stored : extent.key ∈ entries.map Entry.key ↔ old.isSome = true := by
    rw [← keys_of_items, items_eq, cut]
    cases old with
    | none =>
      simp only [Option.toList_none, append_nil, Option.isSome_none, Bool.false_eq_true,
        iff_false, mem_map, not_exists, not_and]
      rintro item ⟨other, member, rfl⟩ same
      rcases mem_append.mp member with inLeft | inRight
      · exact (below other inLeft).ne same
      · exact (above other inRight).ne' same
    | some other =>
      have key := here other (by simp)
      simp only [Option.isSome_some, iff_true, ← key]
      exact mem_map_of_mem (mem_map_of_mem (by simp))
  rw [insert, ensures_bind]
  refine (insert_opens laws retirementCodec_lawful owns wellFormed (extent.entry valid)).mono ?_ ?_
  · rintro ⟨added, root, gathered⟩ reached ⟨added_, gone, rfl, yields⟩
    have reaches : Reaches laws txn heap entries pages (left ++ [extent] ++ right)
        { root, extentCount := (left ++ [extent] ++ right).length } gone reached :=
      reaches_of_yields wellFormed own cut below here above (by simp) yields rfl
    have room := wellFormed.hasRoom (rfl : retirementCodec.leafLayout = _) (extent.entry valid)
    have fresh : added = true ↔ old.isSome = false := by
      rw [added_, ← Bool.not_eq_true, ← stored]
      simp only [room, not_true_eq_false, or_false]
      rfl
    cases old with
    | none =>
      obtain rfl : added = true := fresh.mpr rfl
      have more : tree.extentCount + 1 = (left ++ [extent] ++ right).length := by
        simp only [counted, lengths, Option.toList_none, length_append, length_cons,
          length_nil]
        omega
      have count := countUp_eq more reaches.length_lt
      simp only [if_true, ensures_bind, count, ensures_liftResult_ok, ensures_pure]
      exact ⟨gone, rfl, reaches⟩
    | some other =>
      obtain rfl : added = false := by simpa using fresh
      have count : tree.extentCount = (left ++ [extent] ++ right).length := by
        simp only [counted, lengths, Option.toList_some, length_append, length_cons,
          length_nil]
      simp only [Bool.false_eq_true, if_false, ensures_pure, count]
      exact ⟨gone, rfl, reaches⟩
  · rintro error reached (failed | ⟨crowded, rfl⟩)
    · exact Or.inl (failed.imp bulk)
    · refine Or.inr ⟨?_, rfl⟩
      rintro rfl
      exact absurd crowded (by decide)

theorem remove_reaches {left : List Extent} {old : Extent} (own : old.key.txn = txn)
    (cut : entries.map Entry.leaf = left ++ old :: right) :
    Ensures (remove tree old.key retired) state
      (fun result reached => ∃ gone, result.2 = retired ++ gone ∧
        Reaches laws txn heap entries pages (left ++ right) result.1 gone reached ∧
        (txn = laws.txn → Drafted laws heap entries pages → gone = []))
      (RetireFails laws (txn = laws.txn ∧ Drafted laws heap entries pages)) := by
  have ordered := leaves_ordered wellFormed.sorted
  rw [cut] at ordered
  obtain ⟨-, upper, across⟩ := pairwise_append.mp ordered
  have present : old.key ∈ entries.map Entry.key := by
    rw [← keys_of_items, items_eq, cut]
    exact mem_map_of_mem (mem_map_of_mem (by simp))
  have lengths : entries.length = left.length + (right.length + 1) := by
    have same := congrArg List.length cut
    simp only [length_map, length_append, length_cons] at same
    exact same
  rw [remove, ensures_bind]
  refine (deleteExisting_opens laws retirementCodec_lawful owns wellFormed old.key).mono ?_ ?_
  · rintro ⟨value, root, gone⟩ reached ⟨-, _, rfl, yields⟩
    have silent : txn = laws.txn → Drafted laws heap entries pages → gone = [] :=
      fun same drafted => quiet_of_yields (own.trans same) drafted present yields
    have reaches : Reaches laws txn heap entries pages (left ++ [] ++ right)
        { root, extentCount := (left ++ [] ++ right).length } gone reached := by
      have cut' : entries.map Entry.leaf = left ++ [old] ++ right := by
        rw [cut, append_assoc, singleton_append]
      refine reaches_of_yields wellFormed own cut' ?_ (by simp) ?_ (by simp) yields rfl
      · exact fun extent member => across extent member old (by simp)
      · exact fun extent member => (pairwise_cons.mp upper).1 extent member
    rw [append_nil] at reaches
    have count : countDown tree.extentCount = .ok (left ++ right).length := by
      rw [countDown, if_neg (by omega), counted, lengths, length_append]
      rfl
    rw [ensures_bind]
    rcases extendRetired_spec retired gone with done | ⟨some_, failed⟩
    · simp only [done, ensures_liftResult_ok, ensures_bind, count, ensures_pure]
      exact ⟨gone, rfl, reaches, silent⟩
    · simp only [failed, ensures_liftResult_error]
      exact Or.inr ⟨fun settled => some_ (silent settled.1 settled.2), rfl⟩
  · rintro error reached (failed | missing)
    · exact Or.inl (failed.resolve_right fun full => absurd full.1 (by decide))
    · exact absurd (keys_of_items entries ▸ present) missing.1

theorem applyPage_reaches {key : Key} {before after : List Extent}
    {previous next : Option Extent} (created : 1 < key.txn) (txnWord : key.txn < 2 ^ 64)
    (real : 2 ≤ key.first) (word : key.first < 2 ^ 32)
    (cut : entries.map Entry.leaf = before ++ previous.toList ++ (next.toList ++ after))
    (below : ∀ extent ∈ before ++ previous.toList, extent.key < key)
    (above : ∀ extent ∈ next.toList ++ after, key < extent.key)
    (isPrevious : ∀ extent ∈ previous, extent.key.txn = key.txn ∧ extent.past = key.first)
    (isNext : ∀ extent ∈ next, extent.key.txn = key.txn ∧ extent.key.first = key.first + 1) :
    Ensures (applyPage tree key (neighborsOf previous next)) state
      (fun result reached => Reaches laws key.txn heap entries pages
        (before ++ [joinPage key previous next] ++ after) result.1 result.2 reached)
      (RetireFails laws (key.txn = laws.txn ∧ Drafted laws heap entries pages)) := by
  have valid := leaves_valid entries
  have ordered := leaves_ordered wellFormed.sorted
  rw [cut] at valid ordered
  have fits := joinPage_valid created txnWord real word isPrevious isNext
    (fun extent member => valid extent (by simp [Option.mem_toList.mpr member]))
    fun extent member => valid extent (by simp [Option.mem_toList.mpr member])
  have countWord := fits.countWord
  obtain ⟨lower, upper, across⟩ := pairwise_append.mp ordered
  cases previous with
  | none =>
    have low : ∀ extent ∈ before, extent.key < key := by simpa using below
    cases next with
    | none =>
      have cutHere : entries.map Entry.leaf = before ++ (none : Option Extent).toList ++ after := by
        simpa using cut
      rw [neighborsOf, applyPage, insertSingle]
      refine (insert_reaches owns wellFormed counted fits rfl cutHere low (by simp)
        fun extent member => above extent (by simpa using member)).mono ?_
        fun error _ failed => failed.mono fun _ => rfl
      rintro ⟨grown, retired⟩ reached ⟨gone, rfl, reaches⟩
      exact reaches
    | some following =>
      -- the extent after the page gets a new key: it is removed and stored again
      have cutNext : entries.map Entry.leaf = before ++ following :: after := by simpa using cut
      rw [neighborsOf, applyPage, extendNext, ensures_bind]
      refine (remove_reaches owns wellFormed counted (isNext following rfl).1 cutNext).imp ?_
      rintro ⟨less, retired⟩ reached ⟨gone, rfl, ⟨middle, kept, last, advanced, countedLess, leaves,
        keeps⟩, silent⟩
      have room : grow following.count 1 = .ok (joinPage key none (some following)).count := by
        have size := countWord
        simp only [joinPage, Option.map_none, Option.map_some, Option.getD_none,
          Option.getD_some] at size ⊢
        rw [grow_eq (by omega)]
        congr 1
        omega
      simp only [ensures_bind, room, ensures_liftResult_ok]
      have cutHere : last.map Entry.leaf = before ++ (none : Option Extent).toList ++ after := by
        simpa using leaves
      refine (insert_reaches advanced.owns advanced.wellFormed countedLess fits rfl cutHere low
        (by simp) ?_).mono ?_ ?_
      · exact fun extent member => above extent (by simp [member])
      · rintro ⟨grown, retired⟩ done ⟨later, rfl, reaches⟩
        exact Reaches.after advanced keeps reaches
      · exact fun error _ failed => failed.mono fun settled => silent settled.1 settled.2
  | some preceding =>
    have own := (isPrevious preceding rfl).1
    have ahead : ∀ extent ∈ before, extent.key < preceding.key := fun extent member =>
      (pairwise_append.mp lower).2.2 extent member preceding (by simp)
    have behind : ∀ extent ∈ next.toList ++ after, preceding.key < extent.key :=
      fun extent member => across preceding (by simp) extent member
    cases next with
    | none =>
      have room : grow preceding.count 1 = .ok (joinPage key (some preceding) none).count := by
        have size := countWord
        simp only [joinPage, Option.map_none, Option.map_some, Option.getD_none,
          Option.getD_some] at size ⊢
        exact grow_eq (by omega)
      rw [neighborsOf, applyPage, extendPrevious, room, ensures_bind, ensures_liftResult_ok]
      have cutHere : entries.map Entry.leaf = before ++ (some preceding).toList ++ after := by
        simpa using cut
      refine (insert_reaches owns wellFormed counted fits own cutHere ahead (by simp [joinPage])
        fun extent member => behind extent (by simpa using member)).mono ?_
        fun error _ failed => failed.mono fun _ => rfl
      rintro ⟨grown, retired⟩ reached ⟨gone, rfl, reaches⟩
      exact reaches
    | some following =>
      -- both neighbors are removed before the extent over all three is stored
      have cutBoth : entries.map Entry.leaf = before ++ preceding :: (following :: after) := by
        simpa using cut
      have joins : grow preceding.count 1 = .ok (preceding.count + 1) ∧
          grow (preceding.count + 1) following.count =
            .ok (joinPage key (some preceding) (some following)).count := by
        have size := countWord
        simp only [joinPage, Option.map_some, Option.getD_some] at size ⊢
        exact ⟨grow_eq (by omega), grow_eq (by omega)⟩
      rw [neighborsOf, applyPage, bridge, ensures_bind]
      refine (remove_reaches owns wellFormed counted own cutBoth).imp ?_
      rintro ⟨less, retired⟩ reached ⟨gone, rfl, ⟨middle, kept, last, advanced, countedLess, leaves,
        keeps⟩, silent⟩
      rw [ensures_bind]
      refine (remove_reaches advanced.owns advanced.wellFormed countedLess (isNext following rfl).1
        leaves).mono ?_ fun error _ failed => failed.mono fun settled =>
          ⟨settled.1, keeps.drafted settled.1 settled.2⟩
      rintro ⟨fewer, retired⟩ onward ⟨later, rfl, ⟨final, held, records, further, countedFewer,
        remaining, keepsOn⟩, silentToo⟩
      have cutHere : records.map Entry.leaf = before ++ (none : Option Extent).toList ++ after := by
        simpa using remaining
      simp only [ensures_bind, joins.1, joins.2, ensures_liftResult_ok]
      refine (insert_reaches further.owns further.wellFormed countedFewer fits own cutHere ahead
        (by simp) fun extent member => behind extent (by simp [member])).mono ?_ ?_
      · rintro ⟨grown, retired⟩ done ⟨more, rfl, reaches⟩
        have whole := Reaches.after advanced keeps (Reaches.after further keepsOn reaches)
        rwa [← append_assoc] at whole
      · refine fun error _ failed => failed.mono fun settled => ?_
        exact append_eq_nil_iff.mpr ⟨silent settled.1 settled.2,
          silentToo settled.1 (keeps.drafted settled.1 settled.2)⟩

theorem addPage_retires {page : Nat} (created : 1 < txn) (txnWord : txn < 2 ^ 64) (real : 2 ≤ page)
    (word : page < 2 ^ 32) (coalesced : Coalesced txn (entries.map Entry.leaf))
    (fresh : ¬ Covered txn (entries.map Entry.leaf) page) :
    Ensures (addPage tree txn page) state
      (fun result reached =>
        Retires laws txn heap entries pages [page] result.1 result.2 reached)
      (RetireFails laws (txn = laws.txn ∧ Drafted laws heap entries pages)) := by
  have ordered := leaves_ordered wellFormed.sorted
  have valid := leaves_valid entries
  have absent : ∀ extent ∈ entries.map Entry.leaf, extent.key ≠ { txn, first := page } := by
    intro extent member same
    have first : extent.key.first = page := congrArg Key.first same
    refine fresh ⟨extent, member, congrArg Key.txn same, first.le, ?_⟩
    have positive := (valid extent member).some_
    simp only [Extent.past]
    omega
  obtain ⟨left, right, cut, below, above⟩ := exists_cut Extent.key ordered absent
  rw [cut] at ordered coalesced fresh valid
  have found : ∀ keep : Key → Bool,
      (entries.filter fun entry => keep entry.key).map Entry.leaf =
        (left ++ right).filter fun extent => keep extent.key := by
    intro keep
    rw [← cut, filter_map]
    congr 1
    exact filter_congr fun entry _ => by simp [entry_key]
  have lowest : (entries.filter fun entry => decide (entry.key ≤ { txn, first := page })).getLast?.map
      Entry.leaf = left.getLast? := by
    rw [← getLast?_map, found fun key => decide (key ≤ _), filter_append,
      filter_eq_self.mpr fun extent member => by simpa using (below extent member).le,
      filter_eq_nil_iff.mpr fun extent member => by simpa using above extent member,
      append_nil]
  have highest : (entries.filter fun entry => decide ({ txn, first := page } ≤ entry.key)).head?.map
      Entry.leaf = right.head? := by
    rw [← head?_map, found fun key => decide (_ ≤ key), filter_append,
      filter_eq_nil_iff.mpr fun extent member => by simpa using below extent member,
      filter_eq_self.mpr fun extent member => by simpa using (above extent member).le,
      nil_append]
  obtain ⟨before, after, previous, next, rfl, rfl, classified, isPrevious, isNext, low, high⟩ :=
    classifyNeighbors_spec below above ordered coalesced fresh fun extent member =>
      (valid extent (mem_append_right _ member)).firstWord
  have views := laws.views owns
  rw [addPage, if_neg (by omega), if_neg (by omega), ensures_bind]
  refine (predecessor_spec _ retirementCodec_lawful views wellFormed.tree wellFormed.sorted).imp ?_
  rintro _ _ ⟨rfl, rfl⟩
  refine Ensures.bind (atOrAfter_spec _ retirementCodec_lawful views wellFormed.tree
    wellFormed.sorted) ?_
  rintro _ _ ⟨rfl, rfl⟩
  rw [lowest, highest, classified, ensures_bind, ensures_liftResult_ok]
  refine (applyPage_reaches owns wellFormed counted created txnWord real word cut below above
    isPrevious isNext).imp ?_
  rintro ⟨grown, gone⟩ reached reaches
  refine ⟨_, ?_, reaches⟩
  have regroup : before ++ previous.toList ++ (next.toList ++ after) =
      before ++ (previous.toList ++ next.toList) ++ after := by simp
  rw [cut, regroup]
  rw [regroup] at coalesced
  have ends : ∀ extent ∈ previous, extent.past = page := fun extent member =>
    (isPrevious extent member).2
  have starts : ∀ extent ∈ next, extent.key.first = page + 1 := fun extent member =>
    (isNext extent member).2
  refine adds_join ?_ ?_ ?_ coalesced ?_ ?_
  · cases previous with
    | none => rfl
    | some extent => exact (isPrevious extent rfl).1
  · intro extent member
    rcases mem_append.mp member with isBefore | isAfter
    · exact (isPrevious extent (Option.mem_toList.mp isBefore)).1
    · exact (isNext extent (Option.mem_toList.mp isAfter)).1
  · refine joinPage_holds ends starts ?_ ?_
    · exact fun extent member => (valid extent (by simp [Option.mem_toList.mpr member])).some_
    · exact fun extent member => (valid extent (by simp [Option.mem_toList.mpr member])).some_
  · intro extent member same
    rw [joinPage_first]
    exact low extent member same
  · intro extent member same
    rw [joinPage_past ends starts]
    exact high extent member same

theorem Retires.refl (coalesced : Coalesced txn (entries.map Entry.leaf)) :
    Retires laws txn heap entries pages [] tree [] state := by
  refine ⟨_, Adds.refl coalesced, heap, pages, entries, ⟨owns, wellFormed, ?_, by simp⟩, counted, rfl,
    Keeps.refl⟩
  rw [append_nil]
  exact Evolves.refl wellFormed.nodup

theorem addPages_retires {added : List Nat} (created : 1 < txn) (txnWord : txn < 2 ^ 64)
    (nodup : added.Nodup) (real : ∀ page ∈ added, 2 ≤ page ∧ page < 2 ^ 32)
    (coalesced : Coalesced txn (entries.map Entry.leaf))
    (fresh : ∀ page ∈ added, ¬ Covered txn (entries.map Entry.leaf) page) :
    Ensures (addPages txn added tree) state
      (fun result reached => Retires laws txn heap entries pages added result.1 result.2 reached)
      (RetireFails laws (txn = laws.txn ∧ Drafted laws heap entries pages)) := by
  induction added generalizing state heap tree entries pages with
  | nil =>
    rw [addPages, ensures_pure]
    exact Retires.refl owns wellFormed counted coalesced
  | cons page rest ih =>
    obtain ⟨here, later⟩ := forall_mem_cons.mp real
    rw [addPages, ensures_bind]
    refine (addPage_retires owns wellFormed counted created txnWord here.1 here.2 coalesced
      (fresh page (by simp))).imp ?_
    rintro ⟨grown, gone⟩ reached ⟨extents, adds, after, kept, last, advanced, countedNow, rfl, keeps⟩
    rw [ensures_bind]
    refine (ih advanced.owns advanced.wellFormed countedNow (nodup_cons.mp nodup).2 later
      adds.coalesced (adds.still_fresh nodup fresh)).mono ?_ fun error _ failed =>
        failed.mono fun settled =>
        ⟨settled.1, keeps.drafted settled.1 settled.2⟩
    rintro ⟨final, more⟩ done retires
    rw [ensures_pure]
    exact Retires.after adds advanced keeps retires

theorem retireGenerated_retires {added : List Nat} (created : 1 < laws.txn) (nodup : added.Nodup)
    (real : ∀ page ∈ added, 2 ≤ page ∧ page < 2 ^ 32)
    (coalesced : Coalesced laws.txn (entries.map Entry.leaf))
    (drafted : Drafted laws heap entries pages)
    (guarded : added ≠ [] → Guarded laws heap entries pages)
    (fresh : ∀ page ∈ added, ¬ Covered laws.txn (entries.map Entry.leaf) page) :
    Ensures (retireGenerated laws.txn added tree) state
      (fun result reached => Retires laws laws.txn heap entries pages added result [] reached)
      (RetireFails laws True) := by
  induction added generalizing state heap tree entries pages with
  | nil =>
    rw [retireGenerated, ensures_pure]
    exact Retires.refl owns wellFormed counted coalesced
  | cons page rest ih =>
    obtain ⟨here, later⟩ := forall_mem_cons.mp real
    have guardedHere := guarded (cons_ne_nil _ _)
    rw [retireGenerated, ensures_bind]
    refine (addPage_retires owns wellFormed counted created laws.txnWord here.1 here.2 coalesced
      (fresh page (by simp))).mono ?_ fun error _ failed => failed.mono fun _ => ⟨rfl, drafted⟩
    rintro ⟨grown, nested⟩ reached ⟨extents, adds, after, kept, last, advanced, countedNow, rfl, keeps⟩
    obtain ⟨rfl, stillGuarded⟩ := keeps.quiet rfl drafted guardedHere
    simp only [ne_eq, not_true_eq_false, if_false]
    refine (ih advanced.owns advanced.wellFormed countedNow (nodup_cons.mp nodup).2 later
      adds.coalesced (keeps.drafted rfl drafted) (fun _ => stillGuarded)
      (adds.still_fresh nodup fresh)).imp ?_
    intro final done retires
    exact Retires.after adds advanced keeps retires

theorem draftTree_of_base
    (committed : ∀ address ∈ pages, ∀ page, heap address = some page → Committed laws.txn page)
    (earlier : ∀ entry ∈ entries, entry.key.txn < laws.txn) :
    DraftTree laws heap tree entries pages := by
  have foreign : ∀ extent ∈ entries.map Entry.leaf, extent.key.txn ≠ laws.txn := by
    intro extent member
    obtain ⟨entry, inEntries, rfl⟩ := mem_map.mp member
    rw [← entry_key]
    exact (earlier entry inEntries).ne
  refine ⟨wellFormed, counted, ?_, ⟨fun entry member => (earlier entry member).le, ?_, ?_⟩, ?_⟩
  · refine (leaves_ordered wellFormed.sorted).imp_of_mem ?_
    exact fun member _ _ same _ => absurd same (foreign _ member)
  · intro address member born records stored _ record inRecords
    rcases wellFormed.tree with ⟨-, -, rfl⟩ | ⟨height, node, -, whole, -, rfl, rfl⟩
    · cases member
    · exact earlier record (whole.leaf_entries member stored record inRecords)
  · intro address member born level cells stored _ cell inCells child read
    rcases wellFormed.tree with ⟨-, -, rfl⟩ | ⟨height, node, -, whole, -, -, rfl⟩
    · cases member
    · have inside := whole.child_inside retirementCodec_lawful (fun _ _ shown => laws.word owns shown)
        member stored inCells read
      obtain ⟨page, shown⟩ := Option.ne_none_iff_exists'.mp (whole.held child inside)
      exact ⟨page, shown, committed child inside page shown⟩
  · rintro address - page - - ⟨extent, member, own, -⟩
    exact foreign extent member own

end Standing

variable (laws) in
structure Retirable (heap : Heap) (entries : List (Entry retirementCodec)) (pages : List Nat)
    (page : Nat) : Prop where
  real : 2 ≤ page
  word : page < 2 ^ 32
  fresh : ¬ Covered laws.txn (entries.map Entry.leaf) page
  outside : page ∈ pages → ∀ content, heap page = some content → ¬ Committed laws.txn content

section Draft

variable {after : Heap} {kept gone added : List Nat} {last : List (Entry retirementCodec)}
  {next : Tree} {reached : σ} {page : Nat}

theorem DraftTree.advanced (draft : DraftTree laws heap tree entries pages)
    (outside : page ∈ pages → ∀ content, heap page = some content → ¬ Committed laws.txn content)
    (adds : Adds laws.txn (page :: gone) (entries.map Entry.leaf) (last.map Entry.leaf))
    (advanced : Advanced laws heap pages after last kept gone next.root reached)
    (keeps : Keeps laws laws.txn heap entries pages after last kept gone)
    (counted : next.extentCount = last.length) : DraftTree laws after next last kept := by
  refine ⟨advanced.wellFormed, counted, adds.coalesced, keeps.drafted rfl draft.drafted, ?_⟩
  intro address member content stored old covered
  obtain ⟨inPages, was⟩ :=
    advanced.moves.origin address content (mem_append_left _ member) stored old
  rcases (adds.covered address).mp covered with already | isAdded
  · exact draft.unretired address inPages content was old already
  · rcases mem_cons.mp isAdded with rfl | isGone
    · exact outside inPages content was old
    · exact (nodup_append.mp advanced.moves.nodup).2.2 address member address isGone rfl

theorem Retirable.advanced {other : Nat} (retirable : Retirable laws heap entries pages other)
    (apart : other ≠ page)
    (adds : Adds laws.txn (page :: gone) (entries.map Entry.leaf) (last.map Entry.leaf))
    (advanced : Advanced laws heap pages after last kept gone next.root reached) :
    Retirable laws after last kept other := by
  refine ⟨retirable.real, retirable.word, ?_, ?_⟩
  · intro covered
    rcases (adds.covered other).mp covered with already | isAdded
    · exact retirable.fresh already
    · rcases mem_cons.mp isAdded with same | isGone
      · exact apart same
      · obtain ⟨inPages, content, stored, old⟩ := advanced.committed other isGone
        exact retirable.outside inPages content stored old
  · intro inKept content stored old
    obtain ⟨inPages, was⟩ :=
      advanced.moves.origin other content (mem_append_left _ inKept) stored old
    exact retirable.outside inPages content was old

end Draft

section Generated

variable {page : Nat} (owns : laws.Owns state heap)
  (draft : DraftTree laws heap tree entries pages) (created : 1 < laws.txn)
  (retirable : Retirable laws heap entries pages page)

include owns draft created retirable

theorem addPage_generates :
    Ensures (addPage tree laws.txn page) state
      (fun result reached => ∃ after kept, ∃ last : List (Entry retirementCodec),
        Adds laws.txn [page] (entries.map Entry.leaf) (last.map Entry.leaf) ∧
        Advanced laws heap pages after last kept result.2 result.1.root reached ∧
        result.1.extentCount = last.length ∧
        Keeps laws laws.txn heap entries pages after last kept result.2 ∧ result.2.Nodup ∧
        (∀ other ∈ result.2, 2 ≤ other ∧ other < 2 ^ 32) ∧
        ∀ other ∈ result.2, ¬ Covered laws.txn (last.map Entry.leaf) other)
      (RetireFails laws True) := by
  refine (addPage_retires owns draft.wellFormed draft.counted created laws.txnWord retirable.real
    retirable.word draft.coalesced retirable.fresh).mono ?_ fun error _ failed => failed.mono fun _ =>
      ⟨rfl, draft.drafted⟩
  rintro ⟨grown, gone⟩ reached ⟨extents, adds, after, kept, last, advanced, counted, rfl, keeps⟩
  refine ⟨after, kept, last, adds, advanced, counted, keeps,
    (nodup_append.mp advanced.moves.nodup).2.1, ?_, ?_⟩
  · intro other member
    obtain ⟨-, content, stored, -⟩ := advanced.committed other member
    exact ⟨(laws.bounds owns stored).1, laws.word owns stored⟩
  · intro other member covered
    obtain ⟨inPages, content, stored, old⟩ := advanced.committed other member
    rcases (adds.covered other).mp covered with already | isPage
    · exact draft.unretired other inPages content stored old already
    · rw [mem_singleton.mp isPage] at inPages stored
      exact retirable.outside inPages content stored old

theorem nested_quiet :
    Ensures (addPage tree laws.txn page >>= fun result => addPages laws.txn result.2 result.1) state
      (fun result _ => result.2 = []) (RetireFails laws True) := by
  refine Ensures.bind (addPage_generates owns draft created retirable) ?_
  rintro ⟨grown, gone⟩ reached
    ⟨after, kept, last, adds, advanced, counted, keeps, nodup, real, fresh⟩
  by_cases none : gone = []
  · simp only [none, addPages, ensures_pure]
  · have stillDrafted := keeps.drafted rfl draft.drafted
    refine (addPages_retires advanced.owns advanced.wellFormed counted created laws.txnWord nodup
      real adds.coalesced fresh).mono ?_ fun error _ failed => failed.mono fun _ => ⟨rfl, stillDrafted⟩
    intro result done retires
    exact retires.quiet stillDrafted (keeps.guards rfl draft.drafted none)

theorem retireOne_retires :
    Ensures (retireOne tree page) state
      (fun next reached => ∃ after kept gone, ∃ last : List (Entry retirementCodec),
        Advanced laws heap pages after last kept gone next.root reached ∧
        DraftTree laws after next last kept ∧
        Adds laws.txn (page :: gone) (entries.map Entry.leaf) (last.map Entry.leaf))
      (RetireFails laws True) := by
  rw [retireOne, ensures_bind, ensures_get, laws.target owns]
  refine Ensures.bind (addPage_generates owns draft created retirable) ?_
  rintro ⟨grown, gone⟩ reached
    ⟨after, kept, last, adds, advanced, counted, keeps, nodup, real, fresh⟩
  refine (retireGenerated_retires advanced.owns advanced.wellFormed counted created nodup real
    adds.coalesced (keeps.drafted rfl draft.drafted) (keeps.guards rfl draft.drafted) fresh).imp ?_
  rintro next done ⟨extents, addsMore, final, held, records, further, countedNow, rfl, keepsOn⟩
  have whole := advanced.trans laws further
  have keepsWhole := keeps.trans keepsOn
  rw [append_nil] at whole keepsWhole
  have both : Adds laws.txn (page :: gone) (entries.map Entry.leaf) (records.map Entry.leaf) :=
    adds.trans addsMore
  exact ⟨final, held, gone, records, whole,
    draft.advanced retirable.outside both whole keepsWhole countedNow, both⟩

end Generated

theorem retireEach_retires (owns : laws.Owns state heap)
    (draft : DraftTree laws heap tree entries pages) (created : 1 < laws.txn) (nodup : added.Nodup)
    (retirable : ∀ page ∈ added, Retirable laws heap entries pages page) :
    Ensures (retireEach added tree) state
      (fun next reached => ∃ after kept gone, ∃ last : List (Entry retirementCodec),
        Advanced laws heap pages after last kept gone next.root reached ∧
        DraftTree laws after next last kept ∧
        Adds laws.txn (added ++ gone) (entries.map Entry.leaf) (last.map Entry.leaf))
      (RetireFails laws True) := by
  induction added generalizing state heap tree entries pages with
  | nil =>
    rw [retireEach, ensures_pure]
    refine ⟨heap, pages, [], entries, ⟨owns, draft.wellFormed, ?_, by simp⟩, draft,
      Adds.refl draft.coalesced⟩
    rw [append_nil]
    exact Evolves.refl draft.wellFormed.nodup
  | cons page rest ih =>
    obtain ⟨outside, restNodup⟩ := nodup_cons.mp nodup
    rw [retireEach, ensures_bind]
    refine (retireOne_retires owns draft created (retirable page (by simp))).imp ?_
    rintro middle reached ⟨after, kept, gone, last, advanced, stillDraft, adds⟩
    have stillRetirable : ∀ other ∈ rest, Retirable laws after last kept other := by
      intro other member
      have apart : other ≠ page := fun same => outside (same ▸ member)
      exact (retirable other (mem_cons_of_mem _ member)).advanced apart adds advanced
    refine (ih advanced.owns stillDraft restNodup stillRetirable).imp ?_
    rintro final done ⟨latest, held, later, records, further, finalDraft, addsMore⟩
    refine ⟨latest, held, gone ++ later, records, advanced.trans laws further, finalDraft, ?_⟩
    refine (adds.trans addsMore).congr fun address => ?_
    simp only [mem_append, mem_cons]
    tauto

end Calls

section Runs

variable {laws} {heap : Heap} {state : σ}

/-- Pages retired under one transaction, in any order: its extents are the maximal runs of
the pages it retired, those of other transactions are untouched, and the count is the
number of records. In a draft, each retired page may make the tree replace pages of its
own, and retiring those replaces no further one. -/
theorem retired_pages_form_maximal_runs (owns : laws.Owns state heap) :
    (∀ (txn : Nat) (tree : Tree) (entries : List (Entry retirementCodec)) (pages added : List Nat),
      1 < txn → txn < 2 ^ 64 → added.Nodup → (∀ page ∈ added, 2 ≤ page ∧ page < 2 ^ 32) →
      WellFormed laws heap tree.root entries pages → tree.extentCount = entries.length →
      Coalesced txn (entries.map Entry.leaf) →
      (∀ page ∈ added, ¬ Covered txn (entries.map Entry.leaf) page) →
      Ensures (addPages txn added tree) state
        (fun result reached => ∃ after kept, ∃ last : List (Entry retirementCodec),
          laws.Owns reached after ∧ WellFormed laws after result.1.root last kept ∧
          result.1.extentCount = last.length ∧
          Adds txn added (entries.map Entry.leaf) (last.map Entry.leaf))
        (RetireFails laws (txn = laws.txn ∧ Drafted laws heap entries pages))) ∧
    ∀ (tree : Tree) (entries : List (Entry retirementCodec)) (pages : List Nat),
      1 < laws.txn → DraftTree laws heap tree entries pages →
      (∀ page, Retirable laws heap entries pages page →
        Ensures (addPage tree laws.txn page >>= fun result =>
          addPages laws.txn result.2 result.1) state
          (fun result _ => result.2 = []) (RetireFails laws True)) ∧
      ∀ added : List Nat, added.Nodup →
        (∀ page ∈ added, Retirable laws heap entries pages page) →
        Ensures (retireEach added tree) state
          (fun next reached => ∃ after kept gone, ∃ last : List (Entry retirementCodec),
            laws.Owns reached after ∧ DraftTree laws after next last kept ∧
            Adds laws.txn (added ++ gone) (entries.map Entry.leaf) (last.map Entry.leaf) ∧
            ∀ address ∈ gone, address ∈ pages ∧ address ∉ kept)
          (RetireFails laws True) := by
  refine ⟨?_, ?_⟩
  · intro txn tree entries pages added created txnWord nodup real wellFormed counted coalesced fresh
    refine (addPages_retires owns wellFormed counted created txnWord nodup real coalesced fresh).imp ?_
    rintro ⟨next, gone⟩ reached ⟨extents, adds, after, kept, last, advanced, countedNow, rfl, -⟩
    exact ⟨after, kept, last, advanced.owns, advanced.wellFormed, countedNow, adds⟩
  · intro tree entries pages created draft
    refine ⟨fun page retirable => nested_quiet owns draft created retirable, ?_⟩
    intro added nodup retirable
    refine (retireEach_retires owns draft created nodup retirable).imp ?_
    rintro next reached ⟨after, kept, gone, last, advanced, stillDraft, adds⟩
    refine ⟨after, kept, gone, last, advanced.owns, stillDraft, adds, fun address member => ?_⟩
    refine ⟨(advanced.committed address member).1, fun inKept => ?_⟩
    exact (nodup_append.mp advanced.moves.nodup).2.2 address inKept address member rfl

def sampleExtent : Extent := { key := { txn := 3, first := 5 }, count := 2 }

theorem sampleExtent_valid : sampleExtent.Valid :=
  ⟨by decide, by decide, by decide, by decide, by decide⟩

def sampleEntries : List (Entry retirementCodec) := [sampleExtent.entry sampleExtent_valid]

def sampleHeap : Heap := fun address =>
  if address = 2 then some (treePage retirementCodec 3 0 (sampleEntries.map Entry.cell)) else none

def sampleWorkspace : Workspace where
  mapping address := (sampleHeap address).getD default
  first := 2
  limit := 64
  next := 3
  free := 0
  txn := 7

def sampleTree : Tree := { root := 2, extentCount := 1 }

theorem sample_held {address : Nat} {page : Page} (stored : sampleHeap address = some page) :
    address = 2 ∧ page = treePage retirementCodec 3 0 (sampleEntries.map Entry.cell) := by
  obtain ⟨two, same⟩ := Option.ite_none_right_eq_some.mp stored
  exact ⟨two, (Option.some.inj same).symm⟩

theorem sample_owned : Workspace.Holds 7 sampleWorkspace sampleHeap := by
  refine Workspace.Holds.of_heap (by decide) (by decide) (by decide) fun address page stored => ?_
  obtain ⟨rfl, -⟩ := sample_held stored
  decide

theorem sample_draft : DraftTree (Workspace.laws 7 (by decide) (by decide)) sampleHeap sampleTree
    sampleEntries [2] := by
  refine draftTree_of_base sample_owned ⟨Or.inr ⟨0, leafNode 2 sampleEntries (by decide), by decide,
    ⟨rfl, 3, ?_⟩, rfl, rfl, rfl⟩, by decide, by decide⟩ rfl ?_ (by decide)
  · exact ⟨by decide, by decide, ⟨by decide, by decide +kernel, by decide +kernel⟩, rfl⟩
  · intro address member page stored
    rw [(sample_held stored).2]
    exact (by decide : (3 : Nat) ≠ 7)

theorem sample_retirable (page : Nat) (real : 2 < page) (word : page < 2 ^ 32) :
    Retirable (Workspace.laws 7 (by decide) (by decide)) sampleHeap sampleEntries [2] page := by
  refine ⟨real.le, word, ?_, fun member => absurd (mem_singleton.mp member) (by omega)⟩
  rintro ⟨extent, member, own, -⟩
  rw [mem_singleton.mp member] at own
  exact absurd own (by decide)

theorem retired_pages_form_maximal_runs_sample : ∃ next reached,
    retireEach [20, 21, 19, 23, 22] sampleTree sampleWorkspace = .ok next reached ∧
      next = { root := 3, extentCount := 3 } ∧ ∃ after kept gone,
      ∃ last : List (Entry retirementCodec),
        DraftTree (Workspace.laws 7 (by decide) (by decide)) after next last kept ∧
        Adds 7 ([20, 21, 19, 23, 22] ++ gone) (sampleEntries.map Entry.leaf) (last.map Entry.leaf) := by
  have spec := ((retired_pages_form_maximal_runs sample_owned).2 sampleTree sampleEntries [2]
    (by decide) sample_draft).2 [20, 21, 19, 23, 22] (by decide) (by
      intro page member
      simp only [mem_cons, not_mem_nil, or_false] at member
      exact sample_retirable page (by omega) (by omega))
  have run : observed (fun next _ => next)
      (retireEach [20, 21, 19, 23, 22] sampleTree sampleWorkspace) =
      some { root := 3, extentCount := 3 } := by decide +kernel
  obtain ⟨next, reached, outcome, rfl⟩ := exists_ok_of_observed run
  obtain ⟨after, kept, gone, last, -, draft, adds, -⟩ := spec.ok outcome
  exact ⟨_, _, outcome, rfl, after, kept, gone, last, draft, adds⟩

end Runs

end IpRange.Retirement
