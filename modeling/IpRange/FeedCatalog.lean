import IpRange.FeedCatalogCore
import IpRange.WorkspaceRanges

/-!
The two trees of the feed catalog hold the same feeds. Renaming one replaces its
record in both, and succeeds exactly when the page of the index tree that stores
the feed has room for the longer record.
-/

namespace IpRange

open List SlottedPage

namespace FeedName

theorem length_pos (name : FeedName) : 0 < name.asBytes.length := by
  obtain ⟨bytes, valid⟩ := name
  cases bytes with
  | nil => cases valid
  | cons first rest => exact Nat.succ_pos _

theorem length_le (name : FeedName) : name.asBytes.length ≤ maxFeedName := by
  obtain ⟨bytes, valid⟩ := name
  cases bytes with
  | nil => cases valid
  | cons first rest =>
    rw [validName] at valid
    split at valid
    · cases valid
    · rename_i short
      simp only [Bool.or_eq_true, decide_eq_true_eq, not_or, Nat.not_lt] at short
      exact short.1

theorem fromSource_append (head : Bytes) (name : FeedName) :
    fromSource (head ++ name.asBytes) head.length name.asBytes.length = some name := by
  have positive := name.length_pos
  have short := name.length_le
  have checks : (decide (name.asBytes.length = 0) || decide (maxFeedName < name.asBytes.length) ||
      decide ((head ++ name.asBytes).length < head.length + name.asBytes.length)) = false := by
    simp only [Bool.or_eq_false_iff, decide_eq_false_iff_not, length_append]
    omega
  rw [fromSource, checks, if_neg Bool.false_ne_true, drop_left, take_length, fromStored,
    dif_pos name.valid]

end FeedName

namespace FeedCatalog

open FixedTree

section Codecs

variable (name : FeedName) (value : Nat)

@[simp] theorem encode_length : (encode name value).length = nameRecordBase + name.asBytes.length := by
  simp only [encode, length_append, toLeBytes_length, length_cons, length_nil,
    nameRecordBase]

theorem leField_encode_length :
    leField (encode name value) 0 2 = nameRecordBase + name.asBytes.length := by
  have short := name.length_le
  simp only [encode, append_assoc]
  exact leField_toLeBytes 2 _ _ (by simp only [maxFeedName, nameRecordBase] at *; omega)

theorem leField_encode_value (word : value < 2 ^ 32) : leField (encode name value) 4 4 = value := by
  have skip := leField_append_right (toLeBytes 2 (nameRecordBase + name.asBytes.length) ++ [0, 0])
    (toLeBytes 4 value ++ ([UInt8.ofNat name.asBytes.length, 0, 0, 0] ++ name.asBytes)) 0 4
  rw [leField_toLeBytes 4 value _ word] at skip
  simpa [encode] using skip

theorem decodeEntry_encode (word : value < 2 ^ 32) :
    decodeEntry (encode name value) = .ok { name, index := ⟨value, word⟩ } := by
  have short := name.length_le
  have nameLen : (encode name value)[8]? = some (UInt8.ofNat name.asBytes.length) := rfl
  have length : (UInt8.ofNat name.asBytes.length).toNat = name.asBytes.length :=
    Nat.mod_eq_of_lt (by simp only [maxFeedName] at short; omega)
  have zeros : leField (encode name value) 2 2 = 0 := rfl
  have reserved : ((encode name value).drop 9).take 3 = [0, 0, 0] := rfl
  have stored := FeedName.fromSource_append (toLeBytes 2 (nameRecordBase + name.asBytes.length) ++
    [0, 0] ++ toLeBytes 4 value ++ [UInt8.ofNat name.asBytes.length, 0, 0, 0]) name
  have read : FeedName.fromSource (encode name value) nameRecordBase name.asBytes.length =
      some name := stored
  simp only [decodeEntry, nameLen, length, leField_encode_length, zeros, reserved, read,
    leField_encode_value name value word]
  simpa [Fin.ofNat] using word

theorem encode_laidOut :
    (CellLayout.varying minNameRecord maxNameRecord).Accepts (encode name value) := by
  have positive := name.length_pos
  have short := name.length_le
  refine ⟨by rw [leField_encode_length, encode_length], ?_, ?_⟩
  · rw [encode_length, minNameRecord]
    omega
  · rw [encode_length, maxNameRecord]
    omega

theorem encode_ne_nil : encode name value ≠ [] := by
  intro none
  have empty := congrArg List.length none
  rw [encode_length] at empty
  exact absurd empty (by simp [nameRecordBase])

theorem encode_bounded : (encode name value).length ≤ maxNameRecord := by
  rw [encode_length]
  exact Nat.add_le_add_left name.length_le _

theorem nameCodec_lawful : LawfulCodec nameCodec := by
  refine ⟨by decide, ?_, by decide, by decide, ?_, ?_⟩
  · intro cell leaf _ _ decoded
    exact ⟨leaf.name, by rw [nameCodec]; exact congrArg (Functor.map FeedEntry.name) decoded⟩
  · intro entry child word
    have decoded := decodeEntry_encode entry.key child word
    refine ⟨encode entry.key child, rfl, encode_ne_nil _ _, encode_bounded _ _,
      encode_laidOut _ _, ?_, ?_⟩
    · intro level _
      simp only [nameCodec, decoded]
      rfl
    · simp only [nameCodec, decoded]
      rfl
  · rintro entry first second left right ⟨⟩ ⟨⟩
    rw [encode_length, encode_length]

theorem indexCodec_lawful : LawfulCodec indexCodec := by
  refine ⟨by decide, fun _ _ _ _ _ => ⟨_, rfl⟩, by decide, fun _ _ => rfl, ?_, ?_⟩
  · intro entry child word
    have length : (toLeBytes 4 entry.key.val).length = 4 := toLeBytes_length _ _
    refine ⟨_, rfl, ?_, ?_, ?_, ?_, ?_⟩
    · intro none
      have empty := congrArg List.length none
      simp at empty
    · simp [indexCodec]
    · simp [indexCodec, CellLayout.Accepts]
    · intro level branch
      have read := leField_toLeBytes 4 entry.key.val (toLeBytes 4 child) entry.key.isLt
      simp only [indexCodec, if_neg branch, read]
      exact congrArg Except.ok (Fin.ofNat_val_eq_self _)
    · have read := readFixedChild_append (toLeBytes 4 entry.key.val) child word
      rw [length] at read
      exact read
  · rintro entry first second left right ⟨⟩ ⟨⟩
    simp

end Codecs

def nameEntry (feed : FeedEntry) : Entry nameCodec where
  cell := encode feed.name feed.index
  key := feed.name
  leaf := feed
  present := encode_ne_nil _ _
  bounded := encode_bounded _ _
  layout := encode_laidOut _ _
  keyRead := by
    simp only [nameCodec, decodeEntry_encode feed.name feed.index feed.index.isLt]
    rfl
  leafRead := decodeEntry_encode feed.name feed.index feed.index.isLt

def indexEntry (feed : FeedEntry) : Entry indexCodec where
  cell := encode feed.name feed.index
  key := feed.index
  leaf := feed
  present := encode_ne_nil _ _
  bounded := encode_bounded _ _
  layout := encode_laidOut _ _
  keyRead := by
    simp only [indexCodec, if_true, leField_encode_value feed.name feed.index feed.index.isLt]
    exact congrArg Except.ok (Fin.ofNat_val_eq_self _)
  leafRead := decodeEntry_encode feed.name feed.index feed.index.isLt

theorem name_key (entry : Entry nameCodec) : entry.key = entry.leaf.name := by
  have decoded : nameCodec.readKey entry.cell 0 = .ok entry.leaf.name :=
    congrArg (Functor.map FeedEntry.name) entry.leafRead
  exact Except.ok.inj (entry.keyRead.symm.trans decoded)

theorem index_key (entry : Entry indexCodec) : entry.key = entry.leaf.index := by
  have read := Except.ok.inj entry.keyRead
  have decoded : decodeEntry entry.cell = .ok entry.leaf := entry.leafRead
  rw [← read]
  unfold decodeEntry at decoded
  split at decoded
  · cases decoded
  · split at decoded
    · cases decoded
    · split at decoded
      · cases decoded
      · rw [← Except.ok.inj decoded]
        rfl

section Keyed

variable {Key Leaf : Type} {codec : Codec Key Leaf} {keyOf : Leaf → Key}
  {entries : List (Entry codec)}

variable {key : Key} {leaf : Leaf}

section

variable (keyed : ∀ entry : Entry codec, entry.key = keyOf entry.leaf)

include keyed

theorem mem_items :
    (key, leaf) ∈ entries.map Entry.item ↔ key = keyOf leaf ∧ leaf ∈ entries.map Entry.leaf := by
  simp only [mem_map, Entry.item, Prod.mk.injEq]
  constructor
  · rintro ⟨entry, member, rfl, rfl⟩
    exact ⟨keyed entry, entry, member, rfl⟩
  · rintro ⟨rfl, entry, member, rfl⟩
    exact ⟨entry, member, keyed entry, rfl⟩

theorem mem_keys :
    key ∈ entries.map Entry.key ↔ ∃ leaf ∈ entries.map Entry.leaf, keyOf leaf = key := by
  simp only [mem_map, exists_exists_and_eq_and, keyed]

theorem leaf_unique [LinearOrder Key]
    (sorted : KeysSorted entries) {other : Leaf} (member : leaf ∈ entries.map Entry.leaf)
    (also : other ∈ entries.map Entry.leaf) (same : keyOf leaf = keyOf other) : leaf = other := by
  obtain ⟨left, inLeft, rfl⟩ := mem_map.mp member
  obtain ⟨right, inRight, rfl⟩ := mem_map.mp also
  rw [← keyed, ← keyed] at same
  rw [sorted.eq_of_key inLeft inRight same]

theorem leaf_mem_splice [LinearOrder Key] {old : List (Entry codec)} {new : List (Key × Leaf)}
    (spliced : entries.map Entry.item = splice key new (old.map Entry.item)) :
    leaf ∈ entries.map Entry.leaf ↔
      (keyOf leaf, leaf) ∈ new ∨ leaf ∈ old.map Entry.leaf ∧ keyOf leaf ≠ key := by
  have item : (keyOf leaf, leaf) ∈ entries.map Entry.item ↔ leaf ∈ entries.map Entry.leaf := by
    simp [mem_items keyed]
  rw [← item, spliced, mem_splice, mem_items keyed]
  simp

end

end Keyed

section Healthy

variable {σ : Type} [RetiringStore σ] {laws : RetiringLaws σ}

structure Catalog (laws : RetiringLaws σ) where
  draft : Draft σ
  heap : Heap
  names : List (Entry nameCodec)
  indexes : List (Entry indexCodec)
  namePages : List Nat
  indexPages : List Nat
  owns : laws.Owns draft.store heap
  nameTree : WellFormed laws.toStoreLaws heap draft.roots.name names namePages
  indexTree : WellFormed laws.toStoreLaws heap draft.roots.index indexes indexPages
  apart : ∀ address ∈ indexPages, address ∉ namePages
  same : ∀ feed, feed ∈ names.map Entry.leaf ↔ feed ∈ indexes.map Entry.leaf
  limited : ∀ feed ∈ names.map Entry.leaf, feed.index.val < draft.feedIndexLimit

namespace Catalog

def feeds (catalog : Catalog laws) : Set FeedEntry := {feed | feed ∈ catalog.names.map Entry.leaf}

theorem name_unique (catalog : Catalog laws) {feed other : FeedEntry} (member : feed ∈ catalog.feeds)
    (also : other ∈ catalog.feeds) (same : feed.name = other.name) : feed = other :=
  leaf_unique name_key catalog.nameTree.sorted member also same

theorem index_unique (catalog : Catalog laws) {feed other : FeedEntry}
    (member : feed ∈ catalog.feeds) (also : other ∈ catalog.feeds)
    (same : feed.index = other.index) : feed = other :=
  leaf_unique index_key catalog.indexTree.sorted ((catalog.same feed).mp member)
    ((catalog.same other).mp also) same

end Catalog

theorem inspectFeed_answers (feedIndexLimit : Nat) (name : FeedName) :
    Answers nameCodec name (inspectFeed feedIndexLimit) fun found =>
      match found with
      | none => .ok none
      | some entry => if feedIndexLimit ≤ entry.leaf.index.val then
          .error (.corrupt "feed index is outside the declared limit") else .ok (some entry.leaf) := by
  refine ⟨rfl, ?_⟩
  intro born number smaller larger
  cases larger with
  | nil => rfl
  | cons first rest =>
    by_cases here : first.key = name
    · have read := codecCell_treePage born 0 ((smaller ++ first :: rest).map Entry.cell)
        smaller.length (by simp) (entries_readable _)
      have stored : layoutCell nameCodec.leafLayout
          (treePage nameCodec born 0 ((smaller ++ first :: rest).map Entry.cell))
          (filledHeader 0 ((smaller ++ first :: rest).map Entry.cell)) smaller.length =
          .ok first.cell := by
        simpa [codecCell] using read
      have decoded : decodeEntry first.cell = .ok first.leaf := first.leafRead
      simp only [head?_cons, Option.map_some, here, decide_true, inspectFeed, Bool.not_true,
        Bool.false_eq_true, if_false, decodeLeaf, stored, decoded, bind, Except.bind,
        Option.filter_some, if_true]
      split <;> rfl
    · simp [inspectFeed, here, Option.filter]

theorem lookup_spec (catalog : Catalog laws) (name : FeedName) :
    lookup catalog.draft.store catalog.draft.roots catalog.draft.feedIndexLimit name =
      .ok ((catalog.names.find? fun entry => entry.key = name).map Entry.leaf) := by
  rw [lookup, query_spec nameCodec_lawful (laws.views catalog.owns)
    (inspectFeed_answers _ name) catalog.nameTree.tree catalog.nameTree.sorted]
  cases found : catalog.names.find? fun entry => decide (entry.key = name) with
  | none => rfl
  | some entry =>
    have limited := catalog.limited entry.leaf (mem_map_of_mem (mem_of_find?_eq_some found))
    simp [Nat.not_le.mpr limited]

/-- Those of the store, and trees of the greatest height: a feed record splits any page. -/
abbrev CapacityFails (laws : RetiringLaws σ) : Error → σ → Prop := StretchFails laws.toStoreLaws False

def Catalog.HasRoom (catalog : Catalog laws) (renamed : FeedEntry) : Prop :=
  FixedTree.HasRoom catalog.heap catalog.indexPages (indexEntry renamed)

variable {renamed : FeedEntry}

theorem rename_spec (catalog : Catalog laws) {old : FeedEntry} (member : old ∈ catalog.feeds)
    (unused : ∀ feed ∈ catalog.feeds, feed.name ≠ renamed.name) (index : renamed.index = old.index) :
    Ensures (rename catalog.draft.roots old renamed.name) catalog.draft.store
      (fun roots reached => catalog.HasRoom renamed ∧ ∀ changed, ∃ after : Catalog laws,
        after.draft = { catalog.draft with store := reached, roots, changed } ∧
        after.feeds = {feed | feed = renamed ∨ feed ∈ catalog.feeds ∧ feed ≠ old})
      (fun error reached => CapacityFails laws error reached ∨
        ¬ catalog.HasRoom renamed ∧ error = .corrupt "renamed feed index was missing") := by
  have oldName : old.name ∈ catalog.names.map Entry.key :=
    (mem_keys name_key).mpr ⟨old, member, rfl⟩
  have oldIndex : renamed.index ∈ catalog.indexes.map Entry.key :=
    (mem_keys index_key).mpr ⟨old, (catalog.same old).mp member, index.symm⟩
  simp only [rename, ← index]
  rw [ensures_bind]
  refine (deleteRetiring_beside nameCodec_lawful oldName catalog.owns catalog.nameTree
    fun _ => rfl).impOr ?_
  rintro nameRoot reached ⟨heap, names, pages, owns, tree, removed, framed⟩
  rw [ensures_bind]
  refine (insertRetiring_beside nameCodec_lawful (nameEntry renamed) owns tree framed).mono ?_
    fun error _ failed => Or.inl (failed.imp fun bulky => absurd bulky.long (by decide))
  rintro ⟨added, nameTop⟩ next ⟨addedIff, heapNext, namesNext, pagesNext, ownsNext, treeNext, inserted,
    framedNext⟩
  have fresh : renamed.name ∉ names.map Entry.key := by
    rw [mem_keys name_key]
    rintro ⟨feed, inNames, taken⟩
    have stored := (leaf_mem_splice name_key removed).mp inNames
    simp only [not_mem_nil, false_or] at stored
    exact unused feed stored.1 taken
  obtain rfl : added = true := addedIff.mpr (Or.inl fresh)
  simp only [Bool.not_true, Bool.false_eq_true, if_false]
  have kept := held_beside (fun _ => rfl) framedNext catalog.indexTree catalog.apart
  have indexKept := catalog.indexTree.congr fun address inIndex => (kept address inIndex).1
  rw [ensures_bind]
  refine (insertRetiring_beside indexCodec_lawful (indexEntry renamed) ownsNext indexKept
    fun _ => rfl).mono ?_ fun error _ failed =>
      Or.inl (failed.imp fun bulky => absurd bulky.long (by decide))
  rintro ⟨split, indexTop⟩ last ⟨splitIff, heapLast, indexes, indexPages, ownsLast, indexTree,
    replaced, framedLast⟩
  have full : split = true ↔ ¬ catalog.HasRoom renamed := by
    rw [splitIff, HasRoom.congr fun address inIndex => (kept address inIndex).1]
    exact or_iff_right fun missing => missing oldIndex
  cases split with
  | true => exact Or.inr ⟨full.mp rfl, rfl⟩
  | false =>
    have room : catalog.HasRoom renamed := by
      by_contra none
      cases full.mpr none
    refine ⟨room, fun changed => ?_⟩
    have apart : ∀ address ∈ pagesNext, address ∉ catalog.indexPages :=
      fun address inNames inIndex => (kept address inIndex).2 inNames
    have keptNames := held_beside (fun _ => rfl) framedLast treeNext apart
    -- both trees now hold the renamed feed and the other ones
    have inNames : ∀ feed, feed ∈ namesNext.map Entry.leaf ↔
        feed = renamed ∨ feed ∈ catalog.feeds ∧ feed ≠ old := by
      intro feed
      rw [leaf_mem_splice name_key inserted, leaf_mem_splice name_key removed]
      simp only [mem_singleton, Entry.item, nameEntry, Prod.mk.injEq, not_mem_nil,
        false_or]
      constructor
      · rintro (⟨-, rfl⟩ | ⟨⟨stored, other⟩, -⟩)
        · exact Or.inl rfl
        · exact Or.inr ⟨stored, fun same => other (by rw [same])⟩
      · rintro (rfl | ⟨stored, other⟩)
        · exact Or.inl ⟨rfl, rfl⟩
        · exact Or.inr ⟨⟨stored, fun same => other (catalog.name_unique stored member same)⟩,
            unused feed stored⟩
    have inIndexes : ∀ feed, feed ∈ indexes.map Entry.leaf ↔
        feed = renamed ∨ feed ∈ catalog.feeds ∧ feed ≠ old := by
      intro feed
      rw [leaf_mem_splice index_key replaced, ← catalog.same]
      simp only [mem_singleton, Entry.item, indexEntry, Prod.mk.injEq]
      constructor
      · rintro (⟨-, rfl⟩ | ⟨stored, other⟩)
        · exact Or.inl rfl
        · exact Or.inr ⟨stored, fun same => other (by rw [same, index])⟩
      · rintro (rfl | ⟨stored, other⟩)
        · exact Or.inl ⟨rfl, rfl⟩
        · exact Or.inr ⟨stored, fun same =>
            other (catalog.index_unique stored member (same.trans index))⟩
    refine ⟨⟨_, heapLast, namesNext, indexes, pagesNext, indexPages, ownsLast,
      treeNext.congr fun address inTree => (keptNames address inTree).1, indexTree,
      fun address inIndex inTree => (keptNames address inTree).2 inIndex,
      fun feed => (inNames feed).trans (inIndexes feed).symm, ?_⟩, rfl, Set.ext inNames⟩
    intro feed stored
    rcases (inNames feed).mp stored with rfl | ⟨before, -⟩
    · rw [index]
      exact catalog.limited old member
    · exact catalog.limited feed before

theorem renameCurrentFeed_spec (catalog : Catalog laws) {old : FeedEntry}
    (member : old ∈ catalog.feeds) (unused : ∀ feed ∈ catalog.feeds, feed.name ≠ renamed.name)
    (index : renamed.index = old.index) :
    Ensures (renameCurrentFeed old renamed.name) catalog.draft
      (fun result reached => catalog.HasRoom renamed ∧ result = renamed ∧
        ∃ after : Catalog laws, after.draft = reached ∧ reached.changed = true ∧
        after.feeds = {feed | feed = renamed ∨ feed ∈ catalog.feeds ∧ feed ≠ old})
      (fun error reached => CapacityFails laws error reached.store ∨
        ¬ catalog.HasRoom renamed ∧ error = .corrupt "renamed feed index was missing") := by
  have absent : catalog.names.find? (fun entry => entry.key = renamed.name) = none :=
    find_none fun entry stored taken => unused entry.leaf (mem_map_of_mem stored)
      ((name_key entry).symm.trans taken)
  simp only [renameCurrentFeed, renameCurrentFeedKnownAvailable, ensures_bind, ensures_get,
    lookup_spec, absent, Option.map_none, ensures_liftResult_ok, Option.isSome_none,
    Bool.false_eq_true, if_false, ensures_pure, onStore, ensures_onPart,
    ensures_modify]
  refine (rename_spec catalog member unused index).imp ?_
  rintro roots reached ⟨room, kept⟩
  obtain ⟨after, same, feeds⟩ := kept true
  exact ⟨room, by rw [← index], after, same, trivial, feeds⟩

end Healthy

/-- An insertion reports an absent key exactly when the key was absent or the leaf page
that stores it has room for the new record in place of the old one. A feed is renamed in
both trees, and only there, exactly when the index tree has such room; where it has none
the call fails as if the index were missing. -/
theorem absence_reported_and_feed_renamed_iff_room {Key Leaf σ ρ : Type} [LinearOrder Key]
    [Store σ] [RetiringStore ρ] (laws : StoreLaws σ) {codec : Codec Key Leaf}
    (lawful : LawfulCodec codec) (entry : Entry codec) {state : σ} {heap : Heap} {root : Nat}
    {entries : List (Entry codec)} {pages : List Nat} (retired : List Nat)
    (owns : laws.Owns state heap) (wellFormed : WellFormed laws heap root entries pages)
    {drafts : RetiringLaws ρ} (catalog : Catalog drafts) {old renamed : FeedEntry}
    (member : old ∈ catalog.feeds) (unused : ∀ feed ∈ catalog.feeds, feed.name ≠ renamed.name)
    (index : renamed.index = old.index) :
    Ensures (FixedTree.insert codec root entry.cell retired) state
      (fun result _ => (result.value = true ↔ entry.key ∉ entries.map Entry.key) ↔
        entry.key ∉ entries.map Entry.key ∨ HasRoom heap pages entry)
      (PathFails laws (Bulky codec entry.cell) (retired.length + maxTreeLevel)) ∧
    Ensures (renameCurrentFeed old renamed.name) catalog.draft
      (fun result reached => catalog.HasRoom renamed ∧ result = renamed ∧
        ∃ after : Catalog drafts, after.draft = reached ∧ reached.changed = true ∧
        after.feeds = {feed | feed = renamed ∨ feed ∈ catalog.feeds ∧ feed ≠ old})
      (fun error reached => CapacityFails drafts error reached.store ∨
        ¬ catalog.HasRoom renamed ∧ error = .corrupt "renamed feed index was missing") := by
  refine ⟨?_, renameCurrentFeed_spec catalog member unused index⟩
  refine (insert_opens laws lawful owns wellFormed entry).imp ?_
  rintro result reached ⟨added, -⟩
  rw [added]
  constructor
  · intro right
    by_contra wrong
    rw [not_or, not_not] at wrong
    exact right.mp (Or.inr wrong.2) wrong.1
  · rintro (absent | room)
    · exact iff_of_true (Or.inl absent) absent
    · exact or_iff_left (not_not_intro room)

def sampleLaws : RetiringLaws (Logged Workspace) :=
  (Workspace.draftLaws 7 Workspace.sampleTxn_positive Workspace.sampleTxn_word).retiring fun _ => 0

def leafHeap (feeds : List FeedEntry) : Heap := fun address =>
  if address = 2 then some (treePage nameCodec 3 0 ((feeds.map nameEntry).map Entry.cell))
  else if address = 3 then some (treePage indexCodec 3 0 ((feeds.map indexEntry).map Entry.cell))
  else none

def leafDraft (feeds : List FeedEntry) : Draft (Logged Workspace) where
  store :=
    { store :=
        { mapping := fun address => (leafHeap feeds address).getD default
          first := 2
          limit := 64
          next := 4
          free := 0
          txn := 7 }
      tally := fun _ => 0
      retired := [] }
  roots := { name := 2, index := 3 }
  feedIndexLimit := 16
  changed := false

theorem leafDraft_owned (feeds : List FeedEntry) :
    sampleLaws.Owns (leafDraft feeds).store (leafHeap feeds) := by
  refine ⟨Workspace.Holds.of_heap (by decide : 2 ≤ 2) (by decide : 2 ≤ 4) (by decide) ?_, rfl⟩
  intro address page stored
  by_contra other
  rw [leafHeap, if_neg (by omega), if_neg (by omega)] at stored
  cases stored

theorem leaf_wellFormed {Key Leaf : Type} [LinearOrder Key] {codec : Codec Key Leaf} {heap : Heap}
    {page : Nat} {entries : List (Entry codec)} (storable : Storable (entries.map Entry.cell))
    (sorted : KeysSorted entries)
    (stored : heap page = some (treePage codec 3 0 (entries.map Entry.cell))) :
    WellFormed sampleLaws.toStoreLaws heap page entries [page] :=
  ⟨Or.inr ⟨0, leafNode page entries (entries_some storable), by decide,
    ⟨rfl, 3, by decide, by decide, storable, stored⟩, rfl, rfl, rfl⟩, by simp, sorted⟩

def leafCatalog (feeds : List FeedEntry) (some_ : feeds ≠ [])
    (fits : usedBytes (feeds.map fun feed => encode feed.name feed.index) ≤ pageSize)
    (names : feeds.Pairwise fun earlier later => earlier.name < later.name)
    (indexes : feeds.Pairwise fun earlier later => earlier.index < later.index)
    (limited : ∀ feed ∈ feeds, feed.index.val < 16) : Catalog sampleLaws where
  draft := leafDraft feeds
  heap := leafHeap feeds
  names := feeds.map nameEntry
  indexes := feeds.map indexEntry
  namePages := [2]
  indexPages := [3]
  owns := leafDraft_owned feeds
  nameTree := by
    refine leaf_wellFormed ⟨by simpa using some_, ?_, ?_⟩ (pairwise_map.mpr names) rfl
    · intro record member
      obtain ⟨entry, _, rfl⟩ := mem_map.mp member
      exact entry.present
    · rw [map_map]
      exact fits
  indexTree := by
    refine leaf_wellFormed ⟨by simpa using some_, ?_, ?_⟩ (pairwise_map.mpr indexes) rfl
    · intro record member
      obtain ⟨entry, _, rfl⟩ := mem_map.mp member
      exact entry.present
    · rw [map_map]
      exact fits
  apart := by simp
  same feed := by
    rw [map_map, map_map]
    exact Iff.rfl
  limited feed member := by
    rw [map_map] at member
    exact limited feed (by simpa [Function.comp_def, nameEntry] using member)

def shortName (letter : Fin 26) : FeedName where
  asBytes := [UInt8.ofNat (97 + letter)]
  valid := by
    revert letter
    decide

def longName (letter : Fin 26) : FeedName where
  asBytes := UInt8.ofNat (97 + letter) :: List.replicate 254 97
  valid := by
    revert letter
    decide +kernel

def crowdedFeeds : List FeedEntry :=
  (List.finRange 15).map (fun number =>
    { name := longName (number.castLE (by decide)), index := number.castLE (by decide) }) ++
  [{ name := shortName 25, index := 15 }]

def crowdedCatalog : Catalog sampleLaws :=
  leafCatalog crowdedFeeds (by decide) (by decide +kernel) (by decide +kernel) (by decide +kernel)
    (by decide +kernel)

theorem crowded_rename_fails :
    ({ name := shortName 25, index := 15 } : FeedEntry) ∈ crowdedCatalog.feeds ∧
    (∀ feed ∈ crowdedCatalog.feeds, feed.name ≠ longName 20) ∧
    (match FixedTree.insert indexCodec crowdedCatalog.draft.roots.index
        (encode (longName 20) 15) [] crowdedCatalog.draft.store with
      | .ok result _ => result.value
      | .error _ _ => false) = true ∧
    (match renameCurrentFeed { name := shortName 25, index := 15 } (longName 20)
        crowdedCatalog.draft with
      | .ok _ _ => none
      | .error error _ => some error) = some (.corrupt "renamed feed index was missing") := by
  refine ⟨?_, ?_, ?_, ?_⟩
  · show _ ∈ (crowdedFeeds.map nameEntry).map Entry.leaf
    rw [map_map]
    decide +kernel
  · show ∀ feed ∈ (crowdedFeeds.map nameEntry).map Entry.leaf, feed.name ≠ longName 20
    rw [map_map]
    decide +kernel
  · decide +kernel
  · decide +kernel

def roomyCatalog : Catalog sampleLaws :=
  leafCatalog [{ name := shortName 0, index := 0 }, { name := shortName 4, index := 3 }] (by decide)
    (by decide +kernel) (by decide +kernel) (by decide +kernel) (by decide +kernel)

def oldFeed : FeedEntry := { name := shortName 4, index := 3 }

def renamedFeed : FeedEntry := { name := shortName 20, index := 3 }

theorem absence_reported_and_feed_renamed_roomy :
    Ensures (FixedTree.insert indexCodec roomyCatalog.draft.roots.index (indexEntry renamedFeed).cell [])
      roomyCatalog.draft.store
      (fun result _ => (result.value = true ↔
          renamedFeed.index ∉ roomyCatalog.indexes.map Entry.key) ↔
        renamedFeed.index ∉ roomyCatalog.indexes.map Entry.key ∨ roomyCatalog.HasRoom renamedFeed)
      (PathFails sampleLaws.toStoreLaws (Bulky indexCodec (indexEntry renamedFeed).cell)
        (0 + maxTreeLevel)) ∧
    ∃ reached, renameCurrentFeed oldFeed renamedFeed.name roomyCatalog.draft =
        .ok renamedFeed reached ∧
      roomyCatalog.HasRoom renamedFeed ∧ ∃ after : Catalog sampleLaws, after.draft = reached ∧
        after.feeds =
          {feed | feed = renamedFeed ∨ feed ∈ roomyCatalog.feeds ∧ feed ≠ oldFeed} := by
  have member : oldFeed ∈ roomyCatalog.feeds := by
    show _ ∈ (List.map nameEntry _).map Entry.leaf
    rw [map_map]
    decide +kernel
  have unused : ∀ feed ∈ roomyCatalog.feeds, feed.name ≠ renamedFeed.name := by
    show ∀ feed ∈ (List.map nameEntry _).map Entry.leaf, feed.name ≠ renamedFeed.name
    rw [map_map]
    decide +kernel
  obtain ⟨reported, spec⟩ := absence_reported_and_feed_renamed_iff_room sampleLaws.toStoreLaws
    indexCodec_lawful (indexEntry renamedFeed) [] roomyCatalog.owns roomyCatalog.indexTree
    roomyCatalog member unused rfl
  refine ⟨reported, ?_⟩
  have run : (match renameCurrentFeed oldFeed renamedFeed.name roomyCatalog.draft with
      | .ok _ _ => true
      | .error _ _ => false) = true := by decide +kernel
  cases outcome : renameCurrentFeed oldFeed renamedFeed.name roomyCatalog.draft with
  | error error reached =>
    rw [outcome] at run
    cases run
  | ok result reached =>
    obtain ⟨room, rfl, after, same, _, feeds⟩ := spec.ok outcome
    exact ⟨reached, rfl, room, after, same, feeds⟩

end FeedCatalog

end IpRange
