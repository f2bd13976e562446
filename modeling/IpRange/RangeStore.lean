import IpRange.FixedTreeWalk
import IpRange.RangeTree
import IpRange.RetiringStore

/-!
Stores that follow how many records hold each value, and what a client of one
range tree keeps: its tree beside whatever else the store holds for it, and the
records the store has counted.
-/

namespace IpRange

class RangeStore (σ : Type) extends RetiringStore σ where
  rangeRecordAdded : UInt32 → EStateM Error σ Unit
  rangeRecordRemoved : UInt32 → EStateM Error σ Unit

structure Preserves {σ : Type} [Store σ] (P : σ → Prop) : Prop where
  allocate : ∀ {state address reached}, P state →
    Store.allocate state = .ok address reached → P reached
  update : ∀ {α : Type} {state reached} {address : Nat} {program : EStateM Error Page α} {value : α},
    P state → Store.updatePage address program state = .ok value reached → P reached
  copy : ∀ {state reached} {source destination : Nat} {program : Page → EStateM Error Page Unit},
    P state → Store.copyPage source destination program state = .ok () reached → P reached
  discard : ∀ {state reached} {address : Nat},
    P state → Store.discardPrivate address state = .ok () reached → P reached

theorem Ensures.also {ε σ α : Type} {program : EStateM ε σ α} {state : σ} {post : α → σ → Prop}
    {fail : ε → σ → Prop} {P : σ → Prop} (run : Ensures program state post fail)
    (keeps : ∀ value reached, program state = .ok value reached → P reached) :
    Ensures program state (fun value reached => post value reached ∧ P reached) fail := by
  unfold Ensures at run ⊢
  cases outcome : program state with
  | ok value reached =>
    rw [outcome] at run
    exact ⟨run, keeps value reached outcome⟩
  | error error reached =>
    rw [outcome] at run
    exact run

def StoreLaws.within {σ : Type} [Store σ] (laws : StoreLaws σ) (P : σ → Prop)
    (keeps : Preserves P) : StoreLaws σ where
  txn := laws.txn
  txnPositive := laws.txnPositive
  txnWord := laws.txnWord
  Owns state heap := laws.Owns state heap ∧ P state
  Fails := laws.Fails
  Writable := laws.Writable
  writable := laws.writable
  target owns := laws.target owns.1
  limit owns := laws.limit owns.1
  bounds owns := laws.bounds owns.1
  reserved owns := laws.reserved owns.1
  inspect owns := laws.inspect owns.1
  allocate owns := by
    refine ((laws.allocate owns.1).also fun _ _ run => keeps.allocate owns.2 run).imp ?_
    rintro address reached ⟨⟨unused, page, writable, after⟩, still⟩
    exact ⟨unused, page, writable, after, still⟩
  update owns held writable run owned :=
    ((laws.update owns.1 held writable run owned).also fun _ _ ran => keeps.update owns.2 ran).imp
      fun _ _ post => ⟨post.1.1, post.1.2, post.2⟩
  copy owns read held different writable run owned :=
    (laws.copy owns.1 read held different writable run owned).also
      fun _ _ ran => keeps.copy owns.2 ran
  discard owns held owned :=
    (laws.discard owns.1 held owned).also fun _ _ ran => keeps.discard owns.2 ran

/-- What range code relies on. `tally` observes the callbacks: for each value the records
reported as added, less those removed. -/
structure RangeLaws (σ : Type) [RangeStore σ] extends StoreLaws σ where
  tally : σ → UInt32 → Int
  keeps : ∀ total, Preserves fun state => tally state = total
  retire : ∀ {state heap pages}, Owns state heap → pages.Nodup →
    (∀ address ∈ pages, ∃ page, heap address = some page ∧ FixedTree.Committed txn page ∧
      page.hasMagic = true) →
    Ensures (RetiringStore.retirePages pages) state (fun _ reached =>
      Owns reached (fun address => if address ∈ pages then none else heap address) ∧
        tally reached = tally state) Fails
  added : ∀ {state heap}, Owns state heap → ∀ value,
    Ensures (RangeStore.rangeRecordAdded value) state (fun _ reached => Owns reached heap ∧
      tally reached = Function.update (tally state) value (tally state value + 1)) Fails
  removed : ∀ {state heap}, Owns state heap → ∀ value,
    Ensures (RangeStore.rangeRecordRemoved value) state (fun _ reached => Owns reached heap ∧
      tally reached = Function.update (tally state) value (tally state value - 1)) Fails

def RangeLaws.counting {σ : Type} [RangeStore σ] (laws : RangeLaws σ)
    (total : UInt32 → Int) : StoreLaws σ :=
  laws.within (fun state => laws.tally state = total) (laws.keeps total)

def RangeLaws.retiring {σ : Type} [RangeStore σ] (laws : RangeLaws σ) (total : UInt32 → Int) :
    RetiringLaws σ where
  toStoreLaws := laws.counting total
  retire owns nodup marked := (laws.retire owns.1 nodup marked).imp
    fun _ _ post => ⟨post.1, post.2.trans owns.2⟩

namespace FixedTree

theorem StretchFails.of_counting {σ : Type} [RangeStore σ] {laws : RangeLaws σ}
    {total : UInt32 → Int} {oversized : Prop} {error : Error} {state : σ}
    (failed : StretchFails (laws.counting total) oversized error state) :
    StretchFails laws.toStoreLaws oversized error state :=
  failed.imp_right fun cause => cause.imp_left fun ⟨⟨heap, address, page, owns, held⟩, isLimit⟩ =>
    ⟨⟨heap, address, page, owns.1, held⟩, isLimit⟩

variable {Key Leaf σ : Type} [LinearOrder Key] (codec : Codec Key Leaf)

def retireTree [RetiringStore σ] (root : Nat) : EStateM Error σ Unit :=
  walk codec (fun page => RetiringStore.retirePages [page]) root

theorem releases_retire [RetiringStore σ] (laws : RetiringLaws σ) :
    Releases laws.toStoreLaws (fun page => RetiringStore.retirePages [page])
      fun page => Committed laws.txn page ∧ page.hasMagic = true := by
  intro frame heap pages state address page owning stored marked
  refine (laws.retire owning.owns (List.nodup_singleton address) ?_).imp ?_
  · intro other member
    rw [List.mem_singleton.mp member]
    exact ⟨page, stored, marked⟩
  · intro _ reached owns
    have same : (fun other => if other ∈ [address] then none else heap other) =
        Function.update heap address none := by
      funext other
      by_cases here : other = address
      · simp [here]
      · simp [here]
    rw [same] at owns
    exact owning.removed owns

section Client

variable {codec} [RangeStore σ] (laws : RangeLaws σ)

structure Stands (codec : Codec Key Leaf) (frame : Heap) (root : Nat) (items : List (Key × Leaf))
    (total : UInt32 → Int) (state : σ) : Prop where
  tally : laws.tally state = total
  tree : ∃ heap, ∃ entries : List (Entry codec), ∃ pages, laws.Owns state heap ∧
    WellFormed laws.toStoreLaws heap root entries pages ∧ entries.map Entry.item = items ∧
    ∀ address, frame address = if address ∈ pages then none else heap address

variable {laws}

variable {items : List (Key × Leaf)} {total : UInt32 → Int}

theorem stands_iff {frame : Heap} {root : Nat} {state : σ} :
    Stands laws codec frame root items total state ↔
      Beside (laws.retiring total) codec frame root items state := by
  constructor
  · rintro ⟨tallied, heap, entries, pages, owns, ⟨tree, nodup, sorted⟩, rest⟩
    exact ⟨heap, entries, pages, ⟨owns, tallied⟩, ⟨tree, nodup, sorted⟩, rest⟩
  · rintro ⟨heap, entries, pages, ⟨owns, tallied⟩, ⟨tree, nodup, sorted⟩, rest⟩
    exact ⟨tallied, heap, entries, pages, owns, ⟨tree, nodup, sorted⟩, rest⟩

theorem Stands.length_lt {frame : Heap} {root : Nat} {state : σ}
    (stands : Stands laws codec frame root items total state) :
    items.length < 2 ^ 64 := by
  obtain ⟨-, heap, entries, pages, owns, wellFormed, rfl, -⟩ := stands
  rw [List.length_map]
  exact lt_of_le_of_lt (wellFormed.length_le owns) (by decide)

section Mutations

variable {frame : Heap} {root : Nat} {items : List (Key × Leaf)} {total : UInt32 → Int} {state : σ}

theorem insertRetiring_spec (lawful : LawfulCodec codec) (entry : Entry codec)
    (stands : Stands laws codec frame root items total state) :
    Ensures (insertRetiring codec root entry.cell) state
      (fun result reached => (entry.key ∉ items.map Prod.fst → result.1 = true) ∧
        Stands laws codec frame result.2 (splice entry.key [entry.item] items) total reached)
      (StretchFails laws.toStoreLaws (Bulky codec entry.cell)) := by
  obtain ⟨heap, entries, pages, owns, wellFormed, rfl, framed⟩ := stands_iff.mp stands
  refine (insertRetiring_beside lawful entry owns wellFormed framed).mono ?_
    fun error _ failed => failed.of_counting
  rintro result reached ⟨added, beside⟩
  exact ⟨fun missing => added.mpr (Or.inl (by simpa [Entry.item] using missing)),
    stands_iff.mpr beside⟩

theorem deleteRetiring_spec (lawful : LawfulCodec codec) (key : Key)
    (present : key ∈ items.map Prod.fst) (stands : Stands laws codec frame root items total state) :
    Ensures (deleteRetiring codec root key) state
      (fun result reached => Stands laws codec frame result (splice key [] items) total reached)
      (StretchFails laws.toStoreLaws False) := by
  obtain ⟨heap, entries, pages, owns, wellFormed, rfl, framed⟩ := stands_iff.mp stands
  have stored : key ∈ entries.map Entry.key := by simpa [Entry.item] using present
  exact (deleteRetiring_beside lawful stored owns wellFormed framed).mono
    (fun result reached beside => stands_iff.mpr beside) fun error _ failed => failed.of_counting

theorem replaceRetiring_spec (lawful : LawfulCodec codec) (key : Key) (new : List (Entry codec))
    (present : key ∈ items.map Prod.fst)
    (accepted : requireReplacement codec key (new.map Entry.cell) = .ok ())
    (promise : ∀ entry ∈ new, ∀ item ∈ items, key < item.1 → entry.key < item.1)
    (stands : Stands laws codec frame root items total state) :
    Ensures (replaceLeafWith codec root key (new.map Entry.cell) []) state
      (fun replaced reached => Ensures (RetiringStore.retirePages replaced.retired) reached
        (fun _ final => Stands laws codec frame replaced.root
          (splice key (new.map Entry.item) items) total final) laws.Fails)
      (GrowthFails laws.toStoreLaws codec) := by
  obtain ⟨heap, entries, pages, owns, wellFormed, rfl, framed⟩ := stands_iff.mp stands
  have stored : key ∈ entries.map Entry.key := by simpa [Entry.item] using present
  have laid : ∀ cell ∈ new.map Entry.cell, LaidOut codec cell := by
    intro cell member leaf _
    obtain ⟨fresh, _, rfl⟩ := List.mem_map.mp member
    exact fresh.layout
  refine (replaceLeafWith_spec (laws.retiring total).toStoreLaws lawful owns wellFormed key laid
    ?_).mono ?_ ?_
  · intro cell member newKey read entry isStored past
    obtain ⟨fresh, inNew, rfl⟩ := List.mem_map.mp member
    rw [fresh.keyRead] at read
    cases read
    exact promise fresh inNew entry.item (List.mem_map_of_mem isStored) past
  · rintro ⟨value, newRoot, retired⟩ reached ⟨-, written, cells, gone, rfl, yields⟩
    rw [List.map_injective_iff.mpr Entry.cell_injective cells]
    exact (retire_beside wellFormed framed yields.yields).imp fun _ _ beside =>
      stands_iff.mpr beside
  · rintro error reached (failed | missing | refused)
    · exact failed.stretchFails.of_counting
    · exact absurd (keys_of_items entries ▸ stored) missing.1
    · rw [accepted] at refused
      cases refused

theorem rangeRecordAdded_spec (value : UInt32)
    (stands : Stands laws codec frame root items total state) :
    Ensures (RangeStore.rangeRecordAdded value) state
      (fun _ reached => Stands laws codec frame root items
        (Function.update total value (total value + 1)) reached) laws.Fails := by
  obtain ⟨rfl, heap, entries, pages, owns, tree⟩ := stands
  refine (laws.added owns value).imp ?_
  rintro _ reached ⟨ownsAfter, tallied⟩
  exact ⟨tallied, heap, entries, pages, ownsAfter, tree⟩

theorem rangeRecordRemoved_spec (value : UInt32)
    (stands : Stands laws codec frame root items total state) :
    Ensures (RangeStore.rangeRecordRemoved value) state
      (fun _ reached => Stands laws codec frame root items
        (Function.update total value (total value - 1)) reached) laws.Fails := by
  obtain ⟨rfl, heap, entries, pages, owns, tree⟩ := stands
  refine (laws.removed owns value).imp ?_
  rintro _ reached ⟨ownsAfter, tallied⟩
  exact ⟨tallied, heap, entries, pages, ownsAfter, tree⟩

end Mutations

end Client

end FixedTree

section Records

variable {K : Type} [IpKey K]

def recordItems (records : List (Record K)) : List (K × Record K) :=
  records.map fun record => (record.from_, record)

theorem entries_records {records : List (Record K)} {entries : List (FixedTree.Entry (rangeCodec K))}
    (items : entries.map FixedTree.Entry.item = recordItems records) :
    records = entries.map FixedTree.Entry.leaf ∧ ∀ entry ∈ entries, entry.key = entry.leaf.from_ := by
  constructor
  · have leaves := congrArg (List.map Prod.snd) items
    simpa [recordItems, FixedTree.Entry.item, Function.comp_def] using leaves.symm
  · intro entry member
    have inItems : entry.item ∈ recordItems records := items ▸ List.mem_map_of_mem member
    obtain ⟨record, _, same⟩ := List.mem_map.mp inItems
    have key := congrArg Prod.fst same
    have leaf := congrArg Prod.snd same
    simp only [FixedTree.Entry.item] at key leaf
    rw [← key, ← leaf]

end Records

end IpRange
