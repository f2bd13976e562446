import IpRange.FixedTreeOperations
import IpRange.RangeTree
import IpRange.Workspace

/-!
Sequences of calls on one tree, against an ordered map: whatever the calls and
their order, the tree stays well formed, its leaves are those of the map, and
the retired pages are the committed ones that left the tree.
-/

namespace IpRange.FixedTree

open List SlottedPage

variable {Key Leaf σ τ : Type}

inductive Call (Key Leaf τ : Type) where
  | insert (cell : Bytes) (retired : List Nat)
  | replaceLeafWith (key : Key) (cells : List Bytes) (retired : List Nat)
  | deleteExisting (key : Key) (retired : List Nat)
  | removeLeafRun (key : Key) (step : Leaf → τ → Except Error (Bool × τ)) (memory : τ)

structure Outcome (Key Leaf τ : Type) where
  root : Nat
  gone : List Nat
  run : Option (RemovedRun Key Leaf × τ)

section Perform

variable [Store σ] [LinearOrder Key] (codec : Codec Key Leaf)

def perform (root : Nat) : Call Key Leaf τ → EStateM Error σ (Outcome Key Leaf τ)
  | .insert cell retired => do
    let result ← insert codec root cell retired
    pure { root := result.root, gone := result.retired.drop retired.length, run := none }
  | .replaceLeafWith key cells retired => do
    let result ← replaceLeafWith codec root key cells retired
    pure { root := result.root, gone := result.retired.drop retired.length, run := none }
  | .deleteExisting key retired => do
    let result ← deleteExisting codec root key retired
    pure { root := result.root, gone := result.retired.drop retired.length, run := none }
  | .removeLeafRun key step memory => do
    let (report, last, root) ← removeLeafRun codec root key step memory
    pure { root, gone := [], run := some (report, last) }

def performAll (root : Nat) : List (Call Key Leaf τ) →
    EStateM Error σ (Nat × List Nat × List (Option (RemovedRun Key Leaf × τ)))
  | [] => pure (root, [], [])
  | call :: rest => do
    let outcome ← perform codec root call
    let (last, gone, runs) ← performAll outcome.root rest
    pure (last, outcome.gone ++ gone, outcome.run :: runs)

end Perform

section OrderedMap

variable [LinearOrder Key] (codec : Codec Key Leaf)

def Decodes (cell : Bytes) (item : Key × Leaf) : Prop :=
  codec.readKey cell 0 = .ok item.1 ∧ codec.readLeaf cell = .ok item.2

/-- What a call does to an ordered map. A run removal takes the items its callback includes from
the key on, and may stop at the end of `scanned`. -/
def Acts (call : Call Key Leaf τ) (run : Option (RemovedRun Key Leaf × τ))
    (before after : List (Key × Leaf)) : Prop :=
  match call with
  | .insert cell _ => ∃ item, Decodes codec cell item ∧ after = splice item.1 [item] before
  | .replaceLeafWith key cells _ => key ∈ before.map Prod.fst ∧ ∃ items,
      List.Forall₂ (Decodes codec) cells items ∧ after = splice key items before
  | .deleteExisting key _ => key ∈ before.map Prod.fst ∧ after = splice key [] before
  | .removeLeafRun key step memory => ∃ report last smaller scanned beyond,
      run = some (report, last) ∧ before = smaller ++ (scanned ++ beyond) ∧
      (∀ item ∈ smaller, item.1 < key) ∧ scanned.head?.map Prod.fst = some key ∧
      scan step (scanned.map Prod.snd) memory = .ok (report.removed, last) ∧
      report.following = ((scanned ++ beyond).drop report.removed).head? ∧
      after = smaller ++ (scanned ++ beyond).drop report.removed

def ActsAll : List (Call Key Leaf τ) → List (Option (RemovedRun Key Leaf × τ)) →
    List (Key × Leaf) → List (Key × Leaf) → Prop
  | [], [], before, after => after = before
  | call :: calls, run :: runs, before, after =>
    ∃ middle, Acts codec call run before middle ∧ ActsAll calls runs middle after
  | _, _, _, _ => False

/-- What callers promise: records as their encoders lay them out, and new keys of a replacement
below the next one. -/
def Promised (call : Call Key Leaf τ) (items : List (Key × Leaf)) : Prop :=
  match call with
  | .insert cell _ => LaidOut codec cell
  | .replaceLeafWith key cells _ => (∀ cell ∈ cells, LaidOut codec cell) ∧
      ∀ cell ∈ cells, ∀ new, codec.readKey cell 0 = .ok new →
        ∀ item ∈ items, key < item.1 → new < item.1
  | _ => True

def PromisedAll : List (Call Key Leaf τ) → List (Key × Leaf) → Prop
  | [], _ => True
  | call :: calls, items => Promised codec call items ∧
      ∀ run after, Acts codec call run items after → PromisedAll calls after

end OrderedMap

section Refinement

variable [Store σ] [LinearOrder Key] {codec : Codec Key Leaf} (laws : StoreLaws σ)

/-- Why a call fails: the store, a tree or a path that is at its limit, a missing key, or the
call's own check of its records. -/
def CallFails (codec : Codec Key Leaf) (call : Call Key Leaf τ) (items : List (Key × Leaf))
    (error : Error) (state : σ) : Prop :=
  match call with
  | .insert cell retired =>
    PathFails laws (Bulky codec cell) (retired.length + maxTreeLevel) error state ∨
      requireLeaf codec cell = .error error
  | .replaceLeafWith key cells retired =>
    EditFails laws codec (retired.length + maxTreeLevel) error state ∨
      Missing "B+tree replacement key is missing" key items error state ∨
      requireReplacement codec key cells = .error error
  | .deleteExisting key retired =>
    PathFails laws False (retired.length + maxTreeLevel) error state ∨
      Missing "B+tree key disappeared during deletion" key items error state
  | .removeLeafRun key step _ =>
    PathFails laws False maxTreeLevel error state ∨
      Missing "B+tree run start key is missing" key items error state ∨
      RunFails laws codec step items error state

def SomeCallFails (codec : Codec Key Leaf) : List (Call Key Leaf τ) → List (Key × Leaf) → Error →
    σ → Prop
  | [], _, _, _ => False
  | call :: calls, items, error, state => CallFails laws codec call items error state ∨
      ∃ run after, Acts codec call run items after ∧ SomeCallFails codec calls after error state

variable {heap : Heap} {state : σ} {root : Nat} {entries : List (Entry codec)} {pages : List Nat}

theorem perform_spec (lawful : LawfulCodec codec) (call : Call Key Leaf τ)
    (owns : laws.Owns state heap) (wellFormed : WellFormed laws heap root entries pages)
    (promised : Promised codec call (entries.map Entry.item)) :
    Ensures (perform codec root call) state
      (fun outcome reached => ∃ items,
        Acts codec call outcome.run (entries.map Entry.item) items ∧
        YieldsTo laws heap pages outcome.gone outcome.root reached codec
          (Resettles heap laws.txn root) items)
      (CallFails laws codec call (entries.map Entry.item)) := by
  cases call with
  | insert cell retired =>
    simp only [perform, ensures_bind, ensures_pure]
    rcases requireLeaf_spec lawful promised with ⟨error, refused⟩ | ⟨_, entry, rfl⟩
    · unfold insert
      rw [ensures_bind, refused, ensures_liftResult_error]
      exact Or.inr refused
    · refine (insert_opens laws lawful owns wellFormed entry).mono ?_ fun _ _ => Or.inl
      rintro result reached ⟨-, gone, appended, yields⟩
      rw [appended, drop_left]
      exact ⟨_, ⟨entry.item, ⟨entry.keyRead, entry.leafRead⟩, rfl⟩, yields.yieldsTo⟩
  | replaceLeafWith key cells retired =>
    simp only [perform, ensures_bind, ensures_pure]
    refine (replaceLeafWith_spec laws lawful owns wellFormed key promised.1 ?_).imp ?_
    · intro cell member new read entry stored past
      exact promised.2 cell member new read entry.item (mem_map_of_mem stored) past
    · rintro result reached ⟨present, new, rfl, gone, appended, yields⟩
      rw [appended, drop_left]
      refine ⟨_, ⟨by rw [keys_of_items]; exact present, new.map Entry.item, ?_, rfl⟩, yields⟩
      rw [List.forall₂_map_left_iff, List.forall₂_map_right_iff, List.forall₂_same]
      exact fun entry _ => ⟨entry.keyRead, entry.leafRead⟩
  | deleteExisting key retired =>
    simp only [perform, ensures_bind, ensures_pure]
    refine (deleteExisting_opens laws lawful owns wellFormed key).imp ?_
    rintro result reached ⟨present, gone, appended, yields⟩
    rw [appended, drop_left]
    exact ⟨_, ⟨by rw [keys_of_items]; exact present, rfl⟩, yields.yieldsTo⟩
  | removeLeafRun key step memory =>
    simp only [perform, ensures_bind, ensures_pure]
    refine (removeLeafRun_spec laws lawful owns wellFormed key step memory).imp ?_
    rintro ⟨report, last, top⟩ reached
      ⟨smaller, scanned, beyond, whole, below, starts, ran, following, yields⟩
    refine ⟨_, ⟨report, last, smaller.map Entry.item, scanned.map Entry.item,
      beyond.map Entry.item, rfl, ?_, ?_, ?_, ?_, ?_, rfl⟩, ?_⟩
    · rw [whole]
      simp
    · intro item member
      obtain ⟨entry, inSmaller, rfl⟩ := mem_map.mp member
      exact below entry inSmaller
    · rw [head?_map, Option.map_map]
      exact starts
    · rw [map_map]
      exact ran
    · rw [following, ← map_append, ← map_drop, head?_map]
    · simpa [map_drop] using yields

structure Advanced (heap : Heap) (pages : List Nat) (after : Heap) (entries : List (Entry codec))
    (kept gone : List Nat) (root : Nat) (reached : σ) : Prop where
  owns : laws.Owns reached after
  wellFormed : WellFormed laws after root entries kept
  moves : Moves laws.txn heap after pages (kept ++ gone)
  committed : ∀ address ∈ gone, address ∈ pages ∧
    ∃ page, heap address = some page ∧ Committed laws.txn page

theorem Yields.advanced {gone : List Nat} {reached : σ} {items : List (Key × Leaf)}
    (yields : Yields laws heap pages gone root reached codec items) :
    ∃ after kept, ∃ entries : List (Entry codec), entries.map Entry.item = items ∧
      Advanced laws heap pages after entries kept gone root reached := by
  obtain ⟨entries, ⟨after, kept, owns, tree, moves, committed⟩, sorted, same⟩ := yields
  exact ⟨after, kept, entries, same, owns, ⟨tree, (nodup_append.mp moves.nodup).1, sorted⟩,
    moves, committed⟩

theorem Advanced.trans {middle after : Heap} {between kept gone later : List Nat}
    {first last : List (Entry codec)} {root_ : Nat} {reached done : σ}
    (before : Advanced laws heap pages middle first between gone root reached)
    (next : Advanced laws middle between after last kept later root_ done) :
    Advanced laws heap pages after last kept (gone ++ later) root_ done := by
  obtain ⟨_, goneNodup, apart⟩ := nodup_append.mp before.moves.nodup
  have aside : ∀ address ∈ gone, address ∉ between ∧ middle address ≠ none := by
    intro address member
    obtain ⟨inPages, page, stored, isCommitted⟩ := before.committed address member
    refine ⟨fun inBetween => apart address inBetween address member rfl, ?_⟩
    rw [(before.moves.fixed address page inPages stored isCommitted).2]
    exact Option.some_ne_none _
  refine ⟨next.owns, next.wellFormed, ?_, ?_⟩
  · refine (before.moves.trans (next.moves.append goneNodup aside)).congr (fun _ => Iff.rfl) ?_
    refine perm_iff_count.mpr fun address => ?_
    simp only [count_append]
    omega
  · intro address member
    rcases mem_append.mp member with now | afterwards
    · exact before.committed address now
    · obtain ⟨inBetween, page, stored, isCommitted⟩ := next.committed address afterwards
      obtain ⟨inPages, was⟩ := before.moves.origin address page
        (mem_append_left _ inBetween) stored isCommitted
      exact ⟨inPages, page, was, isCommitted⟩

theorem performAll_spec (lawful : LawfulCodec codec) (calls : List (Call Key Leaf τ))
    (owns : laws.Owns state heap) (wellFormed : WellFormed laws heap root entries pages)
    (promised : PromisedAll codec calls (entries.map Entry.item)) :
    Ensures (performAll codec root calls) state
      (fun result reached => ∃ after kept, ∃ last : List (Entry codec),
        ActsAll codec calls result.2.2 (entries.map Entry.item) (last.map Entry.item) ∧
        Advanced laws heap pages after last kept result.2.1 result.1 reached)
      (SomeCallFails laws codec calls (entries.map Entry.item)) := by
  induction calls generalizing state heap root entries pages with
  | nil =>
    rw [performAll, ensures_pure]
    refine ⟨heap, pages, entries, rfl, owns, wellFormed, ?_, by simp⟩
    rw [append_nil]
    exact Evolves.refl wellFormed.nodup
  | cons call rest ih =>
    rw [performAll, ensures_bind]
    refine (perform_spec laws lawful call owns wellFormed promised.1).impOr ?_
    rintro outcome reached ⟨items, acts, yields⟩
    obtain ⟨middle, between, first, rfl, advanced⟩ := yields.yields.advanced laws
    rw [ensures_bind]
    refine (ih advanced.owns advanced.wellFormed (promised.2 _ _ acts)).mono ?_
      fun error _ failed => Or.inr ⟨_, _, acts, failed⟩
    rintro ⟨top, gone, runs⟩ done ⟨after, kept, last, actsRest, next⟩
    rw [ensures_pure]
    exact ⟨after, kept, last, ⟨_, acts, actsRest⟩, advanced.trans laws next⟩

end Refinement

def sampleRange (low high value : Nat) : Record Ipv4Key :=
  { from_ := ⟨UInt32.ofNat low⟩, to_ := ⟨UInt32.ofNat high⟩, value := UInt32.ofNat value }

theorem nearRange_proper : (sampleRange 10 20 1).from_ ≤ (sampleRange 10 20 1).to_ := by decide

theorem farRange_proper : (sampleRange 30 40 2).from_ ≤ (sampleRange 30 40 2).to_ := by decide

def sampleEntries : List (Entry (rangeCodec Ipv4Key)) :=
  [(sampleRange 10 20 1).entry nearRange_proper, (sampleRange 30 40 2).entry farRange_proper]

def sampleHeap : Heap := fun address =>
  if address = 2 then some (treePage (rangeCodec Ipv4Key) 3 0 (sampleEntries.map Entry.cell))
  else none

def sampleWorkspace : Workspace where
  mapping address := (sampleHeap address).getD default
  first := 2
  limit := 64
  next := 3
  free := 0
  txn := 7

def sampleCalls : List (Call Ipv4Key (Record Ipv4Key) Unit) :=
  [.replaceLeafWith ⟨10⟩ [((sampleRange 10 12 1).entry (by decide)).cell,
      ((sampleRange 13 20 5).entry (by decide)).cell] [],
    .insert ((sampleRange 50 60 3).entry (by decide)).cell [],
    .removeLeafRun ⟨13⟩ (fun leaf memory => .ok (decide (leaf.value = 5), memory)) (),
    .deleteExisting ⟨50⟩ []]

theorem sample_owned : Workspace.Holds 7 sampleWorkspace sampleHeap := by
  refine Workspace.Holds.of_heap (by decide) (by decide) (by decide) fun address page stored => ?_
  obtain ⟨rfl, -⟩ := Option.ite_none_right_eq_some.mp stored
  decide

end IpRange.FixedTree
