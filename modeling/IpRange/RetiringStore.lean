import IpRange.FixedTreeOperations

/-!
Stores that take retired pages, the retiring forms of the tree mutations, and what
a client of one tree keeps: its tree beside whatever else the store holds for it.
-/

namespace IpRange

class RetiringStore (σ : Type) extends Store σ where
  retirePages : List Nat → EStateM Error σ Unit

structure RetiringLaws (σ : Type) [RetiringStore σ] extends StoreLaws σ where
  retire : ∀ {state heap pages}, Owns state heap → pages.Nodup →
    (∀ address ∈ pages, ∃ page, heap address = some page ∧ FixedTree.Committed txn page ∧
      page.hasMagic = true) →
    Ensures (RetiringStore.retirePages pages) state (fun _ reached =>
      Owns reached (fun address => if address ∈ pages then none else heap address)) Fails

namespace FixedTree

variable {Key Leaf σ : Type} [LinearOrder Key] (codec : Codec Key Leaf)

def insertRetiring [RetiringStore σ] (root : Nat) (record : Bytes) :
    EStateM Error σ (Bool × Nat) := do
  let inserted ← insert codec root record []
  RetiringStore.retirePages inserted.retired
  pure (inserted.value, inserted.root)

def deleteRetiring [RetiringStore σ] (root : Nat) (key : Key) : EStateM Error σ Nat := do
  let deleted ← deleteExisting codec root key []
  RetiringStore.retirePages deleted.retired
  pure deleted.root

section Client

variable {codec} [RetiringStore σ] (laws : RetiringLaws σ)

def Beside (codec : Codec Key Leaf) (frame : Heap) (root : Nat) (items : List (Key × Leaf))
    (state : σ) : Prop :=
  ∃ heap, ∃ entries : List (Entry codec), ∃ pages, laws.Owns state heap ∧
    WellFormed laws.toStoreLaws heap root entries pages ∧ entries.map Entry.item = items ∧
    ∀ address, frame address = if address ∈ pages then none else heap address

variable {laws} {frame heap : Heap} {root : Nat} {entries : List (Entry codec)} {pages : List Nat}
  {state : σ}

theorem retire_beside {newRoot : Nat} {gone : List Nat} {items : List (Key × Leaf)}
    (wellFormed : WellFormed laws.toStoreLaws heap root entries pages)
    (framed : ∀ address, frame address = if address ∈ pages then none else heap address)
    (yields : Yields laws.toStoreLaws heap pages gone newRoot state codec items) :
    Ensures (RetiringStore.retirePages gone) state
      (fun _ reached => Beside laws codec frame newRoot items reached) laws.Fails := by
  obtain ⟨last, ⟨after, kept, owns, tree, moves, committed⟩, sorted, rfl⟩ := yields
  obtain ⟨keptNodup, goneNodup, apart⟩ := List.nodup_append.mp moves.nodup
  have outside : ∀ address ∈ kept, address ∉ gone :=
    fun address member inGone => apart address member address inGone rfl
  have marked : ∀ address ∈ gone, ∃ page, after address = some page ∧
      Committed laws.txn page ∧ page.hasMagic = true := by
    intro address member
    obtain ⟨inPages, page, stored, isCommitted⟩ := committed address member
    obtain ⟨born, height, cells, _, same⟩ := wellFormed.treePages address inPages
    rw [stored] at same
    cases same
    exact ⟨_, (moves.fixed address _ inPages stored isCommitted).2, isCommitted, by simp⟩
  refine (laws.retire owns goneNodup marked).imp ?_
  intro _ reached ownsAfter
  refine ⟨_, last, kept, ownsAfter, ⟨?_, keptNodup, sorted⟩, rfl, ?_⟩
  · refine tree.congr fun address member => ?_
    exact if_neg (outside address member)
  · intro address
    rw [framed]
    by_cases inGone : address ∈ gone
    · rw [if_pos (committed address inGone).1, if_pos inGone, ite_self]
    · rw [if_neg inGone]
      by_cases inKept : address ∈ kept
      · rw [if_pos inKept]
        rcases moves.fresh address (List.mem_append_left _ inKept) with inPages | unused
        · rw [if_pos inPages]
        · rw [unused, ite_self]
      · have neither : address ∉ kept ++ gone := by simp [inKept, inGone]
        rw [if_neg inKept]
        by_cases inPages : address ∈ pages
        · rw [if_pos inPages, moves.gone address neither (Or.inl inPages)]
        · rw [if_neg inPages]
          by_cases unused : heap address = none
          · rw [unused, moves.gone address neither (Or.inr unused)]
          · rw [moves.frame address inPages unused]

theorem held_beside {Other Value : Type} [LinearOrder Other] {other : Codec Other Value}
    {records : List (Entry other)} {after : Heap} {top : Nat} {kept aside : List Nat}
    (framed : ∀ address, frame address = if address ∈ pages then none else heap address)
    (framedAfter : ∀ address, frame address = if address ∈ kept then none else after address)
    (beside : WellFormed laws.toStoreLaws heap top records aside)
    (apart : ∀ address ∈ aside, address ∉ pages) :
    ∀ address ∈ aside, after address = heap address ∧ address ∉ kept := by
  intro address member
  obtain ⟨born, height, cells, _, stored⟩ := beside.treePages address member
  have before := framed address
  have later := framedAfter address
  rw [if_neg (apart address member), stored] at before
  by_cases inKept : address ∈ kept
  · rw [before, if_pos inKept] at later
    cases later
  · rw [before, if_neg inKept] at later
    exact ⟨later.symm.trans stored.symm, inKept⟩

theorem PathFails.stretchFails {laws : StoreLaws σ} {error : Error} {oversized : Prop}
    (failed : PathFails laws oversized (([] : List Nat).length + maxTreeLevel) error state) :
    StretchFails laws oversized error state :=
  failed.resolve_right fun full => absurd full.1 (by decide)

theorem insertRetiring_beside (lawful : LawfulCodec codec) (entry : Entry codec)
    (owns : laws.Owns state heap) (wellFormed : WellFormed laws.toStoreLaws heap root entries pages)
    (framed : ∀ address, frame address = if address ∈ pages then none else heap address) :
    Ensures (insertRetiring codec root entry.cell) state
      (fun result reached => (result.1 = true ↔
          entry.key ∉ entries.map Entry.key ∨ ¬ HasRoom heap pages entry) ∧
        Beside laws codec frame result.2 (splice entry.key [entry.item] (entries.map Entry.item))
          reached)
      (StretchFails laws.toStoreLaws (Bulky codec entry.cell)) := by
  rw [insertRetiring, ensures_bind]
  refine (insert_opens laws.toStoreLaws lawful owns wellFormed entry).mono ?_
    fun error _ failed => failed.stretchFails
  rintro ⟨value, newRoot, retired⟩ reached ⟨added, gone, rfl, yields⟩
  rw [ensures_bind]
  refine (retire_beside wellFormed framed yields.yieldsTo.yields).impOr ?_
  intro _ final beside
  rw [ensures_pure]
  exact ⟨added, beside⟩

theorem deleteRetiring_beside (lawful : LawfulCodec codec) {key : Key}
    (present : key ∈ entries.map Entry.key) (owns : laws.Owns state heap)
    (wellFormed : WellFormed laws.toStoreLaws heap root entries pages)
    (framed : ∀ address, frame address = if address ∈ pages then none else heap address) :
    Ensures (deleteRetiring codec root key) state
      (fun result reached => Beside laws codec frame result
        (splice key [] (entries.map Entry.item)) reached)
      (StretchFails laws.toStoreLaws False) := by
  rw [deleteRetiring, ensures_bind]
  refine (deleteExisting_opens laws.toStoreLaws lawful owns wellFormed key).mono ?_
    fun error _ failed =>
      (failed.resolve_right fun missing => missing.1 (keys_of_items entries ▸ present)).stretchFails
  rintro ⟨value, newRoot, retired⟩ reached ⟨-, gone, rfl, yields⟩
  rw [ensures_bind]
  refine (retire_beside wellFormed framed yields.yieldsTo.yields).impOr ?_
  intro _ final beside
  rw [ensures_pure]
  exact beside

end Client

end FixedTree

end IpRange
