import IpRange.FixedTreeShape

/-!
A client's pages beside a frame: the pages it works on, and around them the pages
it holds but leaves alone. Part of the pages can be lent to the frame while an
operation works on the rest.
-/

namespace IpRange

open Function List

variable {σ : Type} [Store σ] (laws : StoreLaws σ)

structure Owning (frame : Heap) (pages : List Nat) (heap : Heap) (state : σ) : Prop where
  owns : laws.Owns state heap
  nodup : pages.Nodup
  held : ∀ address ∈ pages, heap address ≠ none
  framed : ∀ address, frame address = if address ∈ pages then none else heap address

namespace Owning

variable {laws} {frame heap : Heap} {pages extra : List Nat} {state : σ} {address : Nat}

section

variable (owning : Owning laws frame pages heap state)

include owning

theorem perm (same : extra.Perm pages) : Owning laws frame extra heap state where
  owns := owning.owns
  nodup := same.nodup_iff.mpr owning.nodup
  held address member := owning.held address (same.mem_iff.mp member)
  framed address := by
    rw [owning.framed]
    simp only [same.mem_iff]

theorem allocate :
    Ensures Store.allocate state (fun address reached => heap address = none ∧ ∃ page,
      laws.Writable page ∧
      Owning laws frame (address :: pages) (Function.update heap address (some page)) reached)
      laws.Fails := by
  refine (laws.allocate owning.owns).imp ?_
  rintro address reached ⟨unused, page, writable, owns⟩
  have outside : address ∉ pages := fun member => owning.held address member unused
  refine ⟨unused, page, writable, owns, nodup_cons.mpr ⟨outside, owning.nodup⟩, ?_, ?_⟩
  · intro other member
    by_cases same : other = address
    · rw [same, update_self]
      exact Option.some_ne_none _
    · rw [update_of_ne same]
      exact owning.held other ((mem_cons.mp member).resolve_left same)
  · intro other
    rw [owning.framed]
    by_cases same : other = address
    · simp [same, outside, unused]
    · simp [same]

variable {page : Page} {reached : σ}

theorem rewritten (member : address ∈ pages)
    (owns : laws.Owns reached (Function.update heap address (some page))) :
    Owning laws frame pages (Function.update heap address (some page)) reached where
  owns := owns
  nodup := owning.nodup
  held other inPages := by
    by_cases same : other = address
    · rw [same, update_self]
      exact Option.some_ne_none _
    · rw [update_of_ne same]
      exact owning.held other inPages
  framed other := by
    rw [owning.framed]
    by_cases same : other = address
    · rw [if_pos (same ▸ member), if_pos (same ▸ member)]
    · rw [update_of_ne same]

theorem update {α : Type} {next : Page} {value : α} {program : EStateM Error Page α}
    (member : address ∈ pages) (stored : heap address = some page) (writable : laws.Writable page)
    (run : program page = .ok value next) (owned : next.ownedBy laws.txn) :
    Ensures (Store.updatePage address program) state (fun result reached => result = value ∧
      Owning laws frame pages (Function.update heap address (some next)) reached) laws.Fails := by
  refine (laws.update owning.owns stored writable run owned).imp ?_
  rintro result reached ⟨rfl, owns⟩
  exact ⟨rfl, owning.rewritten member owns⟩

end

theorem removed (owning : Owning laws frame (address :: pages) heap state)
    (owns : laws.Owns reached (Function.update heap address none)) :
    Owning laws frame pages (Function.update heap address none) reached := by
  obtain ⟨outside, nodup⟩ := nodup_cons.mp owning.nodup
  refine ⟨owns, nodup, ?_, ?_⟩
  · intro other member
    have different : other ≠ address := fun same => outside (same ▸ member)
    rw [update_of_ne different]
    exact owning.held other (mem_cons_of_mem _ member)
  · intro other
    rw [owning.framed]
    by_cases same : other = address
    · simp [same]
    · simp [same]

theorem discard (owning : Owning laws frame (address :: pages) heap state)
    (stored : heap address = some page) (owned : page.ownedBy laws.txn) :
    Ensures (Store.discardPrivate address) state (fun _ reached =>
      Owning laws frame pages (Function.update heap address none) reached) laws.Fails :=
  (laws.discard owning.owns stored owned).imp fun _ _ owns => owning.removed owns

theorem lend (owning : Owning laws frame (pages ++ extra) heap state) :
    Owning laws (fun address => if address ∈ pages then none else heap address) pages heap state where
  owns := owning.owns
  nodup := (nodup_append.mp owning.nodup).1
  held address member := owning.held address (mem_append_left _ member)
  framed _ := rfl

theorem restore {after : Heap} {kept : List Nat}
    (owning : Owning laws frame (pages ++ extra) heap state)
    (later : Owning laws (fun address => if address ∈ pages then none else heap address) kept after
      reached) :
    Owning laws frame (kept ++ extra) after reached ∧
      ∀ address ∈ extra, address ∉ kept ∧ after address = heap address := by
  obtain ⟨_, extraNodup, apart⟩ := nodup_append.mp owning.nodup
  have lent : ∀ address ∈ extra, address ∉ kept ∧ after address = heap address := by
    intro address member
    have outside : address ∉ pages := fun inPages => apart address inPages address member rfl
    have held := owning.held address (mem_append_right _ member)
    have framed := later.framed address
    rw [if_neg outside] at framed
    by_cases inKept : address ∈ kept
    · rw [if_pos inKept] at framed
      exact absurd framed held
    · rw [if_neg inKept] at framed
      exact ⟨inKept, framed.symm⟩
  refine ⟨⟨later.owns, ?_, ?_, ?_⟩, lent⟩
  · rw [nodup_append]
    exact ⟨later.nodup, extraNodup, fun address inKept other inExtra same =>
      (lent other inExtra).1 (same ▸ inKept)⟩
  · intro address member
    rcases mem_append.mp member with inKept | inExtra
    · exact later.held address inKept
    · rw [(lent address inExtra).2]
      exact owning.held address (mem_append_right _ inExtra)
  · intro address
    have before := owning.framed address
    have now := later.framed address
    by_cases inExtra : address ∈ extra
    · simpa [inExtra] using before
    · by_cases inPages : address ∈ pages
      · rw [if_pos inPages] at now
        simp only [mem_append, inPages, true_or, if_true] at before
        by_cases inKept : address ∈ kept
        · simp [before, inKept]
        · rw [if_neg inKept] at now
          simp [before, inKept, inExtra, ← now]
      · rw [if_neg inPages] at now
        simp only [mem_append, inPages, inExtra, or_self, if_false] at before
        rw [before, now]
        simp [inExtra]

theorem frame_le (owning : Owning laws frame pages heap state) (stored : frame address = some page) :
    heap address = some page := by
  rw [owning.framed] at stored
  split at stored
  · cases stored
  · exact stored

end Owning

end IpRange
