import IpRange.Library.SpanMap

/-!
Sweeping two span maps together. The sweep emits intervals in order; what it has
not emitted yet is the rest of one map and a piece of the other.
-/

namespace IpRange

open List

/-- An interval of a sweep: what both maps hold on it, and the value it was given. -/
structure Emission (κ ν μ : Type) where
  from_ : κ
  to_ : κ
  old : Option ν
  incoming : Option μ
  new : Option ν
deriving DecidableEq, Repr

section Sweep

variable {κ ν μ : Type} [LinearOrder κ]

def Emission.Covers (emission : Emission κ ν μ) (address : κ) : Prop :=
  emission.from_ ≤ address ∧ address ≤ emission.to_

instance (emission : Emission κ ν μ) (address : κ) : Decidable (emission.Covers address) :=
  inferInstanceAs (Decidable (_ ∧ _))

/-- Spans in order that do not overlap; neighbours of one value may stay apart. -/
structure Separate (map : List (Span κ ν)) : Prop where
  ordered : map.Pairwise fun earlier later => earlier.to_ < later.from_
  proper : ∀ span ∈ map, span.from_ ≤ span.to_

variable {map others : List (Span κ ν)} {address : κ} {left : Option (Span κ ν)}
  {log : List (Emission κ ν μ)} {emission : Emission κ ν μ}

theorem Canonical.separate (canonical : Canonical map) : Separate map :=
  ⟨canonical.ordered.imp And.left, canonical.proper⟩

theorem Separate.tail {old : Span κ ν} (separate : Separate (old :: others)) : Separate others :=
  ⟨separate.ordered.of_cons, fun span member => separate.proper span (mem_cons_of_mem _ member)⟩

theorem Separate.before {old : Span κ ν} (separate : Separate (old :: others)) :
    ∀ span ∈ others, old.to_ < span.from_ := (pairwise_cons.mp separate.ordered).1

theorem valueAt_singleton (span : Span κ ν) (address : κ) :
    valueAt [span] address = if span.Covers address then some span.value else none :=
  valueAt_cons span [] address

theorem valueAt_before (before : ∀ span ∈ map, address < span.from_) : valueAt map address = none :=
  valueAt_eq_none.mpr fun span member covers => absurd (before span member) (not_lt.mpr covers.1)

def Remainder (span : Span κ ν) (end_ : κ) (left : Option (Span κ ν)) : Prop :=
  (span.to_ = end_ ∧ left = none) ∨
    end_ < span.to_ ∧ ∃ next, end_ ⋖ next ∧ left = some { span with from_ := next }

theorem Remainder.valueAt_eq {span : Span κ ν} {end_ : κ} (remainder : Remainder span end_ left)
    (address : κ) (outside : ¬ (span.from_ ≤ address ∧ address ≤ end_)) (low : span.from_ ≤ end_) :
    valueAt left.toList address = valueAt [span] address := by
  rw [valueAt_singleton]
  rcases remainder with ⟨rfl, rfl⟩ | ⟨_, next, near, rfl⟩
  · rw [if_neg (show ¬ span.Covers address from outside)]
    rfl
  · have same : ({ span with from_ := next } : Span κ ν).Covers address ↔ span.Covers address := by
      constructor
      · exact fun covers => ⟨le_trans low (le_trans near.lt.le covers.1), covers.2⟩
      · intro covers
        refine ⟨near.ge_of_gt (not_le.mp fun below => outside ⟨covers.1, below⟩), covers.2⟩
    simp only [Option.toList_some, valueAt_singleton, same]

theorem Remainder.past {span : Span κ ν} {end_ : κ} (remainder : Remainder span end_ left) :
    ∀ part ∈ left, end_ < part.from_ ∧ part.from_ ≤ part.to_ ∧ part.to_ = span.to_ := by
  intro part member
  rcases remainder with ⟨_, rfl⟩ | ⟨more, next, near, rfl⟩
  · cases member
  · cases member
    exact ⟨near.lt, near.ge_of_gt more, rfl⟩

/-- A sweep over `f` and `g`: off the emitted intervals they are what the rest of the one map
and the current piece of the other still hold. -/
structure Swept (f : κ → Option ν) (g : κ → Option μ) (rest : List (Span κ ν))
    (piece : Option (Span κ μ)) (log : List (Emission κ ν μ)) : Prop where
  ordered : log.Pairwise fun earlier later => earlier.to_ < later.from_
  proper : ∀ emission ∈ log, emission.from_ ≤ emission.to_
  filled : ∀ emission ∈ log, emission.old ≠ none ∨ emission.incoming ≠ none
  logged : ∀ emission ∈ log, ∀ address, emission.Covers address →
    emission.old = f address ∧ emission.incoming = g address
  ahead : ∀ address, (∀ emission ∈ log, ¬ emission.Covers address) →
    f address = valueAt rest address ∧ g address = valueAt piece.toList address
  behind : ∀ emission ∈ log, (∀ span ∈ rest, emission.to_ < span.from_) ∧
    ∀ span ∈ piece, emission.to_ < span.from_
  restSeparate : Separate rest
  pieceProper : ∀ span ∈ piece, span.from_ ≤ span.to_

namespace Swept

variable {f : κ → Option ν} {g : κ → Option μ} {rest later : List (Span κ ν)}
  {piece further : Option (Span κ μ)} {log : List (Emission κ ν μ)} {emission : Emission κ ν μ}

theorem emit (swept : Swept f g rest piece log) (proper : emission.from_ ≤ emission.to_)
    (follows : ∀ earlier ∈ log, earlier.to_ < emission.from_)
    (here : ∀ address, emission.Covers address →
      valueAt rest address = emission.old ∧ valueAt piece.toList address = emission.incoming)
    (filled : emission.old ≠ none ∨ emission.incoming ≠ none)
    (elsewhere : ∀ address, ¬ emission.Covers address → valueAt later address = valueAt rest address ∧
      valueAt further.toList address = valueAt piece.toList address)
    (past : ∀ span ∈ later, emission.to_ < span.from_)
    (pastPiece : ∀ span ∈ further, emission.to_ < span.from_) (separate : Separate later)
    (pieceProper : ∀ span ∈ further, span.from_ ≤ span.to_) :
    Swept f g later further (log ++ [emission]) := by
  refine ⟨?_, ?_, ?_, ?_, ?_, ?_, separate, pieceProper⟩
  · refine pairwise_append.mpr ⟨swept.ordered, pairwise_singleton _ _, ?_⟩
    intro earlier member last isLast
    rw [mem_singleton.mp isLast]
    exact follows earlier member
  · intro other member
    rcases mem_append.mp member with earlier | last
    · exact swept.proper other earlier
    · rw [mem_singleton.mp last]
      exact proper
  · intro other member
    rcases mem_append.mp member with earlier | last
    · exact swept.filled other earlier
    · rw [mem_singleton.mp last]
      exact filled
  · intro other member address covers
    rcases mem_append.mp member with earlier | last
    · exact swept.logged other earlier address covers
    · rw [mem_singleton.mp last] at covers ⊢
      have fresh : ∀ earlier ∈ log, ¬ earlier.Covers address := fun earlier isEarlier both =>
        absurd (lt_of_le_of_lt both.2 (follows earlier isEarlier)) (not_lt.mpr covers.1)
      obtain ⟨old, incoming⟩ := here address covers
      obtain ⟨isOld, isIncoming⟩ := swept.ahead address fresh
      exact ⟨old.symm.trans isOld.symm, incoming.symm.trans isIncoming.symm⟩
  · intro address free
    obtain ⟨isOld, isIncoming⟩ := swept.ahead address fun earlier member =>
      free earlier (mem_append_left _ member)
    obtain ⟨old, incoming⟩ := elsewhere address (free emission (by simp))
    exact ⟨isOld.trans old.symm, isIncoming.trans incoming.symm⟩
  · intro other member
    rcases mem_append.mp member with earlier | last
    · have before := lt_of_lt_of_le (follows other earlier) proper
      exact ⟨fun span inLater => lt_trans before (past span inLater),
        fun span inFurther => lt_trans before (pastPiece span inFurther)⟩
    · rw [mem_singleton.mp last]
      exact ⟨past, pastPiece⟩

variable {old : Span κ ν} {others : List (Span κ ν)} {inc : Span κ μ} {end_ : κ} (new : Option ν)

theorem emit_old (swept : Swept f g (old :: others) piece log)
    (clear : ∀ span ∈ piece, old.to_ < span.from_) :
    Swept f g others piece (log ++ [⟨old.from_, old.to_, some old.value, none, new⟩]) := by
  have separate := swept.restSeparate
  refine swept.emit (separate.proper old (by simp)) (fun earlier member =>
    (swept.behind earlier member).1 old (by simp)) ?_ (Or.inl (by simp)) ?_ separate.before clear
    separate.tail swept.pieceProper
  · intro address covers
    have inside : old.Covers address := covers
    refine ⟨by rw [valueAt_cons, if_pos inside], valueAt_before fun span member => ?_⟩
    exact lt_of_le_of_lt covers.2 (clear span (by simpa using member))
  · intro address outside
    have off : ¬ old.Covers address := outside
    exact ⟨by rw [valueAt_cons, if_neg off], rfl⟩

theorem emit_piece (swept : Swept f g rest (some inc) log)
    (clear : ∀ span ∈ rest, inc.to_ < span.from_) :
    Swept f g rest none (log ++ [⟨inc.from_, inc.to_, none, some inc.value, new⟩]) := by
  refine swept.emit (swept.pieceProper inc rfl) (fun earlier member =>
    (swept.behind earlier member).2 inc rfl) ?_ (Or.inr (by simp)) ?_ clear (by simp)
    swept.restSeparate (by simp)
  · intro address covers
    refine ⟨valueAt_before fun span member => lt_of_le_of_lt covers.2 (clear span member), ?_⟩
    exact (valueAt_singleton inc address).trans (if_pos covers)
  · intro address outside
    exact ⟨rfl, ((valueAt_singleton inc address).trans (if_neg outside)).symm⟩

section

variable (swept : Swept f g (old :: others) (some inc) log)

include swept

theorem emit_old_head (starts : old.from_ < inc.from_)
    (reaches : inc.from_ ≤ old.to_) (near : end_ ⋖ inc.from_) :
    Swept f g ({ old with from_ := inc.from_ } :: others) (some inc)
      (log ++ [⟨old.from_, end_, some old.value, none, new⟩]) := by
  have separate := swept.restSeparate
  have low : old.from_ ≤ end_ := near.le_of_lt starts
  refine swept.emit low (fun earlier member => (swept.behind earlier member).1 old (by simp)) ?_
    (Or.inl (by simp)) ?_ ?_ ?_ ⟨?_, ?_⟩ swept.pieceProper
  · intro address covers
    have below : address < inc.from_ := lt_of_le_of_lt covers.2 near.lt
    have inside : old.Covers address := ⟨covers.1, le_trans below.le reaches⟩
    refine ⟨by rw [valueAt_cons, if_pos inside], valueAt_before fun span member => ?_⟩
    rw [mem_singleton.mp member]
    exact below
  · intro address outside
    refine ⟨?_, rfl⟩
    rw [valueAt_cons, valueAt_cons]
    have same : ({ old with from_ := inc.from_ } : Span κ ν).Covers address ↔ old.Covers address := by
      constructor
      · exact fun covers => ⟨le_trans starts.le covers.1, covers.2⟩
      · intro covers
        refine ⟨not_lt.mp fun below => outside ⟨covers.1, near.le_of_lt below⟩, covers.2⟩
    simp only [same]
  · intro span member
    rcases mem_cons.mp member with rfl | later
    · exact near.lt
    · exact lt_of_lt_of_le near.lt (le_trans reaches (separate.before span later).le)
  · intro span member
    cases member
    exact near.lt
  · exact pairwise_cons.mpr ⟨separate.before, separate.tail.ordered⟩
  · intro span member
    rcases mem_cons.mp member with rfl | later
    · exact reaches
    · exact separate.tail.proper span later

theorem emit_piece_head
    (starts : inc.from_ < old.from_) (reaches : old.from_ ≤ inc.to_) (near : end_ ⋖ old.from_) :
    Swept f g (old :: others) (some { inc with from_ := old.from_ })
      (log ++ [⟨inc.from_, end_, none, some inc.value, new⟩]) := by
  have separate := swept.restSeparate
  have low : inc.from_ ≤ end_ := near.le_of_lt starts
  have all : ∀ span ∈ old :: others, old.from_ ≤ span.from_ := by
    intro span member
    rcases mem_cons.mp member with rfl | later
    · exact le_rfl
    · exact le_trans (separate.proper old (by simp)) (separate.before span later).le
  refine swept.emit low (fun earlier member => (swept.behind earlier member).2 inc rfl) ?_
    (Or.inr (by simp)) ?_ ?_ ?_ separate ?_
  · intro address covers
    have below : address < old.from_ := lt_of_le_of_lt covers.2 near.lt
    have inside : inc.Covers address := ⟨covers.1, le_trans below.le reaches⟩
    refine ⟨valueAt_before fun span member => lt_of_lt_of_le below (all span member), ?_⟩
    exact (valueAt_singleton inc address).trans (if_pos inside)
  · intro address outside
    refine ⟨rfl, ?_⟩
    have same : ({ inc with from_ := old.from_ } : Span κ μ).Covers address ↔ inc.Covers address := by
      constructor
      · exact fun covers => ⟨le_trans starts.le covers.1, covers.2⟩
      · intro covers
        refine ⟨not_lt.mp fun below => outside ⟨covers.1, near.le_of_lt below⟩, covers.2⟩
    simp only [Option.toList_some, valueAt_singleton, same]
  · exact fun span member => lt_of_lt_of_le near.lt (all span member)
  · intro span member
    cases member
    exact near.lt
  · intro span member
    cases member
    exact reaches

theorem emit_both {leftOld : Option (Span κ ν)} {leftInc : Option (Span κ μ)} (same : old.from_ = inc.from_)
    (low : old.from_ ≤ end_) (inOld : end_ ≤ old.to_) (inInc : end_ ≤ inc.to_)
    (cutOld : Remainder old end_ leftOld) (cutInc : Remainder inc end_ leftInc) :
    Swept f g (leftOld.toList ++ others) leftInc
      (log ++ [⟨old.from_, end_, some old.value, some inc.value, new⟩]) := by
  have separate := swept.restSeparate
  refine swept.emit low (fun earlier member => (swept.behind earlier member).1 old (by simp)) ?_
    (Or.inl (by simp)) ?_ ?_ (fun part member => (cutInc.past part member).1) ⟨?_, ?_⟩
    (fun part member => (cutInc.past part member).2.1)
  · intro address covers
    have inside : old.Covers address := ⟨covers.1, le_trans covers.2 inOld⟩
    have insideInc : inc.Covers address := ⟨same ▸ covers.1, le_trans covers.2 inInc⟩
    exact ⟨by rw [valueAt_cons, if_pos inside], (valueAt_singleton inc address).trans (if_pos insideInc)⟩
  · intro address outside
    refine ⟨?_, cutInc.valueAt_eq address (same ▸ outside) (same ▸ low)⟩
    rw [valueAt_append, cutOld.valueAt_eq address outside low, ← valueAt_append]
    rfl
  · intro span member
    rcases mem_append.mp member with isLeft | later
    · exact (cutOld.past span (by simpa using isLeft)).1
    · exact lt_of_le_of_lt inOld (separate.before span later)
  · refine pairwise_append.mpr ⟨?_, separate.tail.ordered, ?_⟩
    · cases leftOld with
      | none => exact List.Pairwise.nil
      | some part => exact pairwise_singleton _ _
    · intro part isLeft span later
      rw [(cutOld.past part (by simpa using isLeft)).2.2]
      exact separate.before span later
  · intro span member
    rcases mem_append.mp member with isLeft | later
    · exact (cutOld.past span (by simpa using isLeft)).2.1
    · exact separate.tail.proper span later

end

theorem start {olds : List (Span κ ν)} (separate : Separate olds) :
    Swept (valueAt olds) (valueAt ([] : List (Span κ μ))) olds none [] where
  ordered := List.Pairwise.nil
  proper := by simp
  filled := by simp
  logged := by simp
  ahead _ _ := ⟨rfl, rfl⟩
  behind := by simp
  restSeparate := separate
  pieceProper := by simp

theorem next {inputs : List (Span κ μ)} (swept : Swept f (valueAt inputs) rest none log)
    (proper : inc.from_ ≤ inc.to_) (past : ∀ emission ∈ log, emission.to_ < inc.from_) :
    Swept f (valueAt (inputs ++ [inc])) rest (some inc) log where
  ordered := swept.ordered
  proper := swept.proper
  filled := swept.filled
  logged := by
    intro emission member address covers
    obtain ⟨old, incoming⟩ := swept.logged emission member address covers
    have off : ¬ inc.Covers address := fun inside =>
      absurd (lt_of_le_of_lt covers.2 (past emission member)) (not_lt.mpr inside.1)
    refine ⟨old, ?_⟩
    rw [incoming, valueAt_append, valueAt_singleton, if_neg off]
    simp
  ahead := by
    intro address free
    obtain ⟨old, incoming⟩ := swept.ahead address free
    have nothing : valueAt inputs address = none := incoming
    refine ⟨old, ?_⟩
    rw [valueAt_append, nothing]
    rfl
  behind := fun emission member => ⟨(swept.behind emission member).1, by
    rintro span ⟨⟩
    exact past emission member⟩
  restSeparate := swept.restSeparate
  pieceProper := by
    rintro span ⟨⟩
    exact proper

theorem covered (swept : Swept f g [] none log) (address : κ) :
    (∃ emission ∈ log, emission.Covers address) ↔ f address ≠ none ∨ g address ≠ none := by
  constructor
  · rintro ⟨emission, member, covers⟩
    obtain ⟨old, incoming⟩ := swept.logged emission member address covers
    rw [← old, ← incoming]
    exact swept.filled emission member
  · intro held
    by_contra free
    obtain ⟨old, incoming⟩ := swept.ahead address fun emission member covers =>
      free ⟨emission, member, covers⟩
    rcases held with some_ | some_
    · exact some_ old
    · exact some_ incoming

end Swept

def newAt (log : List (Emission κ ν μ)) (address : κ) : Option ν :=
  (log.find? fun emission => decide (emission.Covers address)).bind Emission.new

theorem newAt_concat (follows : ∀ earlier ∈ log, earlier.to_ < emission.from_) (address : κ) :
    newAt (log ++ [emission]) address =
      if emission.Covers address then emission.new else newAt log address := by
  unfold newAt
  rw [find?_append]
  by_cases covers : emission.Covers address
  · have fresh : log.find? (fun emission => decide (emission.Covers address)) = none := by
      rw [find?_eq_none]
      intro earlier member both
      have inside : earlier.Covers address := of_decide_eq_true both
      exact absurd (lt_of_le_of_lt inside.2 (follows earlier member)) (not_lt.mpr covers.1)
    rw [fresh]
    simp [covers]
  · simp [covers]

theorem newAt_of_mem (ordered : log.Pairwise fun earlier later => earlier.to_ < later.from_)
    (member : emission ∈ log) (covers : emission.Covers address) :
    newAt log address = emission.new := by
  induction log with
  | nil => cases member
  | cons first rest ih =>
    obtain ⟨before, later⟩ := pairwise_cons.mp ordered
    rcases mem_cons.mp member with rfl | inRest
    · simp [newAt, covers]
    · have off : ¬ first.Covers address := fun inside =>
        absurd (lt_of_le_of_lt inside.2 (before emission inRest)) (not_lt.mpr covers.1)
      have found := ih later inRest
      unfold newAt at found ⊢
      rw [find?_cons_of_neg (by simpa using off)]
      exact found

theorem newAt_eq_none (free : ∀ emission ∈ log, ¬ emission.Covers address) :
    newAt log address = none := by
  have nothing : log.find? (fun emission => decide (emission.Covers address)) = none :=
    find?_eq_none.mpr fun emission member => by simpa using free emission member
  rw [newAt, nothing]
  rfl

end Sweep

end IpRange
