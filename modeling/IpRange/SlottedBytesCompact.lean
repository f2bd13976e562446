import Mathlib.Data.List.Nodup
import IpRange.SlottedBytes

/-!
Dropping records of a stored page: the kept ones are moved against the page end
one by one, from the last towards the first.
-/

namespace IpRange.SlottedBytes

open List

open SlottedPage (Header payload usedBytes filledHeader)
open MappedPage
open PageHeader

variable {identity : Identity} {header : Header} {page : MappedPage}
  {fail : Error → MappedPage → Prop} {cells : List Bytes} {physical : List (Bytes × Nat)}
  {lower start : Nat} {output : Nat → Option Nat}

def compactPlaced (output : Nat → Option Nat) :
    Nat → List (Bytes × Nat) → EStateM Error MappedPage Nat
  | _, [] => pure pageSize
  | start, (cell, index) :: rest => do
    let destination ← compactPlaced output (start + cell.length) rest
    compactRecord (output index) start cell.length destination

theorem compactFixed_eq {cellLen : Nat} (lengths : ∀ placed ∈ physical, placed.1.length = cellLen) :
    compactFixed output cellLen start (physical.map Prod.snd) = compactPlaced output start physical := by
  induction physical generalizing start with
  | nil => rfl
  | cons placed others ih =>
    have long := lengths placed (by simp)
    have shorter : ∀ other ∈ others, other.1.length = cellLen :=
      fun other member => lengths other (by simp [member])
    simp only [map_cons, compactFixed, compactPlaced, ih shorter, long]

theorem compactPlaced_congr {other : Nat → Option Nat}
    (same : ∀ placed ∈ physical, output placed.2 = other placed.2) :
    compactPlaced output start physical = compactPlaced other start physical := by
  induction physical generalizing start with
  | nil => rfl
  | cons placed others ih =>
    have here := same placed (by simp)
    simp only [compactPlaced, ih fun other member => same other (by simp [member]), here]

/-- The header and the bytes between the slots and `start` are untouched. -/
def Beneath (lower start : Nat) (page next : MappedPage) : Prop :=
  ∀ at_ count, at_ + count ≤ headerSize ∨ lower ≤ at_ ∧ at_ + count ≤ start →
    slice at_ count next.bytes = slice at_ count page.bytes

theorem compactPlaced_spec (chain : Chain page start physical pageSize) (above : lower ≤ start)
    (inside : ∀ placed ∈ reslot output physical, headerSize + placed.2 * 2 + 2 ≤ lower)
    (nodup : ((reslot output physical).map Prod.snd).Nodup) :
    Ensures (compactPlaced output start physical) page (fun destination next =>
      Beneath lower start page next ∧ start ≤ destination ∧
        Chain next destination (reslot output physical) pageSize) fail := by
  induction physical generalizing start with
  | nil => exact ⟨fun _ _ _ => rfl, le_of_eq chain, rfl⟩
  | cons placed others ih =>
    obtain ⟨cell, index⟩ := placed
    obtain ⟨_, stored, rest⟩ := chain
    have bytes : pageSize = 4096 := rfl
    rw [reslot_cons] at inside nodup ⊢
    rw [map_append, nodup_append] at nodup
    simp only [compactPlaced, ensures_bind]
    refine (ih rest (by omega) (fun placed member => inside placed (mem_append_right _ member))
      nodup.2.1).imp ?_
    rintro destination page1 ⟨beneath, reached, kept⟩
    have ends := kept.length_eq
    cases isKept : output index with
    | none =>
      simp only [compactRecord, ensures_pure, Option.map_none, Option.toList_none, nil_append]
      exact ⟨fun at_ count apart => beneath at_ count (by omega), by omega, kept⟩
    | some slot =>
      simp only [isKept, Option.map_some, Option.toList_some, singleton_append] at inside nodup ⊢
      have here := inside (cell, slot) mem_cons_self
      simp only [compactRecord, ensures_bind, ensures_pure] at here ⊢
      refine ensures_copyWithin _ (by omega) (by omega) fun page2 moved2 outside2 => ?_
      refine ensures_putSlot _ (by omega) (by omega) fun page3 slotted outside3 =>
        ⟨fun at_ count apart => ?_, by omega, slotted, ?_, ?_⟩
      · rw [outside3 at_ count (by omega), outside2 at_ count (by omega),
          beneath at_ count (by omega)]
      · rw [outside3 _ _ (by omega), moved2 _ start _ le_rfl le_rfl (by omega),
          beneath _ _ (by omega), stored]
      · rw [show destination - cell.length + cell.length = destination by omega]
        refine kept.shift (fun placed member => ?_)
          ((outside2.moved (by omega)).trans (outside3.moved (by omega))) (Nat.add_comm _ _)
        have other := nodup.2.2 slot (by simp) placed.2 (mem_map_of_mem member)
        have below := inside placed (mem_cons_of_mem _ member)
        rw [outside3.slot (by omega), outside2.slot (by omega)]

/-- The total length of the records does not depend on the order they lie in. -/
theorem payload_placed (nodup : (physical.map Prod.snd).Nodup)
    (placed : ∀ cell slot, (cell, slot) ∈ physical ↔ cells[slot]? = some cell) :
    payload (physical.map Prod.fst) = payload cells := by
  have indices : (cells.zipIdx.map Prod.snd).Nodup := by
    rw [zipIdx_map_snd]
    exact nodup_range'
  have same : physical.Perm cells.zipIdx :=
    (perm_ext_iff_of_nodup nodup.of_map indices.of_map).mpr fun placing => by
      rw [placed placing.1 placing.2, mem_zipIdx_iff_getElem?]
  have mapped := same.map Prod.fst
  rw [zipIdx_map_fst] at mapped
  exact (mapped.map List.length).sum_nat

section Finish

variable {first end_ : Nat}
  (arranged : Arranged identity (identity.header cells) cells physical page)
  (ordered : first ≤ end_) (inside : end_ ≤ cells.length)

include arranged ordered inside

theorem finishTruncate_spec {destination : Nat} {next : MappedPage}
    (beneath : Beneath (headerSize + cells.length * 2) (pageSize - payload cells) page next)
    (above : pageSize - payload cells ≤ destination)
    (chain : Chain next destination (reslot (afterRemoval first end_) physical) pageSize) :
    Ensures (finishTruncate (identity.header cells)
      (cells.length - (end_ - first)) destination) next (fun header last =>
        header = identity.header (cells.take first ++ cells.drop end_) ∧
        Laid identity (cells.take first ++ cells.drop end_) last) fail := by
  have bytes : pageSize = 4096 := rfl
  have room := arranged.room
  have counted := length_removed ordered inside
  have placed := arranged.mem_removed ordered inside
  have filled : ∀ cell ∈ cells.take first ++ cells.drop end_, cell ≠ [] :=
    filled_removed arranged.filled
  have nodup := chain.nodup fun other member =>
    filled other.1 (mem_of_getElem? ((placed other.1 other.2).mp member))
  have total := payload_placed nodup placed
  have ends := chain.length_eq
  have upper : destination = pageSize - payload (cells.take first ++ cells.drop end_) := by omega
  simp only [usedBytes] at room
  have headed := arranged.headed.congr fun at_ count below => beneath at_ count (Or.inl below)
  simp only [finishTruncate, ensures_bind, ensures_pure, filledHeader]
  refine ensures_zero _ (by omega) fun page1 cleared1 outside1 => ?_
  refine ensures_zero _ (by omega) fun page2 cleared2 outside2 => ?_
  refine ensures_putFields _ ((headed.keep outside1 (by omega)).keep outside2 (by omega)) (by omega)
    (by omega) (by omega) fun last headed3 outside3 => ⟨by rw [counted, upper],
      reslot (afterRemoval first end_) physical, ?_, by simp only [usedBytes]; omega, filled, placed,
      ?_, fun at_ least most => ?_⟩
  · simp only [filledHeader, counted, ← upper] at headed3 ⊢
    exact headed3
  · rw [← upper]
    refine chain.shift (fun other member => ?_) (((outside1.moved (by omega)).trans
      (outside2.moved (by omega))).trans (outside3.moved (by omega))) (Nat.add_comm _ _)
    have index := (List.getElem?_eq_some_iff.mp ((placed other.1 other.2).mp member)).choose
    rw [outside3.slot (by omega), outside2.slot (by omega), outside1.slot (by omega)]
  · rw [outside3 at_ 1 (by omega)]
    by_cases area : pageSize - payload cells ≤ at_
    · exact cleared2 at_ area (by omega)
    · rw [outside2 at_ 1 (by omega)]
      by_cases slots : at_ < headerSize + cells.length * 2
      · exact cleared1 at_ (by omega) (by omega)
      · rw [outside1 at_ 1 (by omega), beneath at_ 1 (by omega)]
        exact arranged.cleared at_ (by omega) (by omega)

theorem compacted_spec (fail : Error → MappedPage → Prop) :
    Ensures (do
      let destination ← compactPlaced (afterRemoval first end_) (pageSize - payload cells) physical
      finishTruncate (identity.header cells) (cells.length - (end_ - first))
        destination) page (fun header last =>
        header = identity.header (cells.take first ++ cells.drop end_) ∧
        Laid identity (cells.take first ++ cells.drop end_) last) fail := by
  have room := arranged.room
  have counted := length_removed ordered inside
  have placed := arranged.mem_removed ordered inside
  simp only [usedBytes] at room
  refine Ensures.bind (compactPlaced_spec arranged.chain
    (show headerSize + cells.length * 2 ≤ pageSize - payload cells by omega) ?_ ?_) ?_
  · intro other member
    have index := (List.getElem?_eq_some_iff.mp ((placed other.1 other.2).mp member)).choose
    omega
  · have slots : (reslot (afterRemoval first end_) physical).map Prod.snd =
        (physical.map Prod.snd).filterMap (afterRemoval first end_) := by
      simp only [reslot, map_filterMap, filterMap_map, Option.map_map]
      congr 1
      funext other
      simp
    rw [slots]
    refine (arranged.chain.nodup arranged.nonempty).filterMap fun left right slot isLeft isRight => ?_
    simp only [afterRemoval, Option.mem_def] at isLeft isRight
    grind
  · rintro destination next ⟨beneath, above, chain⟩
    exact finishTruncate_spec arranged ordered inside beneath above chain

end Finish

/-! Equally long records: the physical position of each slot. -/

section Fixed

variable {cellLen : Nat}

def placedBelow (physical : List (Bytes × Nat)) (logical : Nat) : List Nat :=
  physical.map fun placed => if placed.2 < logical then placed.2 else unclaimed

section Positions

variable (arranged : Arranged identity header cells physical page) (positive : 0 < cellLen)
  (lengths : ∀ cell ∈ cells, cell.length = cellLen)

include arranged positive lengths

theorem placeLogical_eq {logical : Nat} (inside : logical < cells.length) :
    placeLogical page (identity.header cells) cellLen logical
      (placedBelow physical logical) = .ok (placedBelow physical (logical + 1)) := by
  obtain ⟨front, back, rfl⟩ := append_of_mem ((arranged.placed _ _).mpr (getElem?_eq_getElem inside))
  have others := arranged.other
  have upper := (header_fields identity cells).2.2
  have front_eq : payload (front.map Prod.fst) = front.length * cellLen := by
    rw [SlottedPage.payload_fixed _ cellLen, length_map]
    intro cell member
    obtain ⟨placed, isPlaced, rfl⟩ := mem_map.mp member
    exact lengths _ (mem_of_getElem? ((arranged.placed placed.1 placed.2).mp (by simp [isPlaced])))
  have offset : page.slot logical - (pageSize - payload cells) =
      front.length * cellLen := by
    rw [(arranged.around rfl).1, front_eq]
    omega
  have low := (arranged.around rfl).1
  have free : (placedBelow (front ++ (cells[logical], logical) :: back) logical)[front.length]? =
      some unclaimed := by
    simp [placedBelow]
  have claimed : (placedBelow (front ++ (cells[logical], logical) :: back) logical).set front.length
      logical = placedBelow (front ++ (cells[logical], logical) :: back) (logical + 1) := by
    have same : ∀ list : List (Bytes × Nat), (∀ placed ∈ list, placed ∈ front ++ back) →
        list.map (fun placed => if placed.2 < logical then placed.2 else unclaimed) =
          list.map fun placed => if placed.2 < logical + 1 then placed.2 else unclaimed := by
      refine fun list part => map_congr_left fun placed member => ?_
      have different := others placed (part placed member)
      split <;> split <;> first | rfl | omega
    simp only [placedBelow, map_append, map_cons, same front fun _ => mem_append_left _,
      same back fun _ => mem_append_right _]
    rw [set_append_right _ _ (by simp)]
    simp
  simp only [placeLogical, slotStart_eq _ inside, bind, Except.bind, upper, offset]
  rw [if_neg (by omega), if_neg (by simp), Nat.mul_div_cancel _ positive, free]
  simp only [bne_self_eq_false, Bool.false_eq_true, if_false, claimed]

theorem placeAll_eq {logical left : Nat} (count : logical + left = cells.length) :
    placeAll page (identity.header cells) cellLen logical left
      (placedBelow physical logical) = .ok (placedBelow physical cells.length) := by
  induction left generalizing logical with
  | zero =>
    rw [← count, Nat.add_zero]
    rfl
  | succ left ih =>
    have inside : logical < cells.length := by omega
    simp only [placeAll, placeLogical_eq arranged positive lengths inside, bind, Except.bind]
    exact ih (show logical + 1 + left = cells.length by omega)

theorem fixedPositions_eq :
    fixedPositions page (identity.header cells) cellLen =
      .ok (physical.map Prod.snd) := by
  have room := arranged.room
  have total := SlottedPage.payload_fixed cells cellLen lengths
  obtain ⟨counted, -, upper⟩ := header_fields identity cells
  have initial : List.replicate cells.length unclaimed = placedBelow physical 0 := by
    have same := arranged.indices.length_eq
    rw [length_map, length_range] at same
    simp [placedBelow, ← same]
  have final : placedBelow physical cells.length = physical.map Prod.snd :=
    map_congr_left fun placed member => if_pos (arranged.inside member)
  have none : (physical.map Prod.snd).contains unclaimed = false := by
    rw [contains_eq_mem, decide_eq_false_iff_not]
    intro member
    have index := mem_range.mp (arranged.indices.mem_iff.mp member)
    simp only [unclaimed, usedBytes, pageSize] at index room
    omega
  simp only [usedBytes] at room
  unfold fixedPositions
  rw [counted, upper, if_neg (by simp; omega), if_neg (by
    simp only [maxSlotCount, pageSize, headerSize] at room ⊢
    omega), initial]
  simp only [placeAll_eq arranged positive lengths (Nat.zero_add _), bind, Except.bind, final, none,
    Bool.false_eq_true, if_false]

end Positions

theorem removeFixedRange_spec {first count : Nat} (laid : Laid identity cells page)
    (lengths : ∀ cell ∈ cells, cell.length = cellLen) (positive : 0 < cellLen) (some_ : 0 < count)
    (inside : first + count ≤ cells.length) (several : count < cells.length) :
    Ensures (removeFixedRange (identity.header cells) first count cellLen) page
      (fun header next =>
        header = identity.header (cells.take first ++ cells.drop (first + count)) ∧
        Laid identity (cells.take first ++ cells.drop (first + count)) next) fail := by
  obtain ⟨physical, arranged⟩ := laid
  have fixed : ∀ placed ∈ physical, placed.1.length = cellLen := fun placed member =>
    lengths _ (mem_of_getElem? ((arranged.placed _ _).mp member))
  have counted := (header_fields identity cells).1
  unfold removeFixedRange
  rw [counted, if_neg (by simp; omega)]
  simp only [ensures_bind, ensures_get, fixedPositions_eq arranged positive lengths,
    ensures_liftResult_ok, compactFixed_eq fixed]
  simp only [← ensures_bind]
  have compacted := compacted_spec arranged (Nat.le_add_right first count) inside fail
  rw [Nat.add_sub_cancel_left] at compacted
  exact compacted

variable {keep : Nat}

theorem truncated_spec (inside : keep ≤ cells.length)
    (arranged : Arranged identity (identity.header cells) cells physical page) :
    Ensures (do
      let destination ← compactPlaced (keptSlot keep) (pageSize - payload cells) physical
      finishTruncate (identity.header cells) keep destination) page
      (fun header next => header = identity.header (cells.take keep) ∧
        Laid identity (cells.take keep) next) fail := by
  have same : compactPlaced (keptSlot keep) (pageSize - payload cells) physical =
      compactPlaced (afterRemoval keep cells.length) (pageSize - payload cells) physical := by
    refine compactPlaced_congr fun placed member => ?_
    have below := arranged.inside member
    unfold keptSlot afterRemoval
    split
    · rfl
    · rw [if_neg (by omega)]
  have compacted := compacted_spec arranged inside le_rfl fail
  rw [drop_length, append_nil,
    show cells.length - (cells.length - keep) = keep by omega] at compacted
  rw [same]
  exact compacted

theorem truncateFixed_spec (laid : Laid identity cells page)
    (lengths : ∀ cell ∈ cells, cell.length = cellLen) (positive : 0 < cellLen) (some_ : 0 < keep)
    (inside : keep ≤ cells.length) :
    Ensures (truncateFixed (identity.header cells) keep cellLen) page
      (fun header next => header = identity.header (cells.take keep) ∧
        Laid identity (cells.take keep) next) fail := by
  have counted := (header_fields identity cells).1
  unfold truncateFixed
  rw [counted, if_neg (by simp; omega)]
  split
  · next all =>
      rw [all, take_length]
      exact ⟨rfl, laid⟩
  · obtain ⟨physical, arranged⟩ := laid
    have fixed : ∀ placed ∈ physical, placed.1.length = cellLen := fun placed member =>
      lengths _ (mem_of_getElem? ((arranged.placed _ _).mp member))
    simp only [ensures_bind, ensures_get, fixedPositions_eq arranged positive lengths,
      ensures_liftResult_ok, compactFixed_eq fixed]
    simp only [← ensures_bind]
    exact truncated_spec inside arranged

end Fixed

/-! Records of any length: their order follows from where they start. -/

def startsOf (page : MappedPage) (physical : List (Bytes × Nat)) : List PhysicalRecord :=
  physical.map fun placed => { start := page.slot placed.2, index := placed.2 }

theorem startsDiffer_of_ascending {records : List PhysicalRecord}
    (ascending : records.Pairwise fun first second => first.start < second.start) :
    startsDiffer records = true := by
  induction records with
  | nil => rfl
  | cons first rest ih =>
    cases rest with
    | nil => rfl
    | cons second rest =>
      have apart := (pairwise_cons.mp ascending).1 second (by simp)
      simp only [startsDiffer, ih ascending.of_cons, Bool.and_true, bne_iff_ne]
      omega

theorem compactVarying_eq {keep : Nat} (chain : Chain page start physical pageSize) :
    compactVarying keep (startsOf page physical) = compactPlaced (keptSlot keep) start physical := by
  induction physical generalizing start with
  | nil => rfl
  | cons placed others ih =>
    obtain ⟨here, _, rest⟩ := chain
    have ends : endBefore (startsOf page others) = start + placed.1.length := by
      cases others with
      | nil => exact Eq.symm rest
      | cons next rest' => exact rest.1
    have later := ih rest
    simp only [startsOf] at later ends ⊢
    simp only [map_cons, compactVarying, compactPlaced, later, ends, here, Nat.add_sub_cancel_left]

theorem mapM_ok {ε α β : Type} (list : List α) (f : α → Except ε β) (g : α → β)
    (maps : ∀ value ∈ list, f value = .ok (g value)) : list.mapM f = .ok (list.map g) := by
  induction list with
  | nil => rfl
  | cons value rest ih =>
    simp only [mapM_cons, maps value (by simp), ih fun other member => maps other (by simp [member]),
      bind, Except.bind, pure, Except.pure, map_cons]

section Varying

variable (arranged : Arranged identity header cells physical page)

include arranged

theorem physicalRecord_eq {index : Nat} (inside : index < cells.length) :
    physicalRecord page (identity.header cells) index =
      .ok { start := page.slot index, index } := by
  have upper := (header_fields identity cells).2.2
  obtain ⟨low, high, _⟩ := arranged.stored (getElem?_eq_getElem inside)
  have positive := length_pos_iff.mpr (arranged.filled _ (getElem_mem inside))
  simp only [physicalRecord, slotStart_eq _ inside, bind, Except.bind]
  rw [if_neg (by simp only [Bool.or_eq_true, decide_eq_true_eq, upper]; omega)]

theorem startsOf_ascending :
    (startsOf page physical).Pairwise fun first second => first.start < second.start := by
  refine pairwise_map.mpr (arranged.chain.ascending.imp_of_mem fun {first} _ member _ apart => ?_)
  have positive := length_pos_iff.mpr (arranged.nonempty first member)
  show page.slot _ < page.slot _
  omega

theorem mergeSort_eq :
    ((List.range cells.length).map fun index =>
        ({ start := page.slot index, index } : PhysicalRecord)).mergeSort
        (fun first second => first.start ≤ second.start) = startsOf page physical := by
  have ascending := startsOf_ascending arranged
  have same : (startsOf page physical).Perm ((List.range cells.length).map fun index =>
      { start := page.slot index, index }) := by
    have mapped := arranged.indices.map fun index =>
      ({ start := page.slot index, index } : PhysicalRecord)
    rw [map_map] at mapped
    exact mapped
  have distinct : ((startsOf page physical).map PhysicalRecord.start).Nodup :=
    (pairwise_map.mpr ascending).imp fun less => Nat.ne_of_lt less
  have sorted := (mergeSort_perm _ fun first second : PhysicalRecord =>
    decide (first.start ≤ second.start)).trans same.symm
  refine List.Perm.eq_of_pairwise ?_ (pairwise_mergeSort ?_ ?_ _)
    (ascending.imp fun less => by simpa using le_of_lt less) sorted
  · intro first second isFirst isSecond low high
    simp only [decide_eq_true_eq] at low high
    exact inj_on_of_nodup_map distinct (sorted.mem_iff.mp isFirst) isSecond
      (le_antisymm low high)
  · intro first second third low high
    simp only [decide_eq_true_eq] at low high ⊢
    exact le_trans low high
  · intro first second
    simp only [Bool.or_eq_true, decide_eq_true_eq]
    exact le_total _ _

end Varying

theorem truncate_spec {keep : Nat} (laid : Laid identity cells page) (some_ : 0 < keep)
    (inside : keep ≤ cells.length) :
    Ensures (truncate (identity.header cells) keep) page
      (fun header next => header = identity.header (cells.take keep) ∧
        Laid identity (cells.take keep) next) fail := by
  obtain ⟨counted, -, upper⟩ := header_fields identity cells
  unfold truncate
  rw [counted, if_neg (by simp; omega)]
  split
  · next all =>
      rw [all, take_length]
      exact ⟨rfl, laid⟩
  · obtain ⟨physical, arranged⟩ := laid
    have room := arranged.room
    have held := mapM_ok (List.range cells.length)
      (physicalRecord page (identity.header cells)) _
      fun index member => physicalRecord_eq arranged (mem_range.mp member)
    have checked : checkStarts (identity.header cells) (startsOf page physical) =
        .ok () := by
      have differ := startsDiffer_of_ascending (startsOf_ascending arranged)
      have first : (startsOf page physical).head?.map (·.start) = some (pageSize - payload cells) := by
        have count := arranged.indices.length_eq
        have chain := arranged.chain
        cases physical with
        | nil =>
          simp only [map_nil, length_nil, length_range] at count
          omega
        | cons placed others => exact congrArg some chain.1
      unfold checkStarts
      rw [first, differ, upper]
      simp
    simp only [usedBytes] at room
    rw [if_neg (by simp only [maxSlotCount, pageSize, headerSize] at room ⊢; omega)]
    simp only [ensures_bind, ensures_get, held, ensures_liftResult_ok, mergeSort_eq arranged, checked,
      compactVarying_eq arranged.chain]
    simp only [← ensures_bind]
    exact truncated_spec inside arranged

end IpRange.SlottedBytes
