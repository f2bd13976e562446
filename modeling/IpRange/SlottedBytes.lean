import IpRange.SlottedBytesCore
import IpRange.SlottedPage

/-!
What the edits of a stored slotted page do to the records it holds. A page lays out
a record list when its header is the list's, the records lie one after the other up
to the page end, in an order of their own and each where its slot says, and the bytes
between the slots and the records are zero.
-/

namespace IpRange

open List

namespace MappedPage

variable {page next last : MappedPage} {start size len source target value at_ from_ : Nat}
  {new : Bytes} {fail : Error → MappedPage → Prop}

/-- Only the `size` bytes from `start` on may differ. -/
def Outside (start size : Nat) (page next : MappedPage) : Prop :=
  ∀ at_ count, at_ + count ≤ start ∨ start + size ≤ at_ →
    slice at_ count next.bytes = slice at_ count page.bytes

/-- The `len` bytes from `target` on are those that were read from `source` on. -/
def Moved (source target len : Nat) (page next : MappedPage) : Prop :=
  ∀ at_ from_ count, source ≤ from_ → from_ + count ≤ source + len → at_ + source = from_ + target →
    slice at_ count next.bytes = slice from_ count page.bytes

def Cleared (page : MappedPage) (start end_ : Nat) : Prop :=
  ∀ at_, start ≤ at_ → at_ < end_ → slice at_ 1 page.bytes = [0]

theorem Outside.u16 (same : Outside start size page next)
    (apart : at_ + 2 ≤ start ∨ start + size ≤ at_) : next.u16 at_ = page.u16 at_ :=
  congrArg fromLeBytes (same at_ 2 apart)

variable {index : Nat}

theorem Outside.slot (same : Outside start size page next)
    (apart : headerSize + index * 2 + 2 ≤ start ∨ start + size ≤ headerSize + index * 2) :
    next.slot index = page.slot index :=
  same.u16 apart

theorem Moved.slot {renamed : Nat} (moved : Moved source target len page next)
    (low : source ≤ headerSize + index * 2) (high : headerSize + index * 2 + 2 ≤ source + len)
    (shift : headerSize + renamed * 2 + source = headerSize + index * 2 + target) :
    next.slot renamed = page.slot index :=
  congrArg fromLeBytes (moved _ _ 2 low high shift)

theorem Outside.moved (same : Outside start size page next)
    (apart : source + len ≤ start ∨ start + size ≤ source) : Moved source source len page next := by
  intro at_ from_ count low high shift
  obtain rfl : at_ = from_ := by omega
  exact same at_ count (by omega)

theorem Moved.trans {middle : Nat} (first : Moved source middle len page next)
    (second : Moved middle target len next last) : Moved source target len page last := by
  intro at_ from_ count low high shift
  rw [second at_ (from_ + middle - source) count (by omega) (by omega) (by omega)]
  exact first _ from_ count low high (by omega)

section

variable (post : Unit → MappedPage → Prop)

theorem ensures_overwrite (fits : start + new.length ≤ pageSize)
    (after : ∀ written : MappedPage, written.bytes = overwrite start new page.bytes →
      post () written) : Ensures (write start new) page post fail := by
  unfold Ensures write
  rw [dif_pos fits]
  exact after _ rfl

theorem ensures_write (fits : start + new.length ≤ pageSize)
    (after : ∀ written : MappedPage, slice start new.length written.bytes = new →
      Outside start new.length page written → post () written) :
    Ensures (write start new) page post fail := by
  have inside : start + new.length ≤ page.bytes.length := by rw [page.size]; exact fits
  refine ensures_overwrite post fits fun written bytes => after written ?_ fun at_ count apart => ?_
  · rw [bytes, slice_overwrite_of_inside inside le_rfl le_rfl, Nat.sub_self]
    simp [slice]
  · rw [bytes, slice_overwrite_of_apart inside apart]

theorem ensures_putU16 (fits : start + 2 ≤ pageSize)
    (small : value < 65536) (after : ∀ written : MappedPage, written.u16 start = value →
      Outside start 2 page written → post () written) :
    Ensures (putU16 start value) page post fail := by
  refine ensures_write post (by simpa using fits) fun written stored outside => ?_
  rw [toLeBytes_length] at stored outside
  exact after written ((congrArg fromLeBytes stored).trans
    (fromLeBytes_toLeBytes 2 value (by simpa using small))) outside

theorem ensures_putSlot
    (fits : headerSize + index * 2 + 2 ≤ pageSize) (small : value < 65536)
    (after : ∀ written : MappedPage, written.slot index = value →
      Outside (headerSize + index * 2) 2 page written → post () written) :
    Ensures (putU16 (headerSize + index * 2) value) page post fail :=
  ensures_putU16 post fits small after

theorem ensures_zero (fits : start + len ≤ pageSize)
    (after : ∀ written : MappedPage, Cleared written start (start + len) →
      Outside start len page written → post () written) :
    Ensures (zero start len) page post fail := by
  refine ensures_write post (by simpa using fits) fun written stored outside => ?_
  rw [length_replicate] at stored outside
  refine after written (fun at_ low high => ?_) outside
  have part := congrArg (slice (at_ - start) 1) stored
  rw [slice_slice (by omega), slice_replicate _ (by omega), show start + (at_ - start) = at_ by omega]
    at part
  exact part

theorem ensures_copyWithin (readable : source + len ≤ pageSize)
    (fits : target + len ≤ pageSize) (after : ∀ written : MappedPage,
      Moved source target len page written → Outside target len page written → post () written) :
    Ensures (copyWithin source target len) page post fail := by
  have size := page.size
  have long : (slice source len page.bytes).length = len := by
    simp only [slice, length_take, length_drop]
    omega
  simp only [copyWithin, ensures_bind, checkedSubrange, if_pos readable, if_pos fits,
    ensures_liftResult_ok, ensures_get]
  refine ensures_overwrite _ (by omega) fun written bytes => after written ?_ ?_
  · intro at_ from_ count low high shift
    rw [bytes, slice_overwrite_of_inside (by omega) (by omega) (by omega), slice_slice (by omega)]
    congr 1
    omega
  · intro at_ count apart
    rw [bytes, slice_overwrite_of_apart (by omega) (by omega)]

end

end MappedPage

namespace PageHeader

structure Identity where
  pageType : UInt8
  bornTxn : UInt64
  level : UInt16
  aux : UInt32
deriving DecidableEq, Repr

def frontBytes (identity : Identity) : Bytes :=
  toLeBytes 4 pageMagic ++ [identity.pageType, 0] ++ toLeBytes 2 headerSize ++
    toLeBytes 8 identity.bornTxn.toNat

def backBytes (identity : Identity) : Bytes := toLeBytes 4 identity.aux.toNat ++ List.replicate 4 0

end PageHeader

/-- The header an edited page of this identity has for its records. -/
abbrev PageHeader.Identity.header (identity : PageHeader.Identity) (cells : List Bytes) :
    SlottedPage.Header :=
  SlottedPage.filledHeader identity.level.toNat cells

namespace SlottedBytes

open SlottedPage (Header CellLayout shapeValid insertFits replaceFits payload usedBytes filledHeader)
open MappedPage
open PageHeader

variable {page next : MappedPage} {fail : Error → MappedPage → Prop}

/-- The 32 bytes of the header: the identity before and after the four fields edits rewrite. -/
structure Headed (identity : Identity) (header : Header) (page : MappedPage) : Prop where
  front : slice 0 itemCountAt page.bytes = frontBytes identity
  fields : rawHeader page = header
  back : slice auxAt 8 page.bytes = backBytes identity

variable {identity : Identity} {header : Header} {itemCount lower upper : Nat}

theorem Headed.congr (headed : Headed identity header page) (same : ∀ at_ count,
    at_ + count ≤ headerSize → slice at_ count next.bytes = slice at_ count page.bytes) :
    Headed identity header next := by
  have field : ∀ at_, at_ + 2 ≤ headerSize → next.u16 at_ = page.u16 at_ := fun at_ below =>
    congrArg fromLeBytes (same at_ 2 below)
  refine ⟨(same _ _ (by decide)).trans headed.front, ?_, (same _ _ (by decide)).trans headed.back⟩
  rw [← headed.fields, rawHeader, field _ (by decide), field _ (by decide), field _ (by decide),
    field _ (by decide)]
  rfl

theorem Headed.keep (headed : Headed identity header page) {start size : Nat}
    (outside : Outside start size page next) (apart : headerSize ≤ start) :
    Headed identity header next :=
  headed.congr fun at_ count below => outside at_ count (by omega)

theorem ensures_putUpper (post : Unit → MappedPage → Prop) (headed : Headed identity header page)
    (small : upper < 65536) (after : ∀ written, Headed identity { header with upper } written →
      Outside 0 headerSize page written → post () written) :
    Ensures (putU16 upperAt upper) page post fail := by
  refine ensures_putU16 post (by decide) small fun written stored outside =>
    after written ⟨?_, ?_, ?_⟩ ?_
  · rw [outside _ _ (by decide), headed.front]
  · rw [← headed.fields, rawHeader, stored, outside.u16 (by decide), outside.u16 (by decide),
      outside.u16 (by decide)]
    rfl
  · rw [outside _ _ (by decide), headed.back]
  · intro at_ count apart
    refine outside at_ count ?_
    simp only [upperAt, headerSize] at apart ⊢
    omega

/-- The three fields an edit that changes the number of records rewrites. -/
theorem ensures_putFields (post : Unit → MappedPage → Prop) (headed : Headed identity header page)
    (counted : itemCount < 65536) (lowSmall : lower < 65536) (upSmall : upper < 65536)
    (after : ∀ written, Headed identity { header with itemCount, lower, upper } written →
      Outside 0 headerSize page written → post () written) :
    Ensures (putU16 itemCountAt itemCount) page (fun _ page =>
      Ensures (putU16 lowerAt lower) page (fun _ page =>
        Ensures (putU16 upperAt upper) page post fail) fail) fail := by
  refine ensures_putU16 _ (by decide) counted fun page1 stored1 outside1 => ?_
  refine ensures_putU16 _ (by decide) lowSmall fun page2 stored2 outside2 => ?_
  have headed2 : Headed identity { header with itemCount, lower } page2 := by
    refine ⟨?_, ?_, ?_⟩
    · rw [outside2 _ _ (by decide), outside1 _ _ (by decide), headed.front]
    · rw [← headed.fields, rawHeader, stored2, outside2.u16 (by decide), stored1,
        outside2.u16 (by decide), outside1.u16 (by decide), outside2.u16 (by decide),
        outside1.u16 (by decide)]
      rfl
    · rw [outside2 _ _ (by decide), outside1 _ _ (by decide), headed.back]
  refine ensures_putUpper post headed2 upSmall fun written headed3 outside3 => after written headed3 ?_
  intro at_ count apart
  rw [outside3 at_ count apart]
  simp only [headerSize] at apart
  rw [outside2 at_ count (by simp only [lowerAt]; omega),
    outside1 at_ count (by simp only [itemCountAt]; omega)]

/-! The records. -/

/-- Records one after the other from `start` to `end_`, each where its slot says. -/
def Chain (page : MappedPage) : Nat → List (Bytes × Nat) → Nat → Prop
  | start, [], end_ => start = end_
  | start, (cell, slot) :: rest, end_ => page.slot slot = start ∧
      slice start cell.length page.bytes = cell ∧ Chain page (start + cell.length) rest end_

variable {start end_ target slot index : Nat} {cell : Bytes} {cells : List Bytes}
  {physical front back : List (Bytes × Nat)}

theorem chain_append : Chain page start (front ++ back) end_ ↔
    ∃ middle, Chain page start front middle ∧ Chain page middle back end_ := by
  induction front generalizing start with
  | nil => simp [Chain]
  | cons placed others ih => simp only [cons_append, Chain, ih, ← exists_and_left, and_assoc]

section

variable (chain : Chain page start physical end_)

include chain

theorem Chain.length_eq : start + payload (physical.map Prod.fst) = end_ := by
  induction physical generalizing start with
  | nil => exact chain
  | cons placed others ih =>
    rw [map_cons, SlottedPage.payload_cons, ← Nat.add_assoc]
    exact ih chain.2.2

theorem Chain.mem (member : (cell, slot) ∈ physical) :
    start ≤ page.slot slot ∧
      page.slot slot + cell.length ≤ end_ ∧
      slice (page.slot slot) cell.length page.bytes = cell := by
  obtain ⟨front, back, rfl⟩ := append_of_mem member
  obtain ⟨middle, before, rfl, stored, after⟩ := chain_append.mp chain
  have low := before.length_eq
  have high := after.length_eq
  exact ⟨by omega, by omega, stored⟩

theorem Chain.ascending :
    physical.Pairwise fun first second => page.slot first.2 + first.1.length ≤
      page.slot second.2 := by
  induction physical generalizing start with
  | nil => exact List.Pairwise.nil
  | cons placed others ih =>
    refine pairwise_cons.mpr ⟨fun other member => ?_, ih chain.2.2⟩
    rw [chain.1]
    exact (chain.2.2.mem member).1

theorem Chain.nodup
    (filled : ∀ placed ∈ physical, placed.1 ≠ []) : (physical.map Prod.snd).Nodup := by
  refine pairwise_map.mpr (chain.ascending.imp_of_mem fun {first} _ member _ apart same => ?_)
  have positive := length_pos_iff.mpr (filled first member)
  rw [same] at apart
  omega

theorem Chain.covered {at_ : Nat} (low : start ≤ at_)
    (high : at_ < end_) : ∃ placed ∈ physical, page.slot placed.2 ≤ at_ ∧
      at_ < page.slot placed.2 + placed.1.length := by
  induction physical generalizing start with
  | nil =>
    have empty : start = end_ := chain
    omega
  | cons placed others ih =>
    by_cases here : at_ < start + placed.1.length
    · exact ⟨placed, by simp, by rw [chain.1]; exact ⟨low, here⟩⟩
    · obtain ⟨other, member, found⟩ := ih chain.2.2 (by omega)
      exact ⟨other, by simp [member], found⟩

end

/-- The records whose slot has a new number, under that number. -/
def reslot (output : Nat → Option Nat) (physical : List (Bytes × Nat)) : List (Bytes × Nat) :=
  physical.filterMap fun placed => (output placed.2).map fun slot => (placed.1, slot)

variable {output : Nat → Option Nat}

theorem reslot_cons (placed : Bytes × Nat) : reslot output (placed :: back) =
    ((output placed.2).map fun slot => (placed.1, slot)).toList ++ reslot output back := by
  cases kept : output placed.2 <;> simp [reslot, kept]

theorem reslot_append : reslot output (front ++ back) = reslot output front ++ reslot output back := by
  simp [reslot]

theorem mem_reslot : (cell, slot) ∈ reslot output physical ↔
    ∃ index, (cell, index) ∈ physical ∧ output index = some slot := by
  simp [reslot]

theorem Chain.move (output : Nat → Option Nat) (chain : Chain page start physical end_)
    (slots : ∀ placed ∈ physical, ∃ renamed, output placed.2 = some renamed ∧
      next.slot renamed + start = page.slot placed.2 + target)
    (moved : Moved start target (end_ - start) page next) {reached : Nat}
    (reaches : reached + start = target + end_) :
    Chain next target (reslot output physical) reached := by
  induction physical generalizing start target with
  | nil =>
    obtain rfl : start = end_ := chain
    show target = reached
    omega
  | cons placed others ih =>
    obtain ⟨cell, index⟩ := placed
    obtain ⟨here, stored, rest⟩ := chain
    have long := rest.length_eq
    obtain ⟨renamed, kept, slot⟩ := slots (cell, index) (by simp)
    dsimp only at kept slot
    simp only [reslot_cons, kept, Option.map_some, Option.toList_some, singleton_append]
    refine ⟨by omega, (moved _ start _ le_rfl (by omega) (by omega)).trans stored,
      ih rest (fun placed member => ?_) (fun at_ from_ count low high shift => ?_) (by omega)⟩
    · obtain ⟨renamed, kept, slot⟩ := slots placed (by simp [member])
      exact ⟨renamed, kept, by omega⟩
    · exact moved at_ from_ count (by omega) (by omega) (by omega)

theorem Chain.shift (chain : Chain page start physical end_)
    (slots : ∀ placed ∈ physical, next.slot placed.2 + start = page.slot placed.2 + target)
    (moved : Moved start target (end_ - start) page next) {reached : Nat}
    (reaches : reached + start = target + end_) : Chain next target physical reached := by
  have same : reslot some physical = physical := by simp [reslot]
  rw [← same]
  exact chain.move some (fun placed member => ⟨_, rfl, slots placed member⟩) moved reaches

/-! The layout of a whole page. -/

structure Arranged (identity : Identity) (header : Header) (cells : List Bytes)
    (physical : List (Bytes × Nat)) (page : MappedPage) : Prop where
  headed : Headed identity header page
  room : usedBytes cells ≤ pageSize
  filled : ∀ cell ∈ cells, cell ≠ []
  placed : ∀ cell slot, (cell, slot) ∈ physical ↔ cells[slot]? = some cell
  chain : Chain page (pageSize - payload cells) physical pageSize
  cleared : Cleared page (headerSize + cells.length * 2) (pageSize - payload cells)

def Laid (identity : Identity) (cells : List Bytes) (page : MappedPage) : Prop :=
  ∃ physical, Arranged identity (identity.header cells) cells physical page

theorem Laid.rawHeader (laid : Laid identity cells page) : rawHeader page = identity.header cells :=
  laid.choose_spec.headed.fields

namespace Arranged

variable (arranged : Arranged identity header cells physical page)

include arranged

theorem nonempty : ∀ placed ∈ physical, placed.1 ≠ [] := fun placed member =>
  arranged.filled placed.1 (mem_of_getElem? ((arranged.placed placed.1 placed.2).mp member))

theorem stored (held : cells[index]? = some cell) :
    pageSize - payload cells ≤ page.slot index ∧
      page.slot index + cell.length ≤ pageSize ∧
      slice (page.slot index) cell.length page.bytes = cell :=
  arranged.chain.mem ((arranged.placed cell index).mpr held)

theorem inside {placed : Bytes × Nat} (member : placed ∈ physical) : placed.2 < cells.length :=
  (List.getElem?_eq_some_iff.mp ((arranged.placed placed.1 placed.2).mp member)).choose

theorem indices : (physical.map Prod.snd).Perm (List.range cells.length) := by
  refine (perm_ext_iff_of_nodup (arranged.chain.nodup arranged.nonempty) nodup_range).mpr fun slot => ?_
  simp only [mem_map, mem_range]
  constructor
  · rintro ⟨placed, member, rfl⟩
    exact arranged.inside member
  · intro inside
    exact ⟨(cells[slot], slot), (arranged.placed _ _).mpr (getElem?_eq_getElem inside), rfl⟩

theorem split (held : cells[index]? = some cell) : ∃ front back,
    physical = front ++ (cell, index) :: back ∧
      Chain page (pageSize - payload cells) front (page.slot index) ∧
      Chain page (page.slot index + cell.length) back pageSize := by
  obtain ⟨front, back, rfl⟩ := append_of_mem ((arranged.placed cell index).mpr held)
  obtain ⟨middle, before, rfl, _, after⟩ := chain_append.mp arranged.chain
  exact ⟨front, back, rfl, before, after⟩

end Arranged

theorem header_fields (identity : Identity) (cells : List Bytes) :
    (identity.header cells).itemCount = cells.length ∧
      (identity.header cells).lower = headerSize + cells.length * 2 ∧
      (identity.header cells).upper = pageSize - payload cells :=
  ⟨rfl, rfl, rfl⟩

theorem slotStart_eq (level : Nat) (inside : index < cells.length) :
    slotStart page (filledHeader level cells) index = .ok (page.slot index) := by
  unfold slotStart
  rw [if_neg (by simp only [filledHeader]; omega), if_neg (by simp only [filledHeader]; omega)]

/-! Insertion. -/

def opened (index slot : Nat) : Nat := if slot < index then slot else slot + 1

theorem payload_insert (cells : List Bytes) (cell : Bytes) (index : Nat) :
    payload (cells.take index ++ cell :: cells.drop index) = payload cells + cell.length := by
  have split := congrArg payload (take_append_drop index cells)
  simp only [SlottedPage.payload_append, SlottedPage.payload_cons] at split ⊢
  omega

theorem length_insert (cell : Bytes) (inside : index ≤ cells.length) :
    (cells.take index ++ cell :: cells.drop index).length = cells.length + 1 := by
  simp only [length_append, length_cons, length_take, length_drop]
  omega

theorem filled_spliced (filled : ∀ cell ∈ cells, cell ≠ []) (inhabited : cell ≠ []) (first end_ : Nat) :
    ∀ other ∈ cells.take first ++ cell :: cells.drop end_, other ≠ [] := by
  intro other member
  rcases mem_append.mp member with low | high
  · exact filled other (mem_of_mem_take low)
  · rcases mem_cons.mp high with rfl | above
    · exact inhabited
    · exact filled other (mem_of_mem_drop above)

theorem getElem?_inserted (cell : Bytes) (inside : index ≤ cells.length) (slot : Nat) :
    (cells.take index ++ cell :: cells.drop index)[slot]? = if slot < index then cells[slot]?
      else if slot = index then some cell else cells[slot - 1]? := by
  grind

theorem openSlot_spec (post : Unit → MappedPage → Prop) {count : Nat}
    (lower : header.lower = headerSize + count * 2) (inside : index ≤ count)
    (room : header.lower + 2 ≤ pageSize) (after : ∀ written,
      (∀ slot, index ≤ slot → slot < count →
        written.slot (slot + 1) = page.slot slot) →
      Outside (headerSize + index * 2 + 2) (header.lower - (headerSize + index * 2)) page written →
      post () written) : Ensures (openSlot header (headerSize + index * 2)) page post fail := by
  unfold openSlot
  split
  · next last => exact after page (fun slot low high => by omega) fun _ _ _ => rfl
  · refine ensures_copyWithin post (by omega) (by omega) fun written moved outside =>
      after written (fun slot low high => moved.slot (by omega) (by omega) (by omega)) outside

theorem Arranged.insert {changed : Header} (arranged : Arranged identity header cells physical page)
    (headed : Headed identity changed next) (inside : index ≤ cells.length) (inhabited : cell ≠ [])
    (fits : usedBytes cells + 2 + cell.length ≤ pageSize)
    (slots : ∀ slot < cells.length,
      next.slot (opened index slot) = page.slot slot)
    (here : next.slot index = pageSize - payload cells - cell.length)
    (stored : slice (pageSize - payload cells - cell.length) cell.length next.bytes = cell)
    (same : ∀ at_ count, headerSize + cells.length * 2 + 2 ≤ at_ →
      at_ + count ≤ pageSize - payload cells - cell.length ∨ pageSize - payload cells ≤ at_ →
      slice at_ count next.bytes = slice at_ count page.bytes) :
    Arranged identity changed (cells.take index ++ cell :: cells.drop index)
      ((cell, index) :: reslot (fun slot => some (opened index slot)) physical) next := by
  have total := payload_insert cells cell index
  have longer := length_insert cell inside
  simp only [usedBytes] at fits
  refine ⟨headed, by simp only [usedBytes]; omega, filled_spliced arranged.filled inhabited _ _,
    ?_, ?_, ?_⟩
  · intro other slot
    rw [getElem?_inserted cell inside, mem_cons, mem_reslot]
    simp only [arranged.placed, Option.some.injEq, Prod.mk.injEq, opened]
    constructor
    · rintro (⟨rfl, rfl⟩ | ⟨old, held, renamed⟩)
      · simp
      · split at renamed
        · rw [← renamed, if_pos (by omega)]
          exact held
        · rw [← renamed, if_neg (by omega), if_neg (by omega), Nat.add_sub_cancel]
          exact held
    · intro held
      split at held
      · next below => exact Or.inr ⟨slot, held, if_pos below⟩
      · split at held
        · next equal => exact Or.inl ⟨(Option.some.inj held).symm, equal⟩
        · exact Or.inr ⟨slot - 1, held, by rw [if_neg (by omega)]; omega⟩
  · rw [total, Nat.sub_add_eq]
    refine ⟨here, stored, arranged.chain.move (fun slot => some (opened index slot))
      (fun placed member => ⟨_, rfl, ?_⟩) ?_ ?_⟩
    · rw [slots placed.2 (arranged.inside member)]
      omega
    · intro at_ from_ count low high shift
      obtain rfl : at_ = from_ := by omega
      exact same at_ count (by omega) (by omega)
    · omega
  · intro at_ low high
    rw [longer] at low
    rw [total] at high
    rw [same at_ 1 (by omega) (by omega)]
    exact arranged.cleared at_ (by omega) (by omega)

theorem insert_spec (laid : Laid identity cells page) (inside : index ≤ cells.length)
    (inhabited : cell ≠ []) (fits : insertFits (identity.header cells) cell.length = true) :
    Ensures (insert (identity.header cells) index cell) page
      (fun inserted next => inserted = true ∧
        Laid identity (cells.take index ++ cell :: cells.drop index) next) fail := by
  obtain ⟨physical, arranged⟩ := laid
  have roomy := (SlottedPage.insertFits_filledHeader _ cells cell inhabited).mp fits
  have room := roomy
  have bytes : pageSize = 4096 := rfl
  simp only [usedBytes] at room
  unfold insert
  rw [if_neg (by simp only [filledHeader]; omega), if_neg (by simpa using inhabited), fits]
  simp only [Bool.not_true, Bool.false_eq_true, if_false, ensures_bind, ensures_pure]
  refine openSlot_spec _ rfl inside (by simp only [filledHeader]; omega)
    fun page1 shifted outside1 => ?_
  simp only [filledHeader] at outside1 ⊢
  refine ensures_write _ (by omega) fun page2 stored outside2 => ?_
  refine ensures_putSlot _ (by omega) (by omega) fun page3 slotted outside3 => ?_
  have headed : Headed identity (identity.header cells) page3 :=
    ((arranged.headed.keep outside1 (by omega)).keep outside2 (by omega)).keep outside3 (by omega)
  refine ensures_putFields _ headed (by omega) (by omega) (by omega) fun page4 headed4 outside4 =>
    ⟨trivial, _, arranged.insert ?_ inside inhabited roomy ?_ ?_ ?_ ?_⟩
  · have total := payload_insert cells cell index
    have longer := length_insert cell inside
    simp only [filledHeader, total, longer, Nat.add_mul, ← Nat.add_assoc, Nat.sub_add_eq]
    exact headed4
  · intro slot below
    unfold opened
    split
    · rw [outside4.slot (by omega), outside3.slot (by omega), outside2.slot (by omega),
        outside1.slot (by omega)]
    · rw [outside4.slot (by omega), outside3.slot (by omega), outside2.slot (by omega)]
      exact shifted slot (by omega) below
  · rw [outside4.slot (by omega), slotted]
  · rw [outside4 _ _ (by omega), outside3 _ _ (by omega), stored]
  · intro at_ count low apart
    rw [outside4 _ _ (by omega), outside3 _ _ (by omega), outside2 _ _ (by omega),
      outside1 _ _ (by omega)]

/-! Moving the records below one record. -/

section Move

variable {first left before amount : Nat} {add : Bool}

def adjustedSlot (target before : Nat) (move : Nat → Nat) (slot start : Nat) : Nat :=
  if slot ≠ target ∧ start < before then move start else start

theorem adjustSlot_spec (move : Nat → Nat) (post : Unit → MappedPage → Prop)
    (room : headerSize + index * 2 + 2 ≤ pageSize)
    (possible : index ≠ target → page.slot index < before →
      adjusted add amount (page.slot index) =
        .ok (move (page.slot index)) ∧
      move (page.slot index) < 65536)
    (after : ∀ written, written.slot index =
        adjustedSlot target before move index (page.slot index) →
      Outside (headerSize + index * 2) 2 page written → post () written) :
    Ensures (adjustSlot target before add amount index) page post fail := by
  have unmoved : ¬ (index ≠ target ∧ page.slot index < before) →
      post () page := fun no => after page (by rw [adjustedSlot, if_neg no]) fun _ _ _ => rfl
  unfold adjustSlot
  by_cases isTarget : index = target
  · rw [if_pos isTarget]
    exact unmoved (by simp [isTarget])
  · rw [if_neg isTarget]
    simp only [ensures_bind, ensures_get]
    by_cases behind : before ≤ page.slot index
    · rw [if_pos behind]
      exact unmoved (by omega)
    · obtain ⟨adjusts, small⟩ := possible isTarget (by omega)
      rw [if_neg behind, adjusts]
      refine ensures_putSlot post room small fun written stored outside => after written ?_ outside
      rw [stored, adjustedSlot, if_pos ⟨isTarget, by omega⟩]

theorem adjustSlots_spec (move : Nat → Nat) (post : Unit → MappedPage → Prop)
    (room : headerSize + (first + left) * 2 ≤ pageSize)
    (possible : ∀ slot, first ≤ slot → slot < first + left → slot ≠ target →
      page.slot slot < before →
      adjusted add amount (page.slot slot) =
        .ok (move (page.slot slot)) ∧
      move (page.slot slot) < 65536)
    (after : ∀ written, (∀ slot, first ≤ slot → slot < first + left →
        written.slot slot =
          adjustedSlot target before move slot (page.slot slot)) →
      Outside (headerSize + first * 2) (left * 2) page written → post () written) :
    Ensures (adjustSlots target before add amount first left) page post fail := by
  induction left generalizing first page with
  | zero => exact after page (fun slot low high => by omega) fun _ _ _ => rfl
  | succ left ih =>
    simp only [adjustSlots, ensures_bind]
    refine adjustSlot_spec move _ (by omega) (possible first le_rfl (by omega))
      fun page1 here outside1 => ?_
    refine ih (by omega) (fun slot low high => ?_) fun page2 later outside2 =>
      after page2 (fun slot low high => ?_) fun at_ count apart => ?_
    · rw [outside1.slot (by omega)]
      exact possible slot (by omega) (by omega)
    · by_cases isFirst : slot = first
      · rw [isFirst, outside2.slot (by omega), here]
      · rw [later slot (by omega) (by omega), outside1.slot (by omega)]
    · rw [outside2 at_ count (by omega), outside1 at_ count (by omega)]

end Move

section Around

variable {cell new : Bytes} {middle : MappedPage} {amount : Nat} {add : Bool}
  (arranged : Arranged identity header cells (front ++ (cell, index) :: back) page)

include arranged

theorem Arranged.held : cells[index]? = some cell :=
  (arranged.placed cell index).mp (mem_append_right _ mem_cons_self)

theorem Arranged.divided : cells = cells.take index ++ cell :: cells.drop (index + 1) ∧
    index < cells.length := by
  obtain ⟨inside, found⟩ := List.getElem?_eq_some_iff.mp arranged.held
  exact ⟨by rw [← found]; simp, inside⟩

theorem Arranged.other : ∀ placed ∈ front ++ back, placed.2 ≠ index := by
  have nodup := (perm_middle.map Prod.snd).nodup_iff.mp (arranged.chain.nodup arranged.nonempty)
  rw [map_cons, nodup_cons] at nodup
  intro placed member same
  exact nodup.1 (mem_map.mpr ⟨placed, member, same⟩)

theorem Arranged.inside_other : ∀ placed ∈ front ++ back, placed.2 < cells.length := by
  intro placed member
  refine arranged.inside ?_
  simp only [mem_append, mem_cons] at member ⊢
  tauto

theorem Arranged.around (at_ : page.slot index = start) :
    start = pageSize - payload cells + payload (front.map Prod.fst) ∧
      start + cell.length + payload (back.map Prod.fst) = pageSize ∧
      Chain page (pageSize - payload cells) front start ∧
      Chain page (start + cell.length) back pageSize := by
  obtain ⟨middle, before, rfl, _, after⟩ := chain_append.mp arranged.chain
  subst at_
  exact ⟨before.length_eq.symm, after.length_eq, before, after⟩

/-- The records before the one at `index` have been moved, and their slots follow them. -/
theorem Arranged.shift (target : Nat) (post : Unit → MappedPage → Prop)
    (at_ : page.slot index = start) (counted : header.itemCount = cells.length)
    (above : headerSize + cells.length * 2 ≤ target)
    (slots : Moved headerSize headerSize (cells.length * 2) page middle)
    (moved : Moved (pageSize - payload cells) target (start - (pageSize - payload cells)) page middle)
    (kept : Moved (start + cell.length) (start + cell.length) (pageSize - (start + cell.length)) page
      middle)
    (possible : ∀ old, pageSize - payload cells ≤ old → old < start →
      adjusted add amount old = .ok (old + target - (pageSize - payload cells)) ∧
        old + target - (pageSize - payload cells) < 65536)
    (after : ∀ next, Outside headerSize (cells.length * 2) middle next →
      Chain next target front (target + (start - (pageSize - payload cells))) →
      Chain next (start + cell.length) back pageSize → post () next) :
    Ensures (adjustSlotsBefore header index start add amount) middle post fail := by
  have room := arranged.room
  simp only [usedBytes] at room
  obtain ⟨starts, ends, low, high⟩ := arranged.around at_
  have read : ∀ slot < cells.length, middle.slot slot =
      page.slot slot := fun slot below => slots.slot (by omega) (by omega) rfl
  have bound : ∀ slot < cells.length,
      pageSize - payload cells ≤ page.slot slot := fun slot below =>
    (arranged.stored (getElem?_eq_getElem below)).1
  unfold adjustSlotsBefore
  rw [counted]
  refine adjustSlots_spec (fun start => start + target - (pageSize - payload cells)) post (by omega)
    (fun slot _ below _ => ?_) fun next adjusts outside => after next (by simpa using outside) ?_ ?_
  · rw [read slot (by omega)]
    exact possible _ (bound slot (by omega))
  · refine low.shift (fun placed member => ?_) (moved.trans (outside.moved (by omega))) (by omega)
    have isPlaced : placed ∈ front ++ (cell, index) :: back := by simp [member]
    have inside := arranged.inside isPlaced
    have long := length_pos_iff.mpr (arranged.nonempty placed isPlaced)
    have ends := (low.mem member).2.1
    have least := bound placed.2 inside
    rw [adjusts placed.2 (by omega) (by omega), read placed.2 inside, adjustedSlot,
      if_pos ⟨arranged.other placed (by simp [member]), by omega⟩]
    omega
  · refine high.shift (fun placed member => ?_) (kept.trans (outside.moved (by omega))) (by omega)
    have inside := arranged.inside (mem_append_right front (mem_cons_of_mem _ member))
    have begins := (high.mem member).1
    rw [adjusts placed.2 (by omega) (by omega), read placed.2 inside, adjustedSlot,
      if_neg (by omega)]

theorem Arranged.closeUp {shrink : Nat} (post : Unit → MappedPage → Prop)
    (at_ : page.slot index = start)
    (isHeader : header = identity.header cells) (inside : shrink ≤ cell.length)
    (after : ∀ next, Headed identity header next →
      Chain next (pageSize - payload cells + shrink) front (start + shrink) →
      Chain next (start + cell.length) back pageSize →
      Cleared next (headerSize + cells.length * 2) (pageSize - payload cells + shrink) →
      post () next) :
    Ensures (closeUp header index start shrink) page post fail := by
  have room := arranged.room
  have bytes : pageSize = 4096 := rfl
  simp only [usedBytes] at room
  obtain ⟨starts, ends, low, high⟩ := arranged.around at_
  have upper : header.upper = pageSize - payload cells := by rw [isHeader]; rfl
  simp only [SlottedBytes.closeUp, ensures_bind, upper]
  refine ensures_copyWithin _ (by omega) (by omega) fun page1 moved1 outside1 => ?_
  refine ensures_zero _ (by omega) fun page2 cleared outside2 => ?_
  refine arranged.shift (pageSize - payload cells + shrink) post at_ (by rw [isHeader]; rfl) (by omega)
    ?_ ?_ ?_ ?_ fun next outside3 low high => after next ?_ ?_ high ?_
  · exact (outside1.moved (by omega)).trans (outside2.moved (by omega))
  · exact moved1.trans (outside2.moved (by omega))
  · exact (outside1.moved (by omega)).trans (outside2.moved (by omega))
  · intro old least below
    simp only [adjusted, Bool.not_true, Bool.false_and, Bool.false_eq_true, if_false, if_true]
    rw [if_neg (by omega)]
    exact ⟨congrArg _ (by omega), by omega⟩
  · exact ((arranged.headed.keep outside1 (by omega)).keep outside2 (by omega)).keep outside3
      (by omega)
  · rwa [show start + shrink = pageSize - payload cells + shrink +
      (start - (pageSize - payload cells)) by omega]
  · intro at_ least most
    rw [outside3 at_ 1 (by omega)]
    by_cases gap : at_ < pageSize - payload cells
    · rw [outside2 at_ 1 (by omega), outside1 at_ 1 (by omega)]
      exact arranged.cleared at_ least gap
    · exact cleared at_ (by omega) (by omega)

theorem Arranged.replaced (new : Bytes) :
    payload (cells.take index ++ new :: cells.drop (index + 1)) + cell.length =
        payload cells + new.length ∧
      (cells.take index ++ new :: cells.drop (index + 1)).length = cells.length := by
  have total := congrArg payload arranged.divided.1
  have long := congrArg List.length arranged.divided.1
  simp only [SlottedPage.payload_append, SlottedPage.payload_cons, length_append, length_cons]
    at total long ⊢
  exact ⟨by omega, by omega⟩

theorem Arranged.mem_replaced (new other : Bytes) (slot : Nat) :
    (other, slot) ∈ front ++ (new, index) :: back ↔
      (cells.take index ++ new :: cells.drop (index + 1))[slot]? = some other := by
  have inside := arranged.divided.2
  have set := set_eq_take_append_cons_drop (l := cells) (i := index) (a := new)
  rw [if_pos inside] at set
  rw [← set, getElem?_set]
  by_cases here : index = slot
  · subst here
    have absent : (other, index) ∉ front ++ back := fun member => arranged.other _ member rfl
    simp only [mem_append, not_or] at absent
    simp [absent, inside, eq_comm]
  · rw [if_neg here, ← arranged.placed]
    simp [Ne.symm here]

end Around

section Rewrite

variable {cell new : Bytes} {middle : MappedPage} {newStart newUpper : Nat}
  (arranged : Arranged identity (identity.header cells) cells
    (front ++ (cell, index) :: back) page)

include arranged

theorem Arranged.rewrite (fail : Error → MappedPage → Prop) (inhabited : new ≠ [])
    (upper : newUpper + payload cells + new.length = pageSize + cell.length)
    (fits : headerSize + cells.length * 2 ≤ newUpper)
    (headed : Headed identity (identity.header cells) middle)
    (low : Chain middle newUpper front newStart)
    (high : Chain middle (newStart + new.length) back pageSize)
    (cleared : Cleared middle (headerSize + cells.length * 2) newUpper) :
    Ensures (do
      write newStart new
      putU16 (headerSize + index * 2) newStart
      putU16 upperAt newUpper
      pure true) middle
      (fun replaced last => replaced = true ∧
        Laid identity (cells.take index ++ new :: cells.drop (index + 1)) last) fail := by
  have bytes : pageSize = 4096 := rfl
  have inside := arranged.divided.2
  have lowLong := low.length_eq
  have highLong := high.length_eq
  obtain ⟨total, same⟩ := arranged.replaced new
  simp only [ensures_bind, ensures_pure]
  refine ensures_write _ (by omega) fun page1 stored outside1 => ?_
  refine ensures_putSlot _ (by omega) (by omega) fun page2 slotted outside2 => ?_
  refine ensures_putUpper _ ((headed.keep outside1 (by omega)).keep outside2 (by omega)) (by omega)
    fun last headed3 outside3 => ⟨trivial, front ++ (new, index) :: back, ?_⟩
  have slots : ∀ placed ∈ front ++ back,
      last.slot placed.2 = middle.slot placed.2 := by
    intro placed member
    have other := arranged.other placed member
    have below := arranged.inside_other placed member
    rw [outside3.slot (by omega), outside2.slot (by omega), outside1.slot (by omega)]
  have newUpper_eq : newUpper =
      pageSize - payload (cells.take index ++ new :: cells.drop (index + 1)) := by omega
  refine ⟨?_, by simp only [usedBytes]; omega, filled_spliced arranged.filled inhabited _ _,
    arranged.mem_replaced new, ?_, ?_⟩
  · simp only [filledHeader, same, ← newUpper_eq] at headed3 ⊢
    exact headed3
  · rw [← newUpper_eq]
    refine chain_append.mpr ⟨newStart, low.shift (fun placed member => ?_) ?_ (Nat.add_comm _ _),
      ?_, ?_,
      high.shift (fun placed member => ?_) ?_ (Nat.add_comm _ _)⟩
    · rw [slots placed (mem_append_left _ member)]
    · exact ((outside1.moved (by omega)).trans (outside2.moved (by omega))).trans
        (outside3.moved (by omega))
    · rw [outside3.slot (by omega), slotted]
    · rw [outside3 _ _ (by omega), outside2 _ _ (by omega), stored]
    · rw [slots placed (mem_append_right _ member)]
    · exact ((outside1.moved (by omega)).trans (outside2.moved (by omega))).trans
        (outside3.moved (by omega))
  · intro at_ least most
    rw [outside3 at_ 1 (by omega), outside2 at_ 1 (by omega), outside1 at_ 1 (by omega)]
    exact cleared at_ (by omega) (by omega)

theorem recordStart_eq : recordStart page (identity.header cells) index cell.length =
    .ok (page.slot index) := by
  obtain ⟨low, high, _⟩ := arranged.stored arranged.held
  have upper := (header_fields identity cells).2.2
  simp only [recordStart, slotStart_eq _ arranged.divided.2, bind, Except.bind]
  rw [if_neg (by simp only [Bool.or_eq_true, decide_eq_true_eq, upper]; omega)]

end Rewrite

theorem replace_spec {cell new : Bytes} (laid : Laid identity cells page)
    (held : cells[index]? = some cell) (inhabited : new ≠ [])
    (fits : replaceFits (identity.header cells) cell.length new.length = true) :
    Ensures (replace (identity.header cells) index cell.length new) page
      (fun replaced next => replaced = true ∧
        Laid identity (cells.take index ++ new :: cells.drop (index + 1)) next) fail := by
  obtain ⟨physical, arranged⟩ := laid
  obtain ⟨front, back, rfl⟩ := append_of_mem ((arranged.placed cell index).mpr held)
  have bytes : pageSize = 4096 := rfl
  have room := arranged.room
  have inside := arranged.divided.2
  have positive := length_pos_iff.mpr (arranged.filled cell (mem_of_getElem? held))
  generalize at_ : page.slot index = start
  obtain ⟨starts, ends, low, high⟩ := arranged.around at_
  obtain ⟨counted, lower, upper⟩ := header_fields identity cells
  simp only [usedBytes] at room
  simp only [replaceFits, Bool.and_eq_true, decide_eq_true_eq, upper, lower] at fits
  unfold replace
  rw [if_neg (by
    simp only [Bool.or_eq_true, decide_eq_true_eq, beq_iff_eq, List.isEmpty_iff, counted]
    rintro ((outside | none) | empty)
    · omega
    · omega
    · exact inhabited empty)]
  simp only [ensures_bind, ensures_get, recordStart_eq arranged, ensures_liftResult_ok, at_]
  split
  · next growing =>
      unfold grow
      rw [if_neg (by omega)]
      simp only [ensures_bind, upper]
      refine ensures_copyWithin _ (by omega) (by omega) fun page1 moved1 outside1 => ?_
      refine arranged.shift (pageSize - payload cells - (new.length - cell.length)) _ at_ rfl (by omega)
        (outside1.moved (by omega)) moved1 (outside1.moved (by omega)) ?_
        fun next outside2 low high => ?_
      · intro old least below
        simp only [adjusted, Bool.not_false, Bool.true_and, decide_eq_true_eq, Bool.false_eq_true,
          if_false]
        rw [if_neg (by omega), if_neg (by omega)]
        exact ⟨congrArg _ (by omega), by omega⟩
      · simp only [← ensures_bind]
        refine arranged.rewrite fail inhabited (by omega) (by omega)
          ((arranged.headed.keep outside1 (by omega)).keep outside2 (by omega)) ?_ ?_
          fun at_ least most => ?_
        · rwa [show start - (new.length - cell.length) = pageSize - payload cells -
            (new.length - cell.length) + (start - (pageSize - payload cells)) by omega]
        · rwa [show start - (new.length - cell.length) + new.length = start + cell.length by omega]
        · rw [outside2 at_ 1 (by omega), outside1 at_ 1 (by omega)]
          exact arranged.cleared at_ least (by omega)
  · next shrinking =>
      unfold shrinkTo
      rw [ensures_bind, upper]
      have rest : ∀ next, Headed identity (identity.header cells) next →
          Chain next (pageSize - payload cells + (cell.length - new.length)) front
            (start + (cell.length - new.length)) →
          Chain next (start + cell.length) back pageSize →
          Cleared next (headerSize + cells.length * 2)
            (pageSize - payload cells + (cell.length - new.length)) → _ :=
        fun next headed low high cleared => arranged.rewrite fail inhabited (by omega) (by omega)
          headed low (by rwa [show start + (cell.length - new.length) + new.length =
            start + cell.length by omega]) cleared
      unfold closeUpBy
      split
      · next none =>
          rw [none] at rest ⊢
          exact rest page arranged.headed low high arranged.cleared
      · exact arranged.closeUp _ at_ rfl (by omega) rest

variable {first : Nat}

theorem getElem?_removed {end_ : Nat} (ordered : first ≤ end_) (inside : end_ ≤ cells.length)
    (slot : Nat) : (cells.take first ++ cells.drop end_)[slot]? =
      if slot < first then cells[slot]? else cells[slot + (end_ - first)]? := by
  grind

theorem Arranged.mem_removed {end_ : Nat} (arranged : Arranged identity header cells physical page)
    (ordered : first ≤ end_) (inside : end_ ≤ cells.length) (cell : Bytes) (slot : Nat) :
    (cell, slot) ∈ reslot (afterRemoval first end_) physical ↔
      (cells.take first ++ cells.drop end_)[slot]? = some cell := by
  rw [mem_reslot, getElem?_removed ordered inside]
  simp only [arranged.placed, afterRemoval]
  constructor
  · rintro ⟨index, held, kept⟩
    split at kept
    · next below =>
        obtain rfl := Option.some.inj kept
        rw [if_pos below]
        exact held
    · split at kept
      · obtain rfl := Option.some.inj kept
        rw [if_neg (by omega), show index - (end_ - first) + (end_ - first) = index by omega]
        exact held
      · cases kept
  · intro held
    split at held
    · next below => exact ⟨slot, held, if_pos below⟩
    · exact ⟨slot + (end_ - first), held, by rw [if_neg (by omega), if_pos (by omega)]; simp⟩

theorem length_removed {end_ : Nat} (ordered : first ≤ end_) (inside : end_ ≤ cells.length) :
    (cells.take first ++ cells.drop end_).length = cells.length - (end_ - first) := by
  simp only [length_append, length_take, length_drop]
  omega

theorem filled_removed {end_ : Nat} (filled : ∀ cell ∈ cells, cell ≠ []) :
    ∀ cell ∈ cells.take first ++ cells.drop end_, cell ≠ [] := by
  intro cell member
  rcases mem_append.mp member with before | after
  · exact filled cell (mem_of_mem_take before)
  · exact filled cell (mem_of_mem_drop after)

theorem remove_spec {cell : Bytes} (laid : Laid identity cells page)
    (held : cells[index]? = some cell) (several : 1 < cells.length) :
    Ensures (remove (identity.header cells) index cell.length) page
      (fun _ next => Laid identity (cells.take index ++ cells.drop (index + 1)) next) fail := by
  obtain ⟨physical, arranged⟩ := laid
  obtain ⟨front, back, rfl⟩ := append_of_mem ((arranged.placed cell index).mpr held)
  have bytes : pageSize = 4096 := rfl
  have room := arranged.room
  have inside := arranged.divided.2
  have positive := length_pos_iff.mpr (arranged.filled cell (mem_of_getElem? held))
  generalize at_ : page.slot index = start
  obtain ⟨starts, ends, _, _⟩ := arranged.around at_
  obtain ⟨counted, lower, upper⟩ := header_fields identity cells
  have total : payload (cells.take index ++ cells.drop (index + 1)) + cell.length = payload cells := by
    have whole := congrArg payload arranged.divided.1
    simp only [SlottedPage.payload_append, SlottedPage.payload_cons] at whole ⊢
    omega
  have shorter := length_removed (Nat.le_add_right index 1) inside
  simp only [usedBytes] at room
  unfold remove
  rw [if_neg (by simp only [Bool.or_eq_true, decide_eq_true_eq, beq_iff_eq, counted]; omega)]
  simp only [ensures_bind, ensures_get, recordStart_eq arranged, ensures_liftResult_ok, at_, counted,
    lower, upper]
  refine arranged.closeUp _ at_ rfl le_rfl fun middle headed low high cleared => ?_
  refine ensures_copyWithin _ (by omega) (by omega) fun page1 moved1 outside1 => ?_
  refine ensures_zero _ (show headerSize + cells.length * 2 - 2 + 2 ≤ pageSize by omega)
    fun page2 cleared2 outside2 => ?_
  have headed2 := (headed.keep outside1 (by omega)).keep outside2 (by omega)
  refine ensures_putFields _ headed2 (by omega) (by omega) (by omega) fun last headed3 outside3 =>
    ⟨reslot (afterRemoval index (index + 1)) (front ++ (cell, index) :: back), ?_, ?_,
      filled_removed arranged.filled, arranged.mem_removed (Nat.le_add_right index 1) inside, ?_, ?_⟩
  · simp only [filledHeader, shorter, Nat.add_sub_cancel_left] at headed3 ⊢
    rw [show headerSize + (cells.length - 1) * 2 = headerSize + cells.length * 2 - 2 by omega,
      show pageSize - payload (cells.take index ++ cells.drop (index + 1)) =
        pageSize - payload cells + cell.length by omega]
    exact headed3
  · simp only [usedBytes]
    omega
  · have dropped : reslot (afterRemoval index (index + 1)) [(cell, index)] = [] := by
      simp [reslot, afterRemoval]
    have slots : ∀ placed ∈ front ++ back, ∃ renamed,
        afterRemoval index (index + 1) placed.2 = some renamed ∧
          last.slot renamed = middle.slot placed.2 := by
      intro placed member
      have other := arranged.other placed member
      have below := arranged.inside_other placed member
      by_cases before : placed.2 < index
      · refine ⟨placed.2, if_pos before, ?_⟩
        rw [outside3.slot (by omega), outside2.slot (by omega), outside1.slot (by omega)]
      · refine ⟨placed.2 - 1, by rw [afterRemoval, if_neg before, if_pos (by omega)]; simp, ?_⟩
        rw [outside3.slot (by omega), outside2.slot (by omega)]
        exact moved1.slot (by omega) (by omega) (by omega)
    have kept : ∀ {from_ len : Nat}, headerSize + cells.length * 2 ≤ from_ →
        Moved from_ from_ len middle last := fun high =>
      ((outside1.moved (by omega)).trans (outside2.moved (by omega))).trans (outside3.moved (by omega))
    rw [show front ++ (cell, index) :: back = front ++ ([(cell, index)] ++ back) from rfl,
      reslot_append, reslot_append, dropped, nil_append,
      show pageSize - payload (cells.take index ++ cells.drop (index + 1)) =
        pageSize - payload cells + cell.length by omega]
    refine chain_append.mpr ⟨start + cell.length, low.move _ (fun placed member => ?_)
      (kept (by omega)) (Nat.add_comm _ _), high.move _ (fun placed member => ?_) (kept (by omega))
      (Nat.add_comm _ _)⟩
    · obtain ⟨renamed, isRenamed, same⟩ := slots placed (mem_append_left _ member)
      exact ⟨renamed, isRenamed, by rw [same]⟩
    · obtain ⟨renamed, isRenamed, same⟩ := slots placed (mem_append_right _ member)
      exact ⟨renamed, isRenamed, by rw [same]⟩
  · intro at_ least most
    rw [shorter] at least
    rw [outside3 at_ 1 (by omega)]
    by_cases slots : at_ < headerSize + cells.length * 2
    · exact cleared2 at_ (by omega) (by omega)
    · rw [outside2 at_ 1 (by omega), outside1 at_ 1 (by omega)]
      exact cleared at_ (by omega) (by omega)

end SlottedBytes

end IpRange
