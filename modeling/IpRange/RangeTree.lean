import IpRange.Library.SpanMap
import IpRange.IpKey
import IpRange.FixedTreePages

/-!
Range records and the codec of the range tree. A record is keyed by the first
address of its range.
-/

namespace IpRange

open SlottedPage

abbrev Record (K : Type) := Span K UInt32

section RangeCodec

variable (K : Type) [IpKey K]

def recordSize : Nat := IpKey.width K * 2 + 4

variable {K}

def encodeRecord (record : Record K) : Except Error Bytes :=
  if record.to_ < record.from_ then .error (.invalidArgument "range start is after its end")
  else .ok (IpKey.writeLe record.from_ ++ IpKey.writeLe record.to_ ++
    toLeBytes 4 record.value.toNat)

def decodeFields (cell : Bytes) : Except Error (Record K) :=
  if cell.length ≠ recordSize K then .error (.corrupt "range leaf has the wrong record size")
  else .ok { from_ := IpKey.readLe cell 0
             to_ := IpKey.readLe cell (IpKey.width K)
             value := UInt32.ofNat (leField cell (IpKey.width K * 2) 4) }

def decodeCell (cell : Bytes) : Except Error (Record K) := do
  let record ← decodeFields cell
  if record.to_ < record.from_ then .error (.corrupt "selected range has reversed endpoints")
  else .ok record

/-- The default `write_branch`: the key, then the child page number. -/
def writeFixedBranch (writeKey : K → Bytes) (key : K) (child : Nat) : Except Error Bytes :=
  .ok (writeKey key ++ toLeBytes 4 child)

/-- The default `read_branch_child`. -/
def readFixedChild (keySize : Nat) (cell : Bytes) : Except Error Nat :=
  if keySize + 4 ≤ cell.length then .ok (leField cell keySize 4)
  else .error (.corrupt "B+tree branch record is too short")

variable (K)

def rangeCodec : Codec K (Record K) where
  branchType := 1
  leafType := 2
  aux := IpKey.family K
  keySize := IpKey.width K
  leafSize := IpKey.width K * 2 + 4
  maxBranchSize := IpKey.width K + 4
  maxLeafSize := IpKey.width K * 2 + 4
  leafLayout := .fixed (IpKey.width K * 2 + 4)
  branchLayout := .fixed (IpKey.width K + 4)
  readKey cell _ := .ok (IpKey.readLe cell 0)
  readLeaf := decodeCell
  writeBranch := writeFixedBranch IpKey.writeLe
  readBranchChild := readFixedChild (IpKey.width K)

variable {K}

theorem decodeCell_ok {cell : Bytes} {record : Record K} (decoded : decodeCell cell = .ok record) :
    cell.length = recordSize K ∧ record.from_ = IpKey.readLe cell 0 ∧
      record.from_ ≤ record.to_ := by
  unfold decodeCell decodeFields at decoded
  by_cases size : cell.length ≠ recordSize K
  · simp only [size, if_true, bind, Except.bind, ne_eq, not_false_eq_true] at decoded
    cases decoded
  · simp only [size, if_false, bind, Except.bind] at decoded
    split at decoded
    · cases decoded
    · rename_i ordered
      cases decoded
      exact ⟨not_not.mp size, rfl, not_lt.mp ordered⟩

theorem readFixedChild_append (key : Bytes) (child : Nat) (word : child < 2 ^ 32) :
    readFixedChild key.length (key ++ toLeBytes 4 child) = .ok child := by
  have read := leField_append_right key (toLeBytes 4 child) 0 4
  have value := leField_toLeBytes 4 child [] word
  rw [List.append_nil] at value
  rw [Nat.add_zero, value] at read
  simp [readFixedChild, read]

variable [LawfulIpKey K]

theorem readLe_write (key : K) (after : Bytes) :
    IpKey.readLe (IpKey.writeLe key ++ after) 0 = key := by
  simpa using LawfulIpKey.readWrite [] after key

theorem decodeCell_encode (record : Record K) (ordered : record.from_ ≤ record.to_) :
    decodeCell (IpKey.writeLe record.from_ ++ IpKey.writeLe record.to_ ++
      toLeBytes 4 record.value.toNat) = .ok record := by
  have fromLength := LawfulIpKey.writeLength record.from_
  have toLength := LawfulIpKey.writeLength record.to_
  have size : (IpKey.writeLe record.from_ ++ IpKey.writeLe record.to_ ++
      toLeBytes 4 record.value.toNat).length = recordSize K := by
    simp only [List.length_append, fromLength, toLength, toLeBytes_length, recordSize]
    omega
  have first : IpKey.readLe (IpKey.writeLe record.from_ ++ IpKey.writeLe record.to_ ++
      toLeBytes 4 record.value.toNat) 0 = record.from_ := by
    rw [List.append_assoc]
    exact readLe_write _ _
  have last : IpKey.readLe (IpKey.writeLe record.from_ ++ IpKey.writeLe record.to_ ++
      toLeBytes 4 record.value.toNat) (IpKey.width K) = record.to_ := by
    rw [← fromLength]
    exact LawfulIpKey.readWrite _ _ _
  have value : leField (IpKey.writeLe record.from_ ++ IpKey.writeLe record.to_ ++
      toLeBytes 4 record.value.toNat) (IpKey.width K * 2) 4 = record.value.toNat := by
    have skip := leField_append_right (IpKey.writeLe record.from_ ++ IpKey.writeLe record.to_)
      (toLeBytes 4 record.value.toNat) 0 4
    have read := leField_toLeBytes 4 record.value.toNat [] record.value.toNat_lt
    rw [List.append_nil] at read
    rw [List.length_append, fromLength, toLength, read] at skip
    rw [show IpKey.width K * 2 = IpKey.width K + IpKey.width K + 0 by omega]
    exact skip
  simp only [decodeCell, decodeFields, size, ne_eq, not_true_eq_false, if_false, bind, Except.bind,
    first, last, value, UInt32.ofNat_toNat, not_lt.mpr ordered]

theorem rangeCodec_lawful : FixedTree.LawfulCodec (rangeCodec K) := by
  have positive := LawfulIpKey.positive (K := K)
  have narrow := LawfulIpKey.narrow (K := K)
  refine ⟨?_, ?_, ?_, ?_, ?_, ?_⟩
  · unfold FixedTree.requireCodec
    rw [if_neg]
    simp only [Bool.or_eq_true, decide_eq_true_eq]
    simp only [rangeCodec, pageSize, headerSize, FixedTree.maxTreeCell]
    omega
  · exact fun cell leaf _ _ _ => ⟨_, rfl⟩
  · exact fun _ => rfl
  · exact fun _ _ => rfl
  · intro entry child word
    have length := LawfulIpKey.writeLength entry.key
    refine ⟨_, rfl, ?_, ?_, ?_, ?_, ?_⟩
    · intro none
      have empty := congrArg List.length none
      simp at empty
    · simp [rangeCodec, length]
    · simp [rangeCodec, CellLayout.Accepts, length]
    · intro level _
      simp only [rangeCodec, readLe_write]
    · have read := readFixedChild_append (IpKey.writeLe entry.key) child word
      rw [length] at read
      exact read
  · intro entry first second left right leftWritten rightWritten
    cases leftWritten
    cases rightWritten
    simp

omit [LawfulIpKey K] in
theorem rangeCodec_fixed : (rangeCodec K).leafSize ≠ 0 := by
  simp [rangeCodec]

theorem rangeCodec_small : ¬ FixedTree.maxTreeCell < (rangeCodec K).maxLeafSize := by
  have narrow := LawfulIpKey.narrow (K := K)
  simp only [rangeCodec, FixedTree.maxTreeCell]
  omega

def Record.entry (record : Record K) (ordered : record.from_ ≤ record.to_) :
    FixedTree.Entry (rangeCodec K) where
  cell := IpKey.writeLe record.from_ ++ IpKey.writeLe record.to_ ++ toLeBytes 4 record.value.toNat
  key := record.from_
  leaf := record
  present := by
    intro none
    have empty := congrArg List.length none
    simp at empty
  bounded := by
    simp [rangeCodec, LawfulIpKey.writeLength]
    omega
  layout := (decodeCell_ok (decodeCell_encode record ordered)).1
  keyRead := by
    rw [List.append_assoc]
    simp only [rangeCodec, readLe_write]
  leafRead := decodeCell_encode record ordered

end RangeCodec

end IpRange
