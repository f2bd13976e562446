import IpRange.RangeTree

/-!
The records of the membership dictionary. A record holds the bitmap of a set of
feeds inline, or the root of the blob tree that holds it.
-/

namespace IpRange.Membership

open SlottedPage FixedTree

abbrev Id := Fin (2 ^ 32)

def idBase : Nat := 64
def maxIdRecord : Nat := pageSize - headerSize - 2
def maxWordCount : Nat := 67108864

inductive Storage where
  | inline
  | blob (root : Nat)
deriving DecidableEq, Repr

structure Record where
  id : Id
  refcount : Nat
  wordCount : Nat
  digest : Bytes
  storage : Storage
deriving DecidableEq, Repr

section

variable (cell : Bytes)

def requireRecordEnvelope : Except Error Unit :=
  if cell.length < idBase || leField cell 0 2 ≠ cell.length || cell[3]? ≠ some 0 then
    .error (.corrupt "membership dictionary record is malformed")
  else .ok ()

def requireRecordFields (id wordCount bitmapLen : Nat) : Except Error Unit :=
  if id = 0 || wordCount = 0 || maxWordCount < wordCount || bitmapLen ≠ wordCount * 8 ||
      leField cell 28 4 ≠ 0 then
    .error (.corrupt "membership dictionary fields are malformed")
  else .ok ()

def decodeStorage (bitmapLen blobRoot : Nat) : Except Error Storage :=
  if cell[2]? = some 0 ∧ blobRoot = 0 ∧ cell.length = idBase + bitmapLen then .ok .inline
  else if cell[2]? = some 1 ∧ 2 ≤ blobRoot ∧ cell.length = idBase then .ok (.blob blobRoot)
  else .error (.corrupt "membership dictionary storage is malformed")

def decode : Except Error Record := do
  requireRecordEnvelope cell
  let id := leField cell 4 4
  let wordCount := leField cell 16 4
  let bitmapLen := leField cell 20 4
  requireRecordFields cell id wordCount bitmapLen
  let storage ← decodeStorage cell bitmapLen (leField cell 24 4)
  .ok { id := Fin.ofNat _ id, refcount := leField cell 8 8, wordCount,
        digest := (cell.drop 32).take 32, storage }

def decodeCanonical : Except Error Record := do
  let record ← decode cell
  if record.storage = .inline ∧ leField cell (cell.length - 8) 8 = 0 then
    .error (.corrupt "membership bitmap is not canonical")
  else .ok record

def decodeIdBranch : Except Error (Nat × Nat) :=
  if cell.length ≠ 8 then .error (.corrupt "membership ID branch record is malformed")
  else .ok (leField cell 0 4, leField cell 4 4)

end

def idCodec : Codec Id Record where
  branchType := 7
  leafType := 8
  aux := 0
  keySize := 4
  leafSize := 0
  maxBranchSize := 8
  maxLeafSize := maxIdRecord
  leafLayout := .varying idBase maxIdRecord
  branchLayout := .fixed 8
  readKey cell level :=
    if level = 0 then .ok (Fin.ofNat _ (leField cell 4 4))
    else (fun pair => Fin.ofNat _ pair.1) <$> decodeIdBranch cell
  readLeaf := decodeCanonical
  writeBranch := writeFixedBranch fun key => toLeBytes 4 key.val
  readBranchChild := readFixedChild 4

theorem idCodec_lawful : LawfulCodec idCodec := by
  refine ⟨by decide, fun _ _ _ _ _ => ⟨_, rfl⟩, by decide, fun _ _ => rfl, ?_, ?_⟩
  · intro entry child word
    have length : (toLeBytes 4 entry.key.val).length = 4 := toLeBytes_length _ _
    have size : (toLeBytes 4 entry.key.val ++ toLeBytes 4 child).length = 8 := by simp
    refine ⟨_, rfl, ?_, size.le, size, ?_, ?_⟩
    · intro none
      rw [none] at size
      cases size
    · intro level branch
      have read := leField_toLeBytes 4 entry.key.val (toLeBytes 4 child) entry.key.isLt
      simp only [idCodec, if_neg branch, decodeIdBranch, size, ne_eq, not_true_eq_false, if_false,
        read, Functor.map, Except.map]
      exact congrArg Except.ok (Fin.ofNat_val_eq_self _)
    · have read := readFixedChild_append (toLeBytes 4 entry.key.val) child word
      rw [length] at read
      exact read
  · rintro entry first second left right ⟨⟩ ⟨⟩
    simp

end IpRange.Membership
