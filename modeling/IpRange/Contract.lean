import Mathlib.Data.List.Basic
import Mathlib.Tactic.Ring
import IpRange.Library.StateProgram

/-!
Shared vocabulary of the live database: failures, format constants and
little-endian fields.
-/

namespace IpRange

-- The numerals of feed indexes, membership ids and meta page slots.
instance neZero_index : NeZero (2 ^ 32) := ⟨by decide⟩

instance neZero_slot : NeZero 2 := ⟨by decide⟩

inductive Error where
  | invalidArgument (detail : String)
  | unsupported (detail : String)
  | corrupt (detail : String)
  | arithmeticOverflow (detail : String)
  | budgetExceeded (detail : String)
  | pageSpaceExhausted
  | membershipIdExhausted
  | structureIdExhausted
  | feedIndexExhausted
  | staleReference
  | nameExists
  | io (detail : String)
deriving DecidableEq, Repr

inductive ValueKind where
  | direct
  | membership
  | structured
deriving DecidableEq, Repr

abbrev Bytes := List UInt8

def pageSize : Nat := 4096
def headerSize : Nat := 32
def maxTreeLevel : Nat := 31
def maxPath : Nat := maxTreeLevel

/-- `PAGE_MAGIC` (`IP4P`) read as one little-endian word. -/
def pageMagic : Nat := 0x50345049

def privateMagic : Nat := 0x50465245

def toLeBytes : Nat → Nat → Bytes
  | 0, _ => []
  | width + 1, value => UInt8.ofNat value :: toLeBytes width (value / 256)

def fromLeBytes : Bytes → Nat
  | [] => 0
  | byte :: rest => byte.toNat + 256 * fromLeBytes rest

def leField (bytes : Bytes) (start width : Nat) : Nat :=
  fromLeBytes ((bytes.drop start).take width)

@[simp] theorem toLeBytes_length (width value : Nat) : (toLeBytes width value).length = width := by
  induction width generalizing value with
  | zero => rfl
  | succ width ih => simp [toLeBytes, ih]

theorem fromLeBytes_toLeBytes (width value : Nat) (bound : value < 256 ^ width) :
    fromLeBytes (toLeBytes width value) = value := by
  induction width generalizing value with
  | zero =>
    have zero : value = 0 := by simpa using bound
    simp [toLeBytes, fromLeBytes, zero]
  | succ width ih =>
    have high : value / 256 < 256 ^ width := by
      rw [Nat.div_lt_iff_lt_mul (by decide)]
      simpa [pow_succ] using bound
    simp only [toLeBytes, fromLeBytes, ih _ high, UInt8.toNat_ofNat']
    have split := Nat.mod_add_div value 256
    simpa using split

theorem fromLeBytes_lt (bytes : Bytes) : fromLeBytes bytes < 256 ^ bytes.length := by
  induction bytes with
  | nil => simp [fromLeBytes]
  | cons byte bytes ih =>
    have small := byte.toNat_lt
    rw [fromLeBytes, List.length_cons, pow_succ]
    omega

theorem toLeBytes_fromLeBytes (bytes : Bytes) : toLeBytes bytes.length (fromLeBytes bytes) = bytes := by
  induction bytes with
  | nil => rfl
  | cons byte bytes ih =>
    have small := byte.toNat_lt
    have low : UInt8.ofNat (byte.toNat + 256 * fromLeBytes bytes) = byte := by
      apply UInt8.toNat_inj.mp
      rw [UInt8.toNat_ofNat']
      omega
    have high : (byte.toNat + 256 * fromLeBytes bytes) / 256 = fromLeBytes bytes := by omega
    rw [fromLeBytes, List.length_cons, toLeBytes, low, high, ih]

theorem leField_lt (bytes : Bytes) (start width : Nat) : leField bytes start width < 256 ^ width :=
  lt_of_lt_of_le (fromLeBytes_lt _) (Nat.pow_le_pow_right (by decide) (by simp))

theorem leField_append_left (left right : Bytes) (start width : Nat)
    (inside : start + width ≤ left.length) :
    leField (left ++ right) start width = leField left start width := by
  unfold leField
  rw [List.drop_append_of_le_length (by omega), List.take_append_of_le_length (by simp; omega)]

theorem leField_append_right (left right : Bytes) (start width : Nat) :
    leField (left ++ right) (left.length + start) width = leField right start width := by
  unfold leField
  rw [List.drop_append, List.drop_eq_nil_of_le (by omega)]
  simp

theorem leField_toLeBytes (width value : Nat) (rest : Bytes) (bound : value < 256 ^ width) :
    leField (toLeBytes width value ++ rest) 0 width = value := by
  rw [leField_append_left _ _ _ _ (by simp)]
  simp [leField, List.take_of_length_le, fromLeBytes_toLeBytes width value bound]

end IpRange
