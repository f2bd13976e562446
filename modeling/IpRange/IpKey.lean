import Mathlib.Order.Atoms
import IpRange.Contract

/-!
Numeric IPv4 and IPv6 keys: order, neighbours and little-endian form. Range
code is written once over the interface; its laws tie a key to its number.
-/

namespace IpRange

class IpKey (K : Type) extends LinearOrder K where
  width : Nat
  family : Nat
  readLe : Bytes → Nat → K
  writeLe : K → Bytes
  checkedNext : K → Option K
  checkedPrevious : K → Option K
  inclusiveCardinality : K → K → Except Error Nat

/-- Keys are the numbers of `width` bytes, in numeric order. -/
class LawfulIpKey (K : Type) [IpKey K] where
  rank : K → Nat
  lt_iff_rank : ∀ left right : K, left < right ↔ rank left < rank right
  rank_bound : ∀ key : K, rank key < 256 ^ IpKey.width K
  rank_surjective : ∀ number < 256 ^ IpKey.width K, ∃ key : K, rank key = number
  next : ∀ left right : K, IpKey.checkedNext left = some right ↔ rank right = rank left + 1
  previous : ∀ left right : K, IpKey.checkedPrevious right = some left ↔ rank right = rank left + 1
  cardinality : ∀ from_ to_ : K, from_ ≤ to_ →
    IpKey.inclusiveCardinality from_ to_ = .ok (rank to_ - rank from_ + 1)
  positive : 0 < IpKey.width K
  narrow : IpKey.width K ≤ 16
  writeLength : ∀ key : K, (IpKey.writeLe key).length = IpKey.width K
  readWrite : ∀ (before after : Bytes) (key : K),
    IpKey.readLe (before ++ IpKey.writeLe key ++ after) before.length = key

section Laws

variable {K : Type} [IpKey K] [LawfulIpKey K]

open LawfulIpKey

theorem covBy_iff_rank (left right : K) : left ⋖ right ↔ rank right = rank left + 1 := by
  constructor
  · rintro ⟨below, nothing⟩
    have order := (lt_iff_rank left right).mp below
    by_contra apart
    obtain ⟨middle, number⟩ := rank_surjective (K := K) (rank left + 1) (by
      have := rank_bound right
      omega)
    exact nothing ((lt_iff_rank left middle).mpr (by omega)) ((lt_iff_rank middle right).mpr (by omega))
  · intro adjacent
    refine ⟨(lt_iff_rank left right).mpr (by omega), fun middle above below => ?_⟩
    have low := (lt_iff_rank left middle).mp above
    have high := (lt_iff_rank middle right).mp below
    omega

theorem checkedNext_iff (left right : K) : IpKey.checkedNext left = some right ↔ left ⋖ right := by
  rw [next, covBy_iff_rank]

theorem checkedPrevious_iff (left right : K) :
    IpKey.checkedPrevious right = some left ↔ left ⋖ right := by
  rw [previous, covBy_iff_rank]

theorem exists_next {key above : K} (below : key < above) :
    ∃ successor, IpKey.checkedNext key = some successor ∧ successor ≤ above := by
  have order := (lt_iff_rank key above).mp below
  obtain ⟨successor, number⟩ := rank_surjective (K := K) (rank key + 1) (by
    have := rank_bound above
    omega)
  refine ⟨successor, (next key successor).mpr number, not_lt.mp fun past => ?_⟩
  have := (lt_iff_rank above successor).mp past
  omega

theorem isStronglyAtomic : IsStronglyAtomic K where
  exists_covBy_le_of_lt key above below := by
    obtain ⟨successor, found, bound⟩ := exists_next below
    exact ⟨successor, (checkedNext_iff key successor).mp found, bound⟩

theorem exists_previous {below key : K} (above : below < key) :
    ∃ predecessor, IpKey.checkedPrevious key = some predecessor ∧ below ≤ predecessor := by
  have order := (lt_iff_rank below key).mp above
  obtain ⟨predecessor, number⟩ := rank_surjective (K := K) (rank key - 1) (by
    have := rank_bound key
    omega)
  refine ⟨predecessor, (previous predecessor key).mpr (by omega), not_lt.mp fun past => ?_⟩
  have := (lt_iff_rank predecessor below).mp past
  omega

end Laws

@[ext] structure Ipv4Key where
  value : UInt32
deriving DecidableEq, Repr

@[ext] structure Ipv6Key where
  hi : UInt64
  lo : UInt64
deriving DecidableEq, Repr

namespace Ipv4Key

def number (key : Ipv4Key) : Nat := key.value.toNat

theorem number_injective : Function.Injective number := by
  intro left right same
  exact Ipv4Key.ext (UInt32.toNat_inj.mp same)

instance : LinearOrder Ipv4Key := LinearOrder.lift' number number_injective

instance : IpKey Ipv4Key where
  width := 4
  family := 4
  readLe source start := ⟨UInt32.ofNat (leField source start 4)⟩
  writeLe key := toLeBytes 4 key.value.toNat
  checkedNext key := if key.value.toNat + 1 < 2 ^ 32 then some ⟨key.value + 1⟩ else none
  checkedPrevious key := if key.value = 0 then none else some ⟨key.value - 1⟩
  inclusiveCardinality from_ to_ :=
    if to_ < from_ then .error (.arithmeticOverflow "IPv4 interval cardinality")
    else .ok (to_.value.toNat - from_.value.toNat + 1)

theorem next_iff (left right : Ipv4Key) :
    IpKey.checkedNext left = some right ↔ right.number = left.number + 1 := by
  have low := left.value.toNat_lt
  have high := right.value.toNat_lt
  simp only [IpKey.checkedNext, number]
  split
  · rename_i inside
    have sum : (left.value + 1).toNat = left.value.toNat + 1 := by
      rw [UInt32.toNat_add]
      exact Nat.mod_eq_of_lt inside
    rw [Option.some.injEq, Ipv4Key.ext_iff, ← UInt32.toNat_inj, sum]
    exact eq_comm
  · simp only [reduceCtorEq, false_iff]
    omega

theorem previous_iff (left right : Ipv4Key) :
    IpKey.checkedPrevious right = some left ↔ right.number = left.number + 1 := by
  have zero : right.value = 0 ↔ right.value.toNat = 0 := UInt32.toNat_inj.symm
  simp only [IpKey.checkedPrevious, number, zero]
  split
  · simp only [reduceCtorEq, false_iff]
    omega
  · have one : (1 : UInt32) ≤ right.value := by
      rw [UInt32.le_iff_toNat_le]
      exact Nat.one_le_iff_ne_zero.mpr ‹_›
    rw [Option.some.injEq, Ipv4Key.ext_iff, ← UInt32.toNat_inj, UInt32.toNat_sub_of_le _ _ one]
    have unit : (1 : UInt32).toNat = 1 := rfl
    omega

instance : LawfulIpKey Ipv4Key where
  rank := number
  lt_iff_rank _ _ := Iff.rfl
  rank_bound key := key.value.toNat_lt
  rank_surjective value bound := ⟨⟨UInt32.ofNat value⟩, UInt32.toNat_ofNat_of_lt' bound⟩
  next := next_iff
  previous := previous_iff
  cardinality _ _ ordered := if_neg (not_lt.mpr ordered)
  positive := by decide
  narrow := by decide
  writeLength _ := toLeBytes_length _ _
  readWrite before after key := by
    have read : leField (before ++ toLeBytes 4 key.value.toNat ++ after) before.length 4 =
        key.value.toNat := by
      rw [List.append_assoc]
      exact (leField_append_right before _ 0 4).trans
        (leField_toLeBytes 4 _ after key.value.toNat_lt)
    simp only [IpKey.readLe, IpKey.writeLe, read, UInt32.ofNat_toNat]

end Ipv4Key

namespace Ipv6Key

def number (key : Ipv6Key) : Nat := key.hi.toNat * 2 ^ 64 + key.lo.toNat

theorem number_injective : Function.Injective number := by
  intro left right same
  have leftLow := left.lo.toNat_lt
  have rightLow := right.lo.toNat_lt
  simp only [number] at same
  exact Ipv6Key.ext (UInt64.toNat_inj.mp (by omega)) (UInt64.toNat_inj.mp (by omega))

/-- The derived order compares the high halves first. -/
instance : LinearOrder Ipv6Key := LinearOrder.lift' number number_injective

theorem lt_iff (left right : Ipv6Key) :
    left < right ↔ left.hi < right.hi ∨ left.hi = right.hi ∧ left.lo < right.lo := by
  have leftLow := left.lo.toNat_lt
  have rightLow := right.lo.toNat_lt
  have order : left < right ↔ left.number < right.number := Iff.rfl
  rw [order, UInt64.lt_iff_toNat_lt, UInt64.lt_iff_toNat_lt, ← UInt64.toNat_inj]
  simp only [number]
  omega

instance : IpKey Ipv6Key where
  width := 16
  family := 6
  readLe source start :=
    { hi := UInt64.ofNat (leField source (start + 8) 8), lo := UInt64.ofNat (leField source start 8) }
  writeLe key := toLeBytes 8 key.lo.toNat ++ toLeBytes 8 key.hi.toNat
  checkedNext key :=
    if key.hi = UInt64.ofNat (2 ^ 64 - 1) ∧ key.lo = UInt64.ofNat (2 ^ 64 - 1) then none
    else if key.lo = UInt64.ofNat (2 ^ 64 - 1) then some { hi := key.hi + 1, lo := 0 }
    else some { hi := key.hi, lo := key.lo + 1 }
  checkedPrevious key :=
    if key.hi = 0 ∧ key.lo = 0 then none
    else if key.lo = 0 then some { hi := key.hi - 1, lo := UInt64.ofNat (2 ^ 64 - 1) }
    else some { hi := key.hi, lo := key.lo - 1 }
  -- the low halves are subtracted with a borrow from the high ones
  inclusiveCardinality from_ to_ :=
    if to_ < from_ then .error (.arithmeticOverflow "IPv6 interval cardinality")
    else .ok ((to_.hi.toNat - from_.hi.toNat - if to_.lo < from_.lo then 1 else 0) * 2 ^ 64 +
      (to_.lo - from_.lo).toNat + 1)

theorem limb_max (limb : UInt64) : limb = UInt64.ofNat (2 ^ 64 - 1) ↔ limb.toNat = 2 ^ 64 - 1 := by
  rw [← UInt64.toNat_inj]
  exact Iff.rfl

theorem limb_next (limb : UInt64) (below : limb.toNat ≠ 2 ^ 64 - 1) :
    (limb + 1).toNat = limb.toNat + 1 := by
  have bound := limb.toNat_lt
  have unit : (1 : UInt64).toNat = 1 := rfl
  rw [UInt64.toNat_add, unit]
  exact Nat.mod_eq_of_lt (by omega)

theorem limb_previous (limb : UInt64) (above : limb.toNat ≠ 0) :
    (limb - 1).toNat = limb.toNat - 1 := by
  have one : (1 : UInt64) ≤ limb := by
    rw [UInt64.le_iff_toNat_le]
    exact Nat.one_le_iff_ne_zero.mpr above
  rw [UInt64.toNat_sub_of_le _ _ one]
  rfl

theorem next_iff (left right : Ipv6Key) :
    IpKey.checkedNext left = some right ↔ right.number = left.number + 1 := by
  have leftHigh := left.hi.toNat_lt
  have leftLow := left.lo.toNat_lt
  have rightHigh := right.hi.toNat_lt
  have rightLow := right.lo.toNat_lt
  have zero : (0 : UInt64).toNat = 0 := rfl
  simp only [IpKey.checkedNext, number, limb_max]
  split
  · simp only [reduceCtorEq, false_iff]
    omega
  · split
    · simp only [Option.some.injEq, Ipv6Key.ext_iff, ← UInt64.toNat_inj,
        limb_next left.hi (by omega)]
      omega
    · simp only [Option.some.injEq, Ipv6Key.ext_iff, ← UInt64.toNat_inj, limb_next left.lo ‹_›]
      omega

theorem previous_iff (left right : Ipv6Key) :
    IpKey.checkedPrevious right = some left ↔ right.number = left.number + 1 := by
  have leftHigh := left.hi.toNat_lt
  have leftLow := left.lo.toNat_lt
  have rightHigh := right.hi.toNat_lt
  have rightLow := right.lo.toNat_lt
  have zero : ∀ limb : UInt64, limb = 0 ↔ limb.toNat = 0 := fun limb => UInt64.toNat_inj.symm
  have full : (UInt64.ofNat (2 ^ 64 - 1)).toNat = 2 ^ 64 - 1 := rfl
  simp only [IpKey.checkedPrevious, number, zero]
  split
  · simp only [reduceCtorEq, false_iff]
    omega
  · split
    · simp only [Option.some.injEq, Ipv6Key.ext_iff, ← UInt64.toNat_inj,
        limb_previous right.hi (by omega), full]
      omega
    · simp only [Option.some.injEq, Ipv6Key.ext_iff, ← UInt64.toNat_inj,
        limb_previous right.lo ‹_›]
      omega

theorem cardinality_eq (from_ to_ : Ipv6Key) (ordered : from_ ≤ to_) :
    IpKey.inclusiveCardinality from_ to_ = .ok (to_.number - from_.number + 1) := by
  have fromLow := from_.lo.toNat_lt
  have toLow := to_.lo.toNat_lt
  have order : from_.number ≤ to_.number := ordered
  simp only [IpKey.inclusiveCardinality, if_neg (not_lt.mpr ordered), number, UInt64.toNat_sub,
    UInt64.lt_iff_toNat_lt] at order ⊢
  congr 1
  split
  · omega
  · omega

instance : LawfulIpKey Ipv6Key where
  rank := number
  lt_iff_rank _ _ := Iff.rfl
  rank_bound key := by
    have high := key.hi.toNat_lt
    have low := key.lo.toNat_lt
    have size : (256 : Nat) ^ IpKey.width Ipv6Key = 2 ^ 64 * 2 ^ 64 := rfl
    simp only [number, size]
    omega
  rank_surjective value bound := by
    have size : (256 : Nat) ^ IpKey.width Ipv6Key = 2 ^ 64 * 2 ^ 64 := rfl
    rw [size] at bound
    refine ⟨⟨UInt64.ofNat (value / 2 ^ 64), UInt64.ofNat (value % 2 ^ 64)⟩, ?_⟩
    simp only [number]
    rw [UInt64.toNat_ofNat_of_lt' (show value / 2 ^ 64 < 2 ^ 64 by omega),
      UInt64.toNat_ofNat_of_lt' (show value % 2 ^ 64 < 2 ^ 64 by omega)]
    omega
  next := next_iff
  previous := previous_iff
  cardinality := cardinality_eq
  positive := by decide
  narrow := by decide
  writeLength _ := by simp [IpKey.writeLe, IpKey.width]
  readWrite before after key := by
    have low : leField (before ++ (toLeBytes 8 key.lo.toNat ++ toLeBytes 8 key.hi.toNat) ++ after)
        before.length 8 = key.lo.toNat := by
      rw [List.append_assoc, List.append_assoc]
      exact (leField_append_right before _ 0 8).trans
        (leField_toLeBytes 8 _ _ key.lo.toNat_lt)
    have high : leField (before ++ (toLeBytes 8 key.lo.toNat ++ toLeBytes 8 key.hi.toNat) ++ after)
        (before.length + 8) 8 = key.hi.toNat := by
      rw [List.append_assoc, List.append_assoc]
      refine (leField_append_right before _ 8 8).trans ?_
      have skip := leField_append_right (toLeBytes 8 key.lo.toNat)
        (toLeBytes 8 key.hi.toNat ++ after) 0 8
      rw [toLeBytes_length] at skip
      exact skip.trans (leField_toLeBytes 8 _ after key.hi.toNat_lt)
    simp only [IpKey.readLe, IpKey.writeLe, low, high, UInt64.ofNat_toNat]

end Ipv6Key

end IpRange
