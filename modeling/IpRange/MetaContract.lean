import IpRange.Contract
import IpRange.Library.FieldLayout

/-!
The meta page of a database file: its fields, how they are laid out, and the
checksum that covers them. A page that was encoded is read back as it was.
-/

namespace IpRange

def metaSize : Nat := 256
def maxPageCount : Nat := 2 ^ 32
def maxMetadataUncompressed : Nat := 20 * 1024 * 1024

namespace Meta

/-- `IPRANGE4`. -/
def metaMagic : Bytes := [73, 80, 82, 65, 78, 71, 69, 52]
def pageShift : UInt8 := 12
def metaCrcOffset : Nat := 252

inductive AddressFamily where
  | ipv4
  | ipv6
deriving DecidableEq, Repr

def AddressFamily.wire : AddressFamily → UInt8
  | .ipv4 => 4
  | .ipv6 => 6

def AddressFamily.fromWire (code : UInt8) : Option AddressFamily :=
  if code = 4 then some .ipv4 else if code = 6 then some .ipv6 else none

def valueKindWire : ValueKind → UInt8
  | .direct => 1
  | .membership => 2
  | .structured => 3

def valueKindFromWire (code : UInt8) : Option ValueKind :=
  if code = 1 then some .direct
  else if code = 2 then some .membership
  else if code = 3 then some .structured
  else none

/-- The structures a database may hold; `none` stands for a code that is not known. -/
inductive StructureKind where
  | absent
  | networkEnrichmentV1
deriving DecidableEq, Repr

def StructureKind.fromWire (code : UInt8) : Option StructureKind :=
  if code = 0 then some .absent else if code = 1 then some .networkEnrichmentV1 else none

structure Array16 where
  bytes : Bytes
  size : bytes.length = 16
deriving DecidableEq

def Array16.zero : Array16 := ⟨List.replicate 16 0, rfl⟩

def terminated (storage : Bytes) : Bool :=
  match storage.idxOf? 0 with
  | none => false
  | some nul => (storage.drop nul).all (· == 0)

structure ValueTag where
  wire : Array16
  valid : terminated wire.bytes = true
deriving DecidableEq

def ValueTag.fromWire (storage : Array16) : Option ValueTag :=
  if valid : terminated storage.bytes = true then some ⟨storage, valid⟩ else none

@[ext] structure MetaV4 where
  addressFamily : AddressFamily
  valueKind : ValueKind
  structureKindCode : UInt8
  valueTag : ValueTag
  databaseId : Array16
  txnId : UInt64
  commitNonce : Array16
  pageCount : UInt64
  rangeRecordCount : UInt64
  activeFeedCount : UInt64
  feedIndexLimit : UInt64
  membershipEntryCount : UInt64
  membershipIdLimit : UInt64
  metadataUncompressedLen : UInt64
  metadataCompressedLen : UInt64
  retiredExtentCount : UInt64
  rangeRoot : UInt32
  catalogNameRoot : UInt32
  catalogIndexRoot : UInt32
  feedUsedRoot : UInt32
  membershipIdRoot : UInt32
  membershipHashRoot : UInt32
  membershipUsedRoot : UInt32
  metadataRoot : UInt32
  freeBitmapRoot : UInt32
  retirementRoot : UInt32
  allocatorReserve : UInt32 × UInt32 × UInt32 × UInt32
  structureEntryCount : UInt64
  structureIdLimit : UInt64
  structureIdRoot : UInt32
  structureHashRoot : UInt32
  structureUsedRoot : UInt32
deriving DecidableEq

def u64 (value : UInt64) : Bytes := toLeBytes 8 value.toNat
def u32 (value : UInt32) : Bytes := toLeBytes 4 value.toNat

/-- What `encode_fields` writes into a page of zeros, with the offset of each part. -/
def encodeFields (value : MetaV4) : List (Nat × Bytes) :=
  [(0, metaMagic), (8, toLeBytes 2 metaSize), (10, [pageShift]), (11, [value.addressFamily.wire]),
   (12, [valueKindWire value.valueKind]), (13, [value.structureKindCode]),
   (16, value.valueTag.wire.bytes), (32, value.databaseId.bytes), (48, u64 value.txnId),
   (56, value.commitNonce.bytes), (72, u64 value.pageCount), (80, u64 value.rangeRecordCount),
   (88, u64 value.activeFeedCount), (96, u64 value.feedIndexLimit),
   (104, u64 value.membershipEntryCount), (112, u64 value.membershipIdLimit),
   (120, u64 value.metadataUncompressedLen), (128, u64 value.metadataCompressedLen),
   (136, u64 value.retiredExtentCount), (144, u32 value.rangeRoot), (148, u32 value.catalogNameRoot),
   (152, u32 value.catalogIndexRoot), (156, u32 value.feedUsedRoot), (160, u32 value.membershipIdRoot),
   (164, u32 value.membershipHashRoot), (168, u32 value.membershipUsedRoot),
   (172, u32 value.metadataRoot), (176, u32 value.freeBitmapRoot), (180, u32 value.retirementRoot),
   (184, u32 value.allocatorReserve.1), (188, u32 value.allocatorReserve.2.1),
   (192, u32 value.allocatorReserve.2.2.1), (196, u32 value.allocatorReserve.2.2.2),
   (200, u64 value.structureEntryCount), (208, u64 value.structureIdLimit),
   (216, u32 value.structureIdRoot), (220, u32 value.structureHashRoot),
   (224, u32 value.structureUsedRoot)]

def crcTable (index : UInt32) : UInt32 :=
  (List.range 8).foldl (fun crc _ => (crc >>> 1) ^^^ (0x82f63b78 &&& (0 - (crc &&& 1)))) index

def crcByte (crc : UInt32) (byte : UInt8) : UInt32 :=
  crcTable ((crc ^^^ byte.toUInt32) &&& 0xff) ^^^ (crc >>> 8)

def crc32cWithZeroed (bytes : Bytes) (zeroAt zeroLen : Nat) : UInt32 :=
  ~~~ ((overwrite zeroAt (List.replicate zeroLen 0) bytes).foldl crcByte 0xffffffff)

def encodeMapped (value : MetaV4) : Bytes :=
  let page := writeFields (encodeFields value) (List.replicate pageSize 0)
  overwrite metaCrcOffset (u32 (crc32cWithZeroed page metaCrcOffset 4)) page

def array16 (page : Bytes) (at_ : Nat) : Option Array16 :=
  if size : (slice at_ 16 page).length = 16 then some ⟨slice at_ 16 page, size⟩ else none

def u64Source (page : Bytes) (at_ : Nat) : UInt64 := UInt64.ofNat (leField page at_ 8)
def u32Source (page : Bytes) (at_ : Nat) : UInt32 := UInt32.ofNat (leField page at_ 4)

def decodeUnchecked (page : Bytes) : Option MetaV4 := do
  let tag ← array16 page 16
  let databaseId ← array16 page 32
  let commitNonce ← array16 page 56
  let addressFamily ← AddressFamily.fromWire (← (slice 11 1 page).head?)
  let valueKind ← valueKindFromWire (← (slice 12 1 page).head?)
  let structureKindCode ← (slice 13 1 page).head?
  let valueTag ← ValueTag.fromWire tag
  some
    { addressFamily, valueKind, structureKindCode, valueTag, databaseId, txnId := u64Source page 48
      commitNonce, pageCount := u64Source page 72, rangeRecordCount := u64Source page 80
      activeFeedCount := u64Source page 88, feedIndexLimit := u64Source page 96
      membershipEntryCount := u64Source page 104, membershipIdLimit := u64Source page 112
      metadataUncompressedLen := u64Source page 120, metadataCompressedLen := u64Source page 128
      retiredExtentCount := u64Source page 136, rangeRoot := u32Source page 144
      catalogNameRoot := u32Source page 148, catalogIndexRoot := u32Source page 152
      feedUsedRoot := u32Source page 156, membershipIdRoot := u32Source page 160
      membershipHashRoot := u32Source page 164, membershipUsedRoot := u32Source page 168
      metadataRoot := u32Source page 172, freeBitmapRoot := u32Source page 176
      retirementRoot := u32Source page 180
      allocatorReserve := (u32Source page 184, u32Source page 188, u32Source page 192,
        u32Source page 196)
      structureEntryCount := u64Source page 200, structureIdLimit := u64Source page 208
      structureIdRoot := u32Source page 216, structureHashRoot := u32Source page 220
      structureUsedRoot := u32Source page 224 }

def MetaV4.staticIdentityEq (left right : MetaV4) : Bool :=
  left.addressFamily = right.addressFamily && left.valueKind = right.valueKind &&
    left.structureKindCode = right.structureKindCode && left.valueTag = right.valueTag &&
    left.databaseId = right.databaseId

def MetaV4.roots (value : MetaV4) : List UInt32 :=
  [value.rangeRoot, value.catalogNameRoot, value.catalogIndexRoot, value.feedUsedRoot,
   value.membershipIdRoot, value.membershipHashRoot, value.membershipUsedRoot, value.metadataRoot,
   value.freeBitmapRoot, value.retirementRoot, value.structureIdRoot, value.structureHashRoot,
   value.structureUsedRoot]

def MetaV4.structureKind (value : MetaV4) : Option StructureKind :=
  StructureKind.fromWire value.structureKindCode

def metaMagicValid (page : Bytes) : Bool :=
  page.length == pageSize && slice 0 8 page == metaMagic

def metaFixedValuesValid (page : Bytes) : Bool :=
  leField page 8 2 == metaSize && slice 10 1 page == [pageShift] &&
    ((slice 11 1 page).head?.bind AddressFamily.fromWire).isSome &&
    ((slice 12 1 page).head?.bind valueKindFromWire).isSome

def allZero (page : Bytes) (at_ length : Nat) : Bool := (slice at_ length page).all (· == 0)

def metaReservedZero (page : Bytes) : Bool :=
  allZero page 14 2 && allZero page 228 (metaCrcOffset - 228) &&
    allZero page metaSize (pageSize - metaSize)

def metaChecksumValid (page : Bytes) : Bool :=
  u32Source page metaCrcOffset == crc32cWithZeroed page metaCrcOffset 4

section RoundTrip

variable {value : MetaV4}

@[simp] theorem length_u64 (number : UInt64) : (u64 number).length = 8 := toLeBytes_length _ _

@[simp] theorem length_u32 (number : UInt32) : (u32 number).length = 4 := toLeBytes_length _ _

theorem encodeFields_laid : Laid 0 (encodeFields value) metaCrcOffset := by
  simp [encodeFields, Laid, metaMagic, metaCrcOffset, Array16.size]

def unsealed (value : MetaV4) : Bytes := writeFields (encodeFields value) (List.replicate pageSize 0)

theorem length_unsealed : (unsealed value).length = pageSize := by
  have laid : Laid 0 (encodeFields value) (List.replicate pageSize (0 : UInt8)).length := by
    rw [List.length_replicate]
    exact Laid.mono encodeFields_laid (by decide)
  rw [unsealed, length_writeFields laid, List.length_replicate]

theorem length_encodeMapped : (encodeMapped value).length = pageSize := by
  refine (length_overwrite ?_).trans length_unsealed
  rw [← unsealed, length_unsealed, length_u32]
  decide

variable {at_ length : Nat}

theorem slice_encodeMapped (apart : at_ + length ≤ metaCrcOffset ∨ metaCrcOffset + 4 ≤ at_) :
    slice at_ length (encodeMapped value) = slice at_ length (unsealed value) := by
  refine slice_overwrite_other ?_ ?_
  · rw [← unsealed, length_unsealed, length_u32]
    decide
  · rwa [length_u32]

theorem unsealed_laid :
    Laid 0 (encodeFields value) (List.replicate pageSize (0 : UInt8)).length := by
  rw [List.length_replicate]
  exact encodeFields_laid.mono (by decide)

theorem encoded_field {bytes : Bytes} (member : (at_, bytes) ∈ encodeFields value)
    (long : bytes.length = length) : slice at_ length (encodeMapped value) = bytes := by
  subst long
  rw [slice_encodeMapped (Or.inl (encodeFields_laid.before member)), unsealed]
  exact slice_writeFields unsealed_laid member

theorem encoded_zero
    (apart : ∀ field ∈ encodeFields value, at_ + length ≤ field.1 ∨ field.1 + field.2.length ≤ at_)
    (beside : at_ + length ≤ metaCrcOffset ∨ metaCrcOffset + 4 ≤ at_) :
    allZero (encodeMapped value) at_ length = true := by
  rw [allZero, slice_encodeMapped beside, unsealed, slice_writeFields_other unsealed_laid apart,
    List.all_eq_true]
  intro byte member
  have zero := List.eq_of_mem_replicate (List.mem_of_mem_drop (List.mem_of_mem_take member))
  rw [zero]
  rfl

theorem encoded_u64 {number : UInt64} (member : (at_, u64 number) ∈ encodeFields value) :
    u64Source (encodeMapped value) at_ = number := by
  have read := encoded_field member (length_u64 number)
  rw [u64Source, leField, ← slice, read, u64, fromLeBytes_toLeBytes 8 _ number.toNat_lt,
    UInt64.ofNat_toNat]

theorem encoded_u32 {number : UInt32} (member : (at_, u32 number) ∈ encodeFields value) :
    u32Source (encodeMapped value) at_ = number := by
  have read := encoded_field member (length_u32 number)
  rw [u32Source, leField, ← slice, read, u32, fromLeBytes_toLeBytes 4 _ number.toNat_lt,
    UInt32.ofNat_toNat]

theorem encoded_array {array : Array16} (member : (at_, array.bytes) ∈ encodeFields value) :
    array16 (encodeMapped value) at_ = some array := by
  have read := encoded_field member array.size
  simp only [array16, read, array.size, dite_true]

theorem encoded_byte {byte : UInt8} (member : (at_, [byte]) ∈ encodeFields value) :
    slice at_ 1 (encodeMapped value) = [byte] := encoded_field member rfl

theorem addressFamily_wire (family : AddressFamily) :
    AddressFamily.fromWire family.wire = some family := by
  cases family <;> rfl

theorem valueKind_wire (kind : ValueKind) : valueKindFromWire (valueKindWire kind) = some kind := by
  cases kind <;> rfl

theorem valueTag_wire (tag : ValueTag) : ValueTag.fromWire tag.wire = some tag := by
  simp [ValueTag.fromWire, tag.valid]

theorem decodeUnchecked_encodeMapped : decodeUnchecked (encodeMapped value) = some value := by
  have tag : array16 (encodeMapped value) 16 = some value.valueTag.wire :=
    encoded_array (by simp [encodeFields])
  have databaseId : array16 (encodeMapped value) 32 = some value.databaseId :=
    encoded_array (by simp [encodeFields])
  have nonce : array16 (encodeMapped value) 56 = some value.commitNonce :=
    encoded_array (by simp [encodeFields])
  have family : slice 11 1 (encodeMapped value) = [value.addressFamily.wire] :=
    encoded_byte (by simp [encodeFields])
  have kind : slice 12 1 (encodeMapped value) = [valueKindWire value.valueKind] :=
    encoded_byte (by simp [encodeFields])
  have structured : slice 13 1 (encodeMapped value) = [value.structureKindCode] :=
    encoded_byte (by simp [encodeFields])
  simp only [decodeUnchecked, tag, databaseId, nonce, family, kind, structured, List.head?_cons,
    addressFamily_wire, valueKind_wire, valueTag_wire, Option.bind_eq_bind, Option.bind_some]
  apply congrArg some
  apply MetaV4.ext
  case allocatorReserve =>
    refine Prod.ext (encoded_u32 ?_) (Prod.ext (encoded_u32 ?_) (Prod.ext (encoded_u32 ?_)
      (encoded_u32 ?_)))
    all_goals simp [encodeFields]
  all_goals first
    | (refine encoded_u64 ?_; simp [encodeFields])
    | (refine encoded_u32 ?_; simp [encodeFields])
    | rfl

theorem metaMagicValid_encodeMapped : metaMagicValid (encodeMapped value) = true := by
  have magic : slice 0 8 (encodeMapped value) = metaMagic :=
    encoded_field (by simp [encodeFields]) rfl
  simp [metaMagicValid, length_encodeMapped, magic]

theorem metaFixedValuesValid_encodeMapped : metaFixedValuesValid (encodeMapped value) = true := by
  have size : slice 8 2 (encodeMapped value) = toLeBytes 2 metaSize :=
    encoded_field (by simp [encodeFields]) (toLeBytes_length _ _)
  have shift : slice 10 1 (encodeMapped value) = [pageShift] := encoded_byte (by simp [encodeFields])
  have family : slice 11 1 (encodeMapped value) = [value.addressFamily.wire] :=
    encoded_byte (by simp [encodeFields])
  have kind : slice 12 1 (encodeMapped value) = [valueKindWire value.valueKind] :=
    encoded_byte (by simp [encodeFields])
  have declared : leField (encodeMapped value) 8 2 = metaSize := by
    rw [leField, ← slice, size, fromLeBytes_toLeBytes 2 metaSize (by decide)]
  simp [metaFixedValuesValid, declared, shift, family, kind, addressFamily_wire, valueKind_wire]

theorem metaReservedZero_encodeMapped : metaReservedZero (encodeMapped value) = true := by
  have header : allZero (encodeMapped value) 14 2 = true :=
    encoded_zero (by simp [encodeFields, metaMagic, Array16.size]) (Or.inl (by decide))
  have body : allZero (encodeMapped value) 228 (metaCrcOffset - 228) = true :=
    encoded_zero (by simp [encodeFields, metaMagic, Array16.size]) (Or.inl (by decide))
  have rest : allZero (encodeMapped value) metaSize (pageSize - metaSize) = true := by
    refine encoded_zero (fun field member => Or.inr ?_) (Or.inr (by decide))
    exact Nat.le_trans (encodeFields_laid.before member) (by decide)
  simp [metaReservedZero, header, body, rest]

theorem metaChecksumValid_encodeMapped : metaChecksumValid (encodeMapped value) = true := by
  have fits : metaCrcOffset + (u32 (crc32cWithZeroed (unsealed value) metaCrcOffset 4)).length ≤
      (unsealed value).length := by
    rw [length_unsealed, length_u32]
    decide
  have stored := slice_overwrite_self fits
  rw [length_u32] at stored
  have read : u32Source (encodeMapped value) metaCrcOffset =
      crc32cWithZeroed (unsealed value) metaCrcOffset 4 := by
    rw [u32Source, leField, ← slice, encodeMapped, ← unsealed, stored, u32,
      fromLeBytes_toLeBytes 4 _ (UInt32.toNat_lt _), UInt32.ofNat_toNat]
  have same : crc32cWithZeroed (encodeMapped value) metaCrcOffset 4 =
      crc32cWithZeroed (unsealed value) metaCrcOffset 4 := by
    rw [crc32cWithZeroed, encodeMapped, ← unsealed, overwrite_overwrite (by simp), ← crc32cWithZeroed]
    rw [length_unsealed]
    decide
  rw [metaChecksumValid, read, same]
  exact beq_self_eq_true _

theorem decodeUnchecked_take (page : Bytes) :
    decodeUnchecked (page.take metaSize) = decodeUnchecked page := by
  have field {at_ width : Nat} (inside : at_ + width ≤ metaSize) :
      leField (page.take metaSize) at_ width = leField page at_ width :=
    congrArg fromLeBytes (slice_take inside)
  simp (disch := decide) only [decodeUnchecked, array16, u64Source, u32Source, field, slice_take]

end RoundTrip

end Meta

end IpRange
