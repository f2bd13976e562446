import IpRange.MetaContract

/-!
Selection of the committed generation from the two meta pages of a file, and the
resolution of a commit attempt from the same two pages.
-/

namespace IpRange.Meta

inductive OpenMode where
  | immutableReader
  | liveReader
  | writer
deriving DecidableEq, Repr

inductive MetaSelection where
  | provenCurrent
  | soleMeta0
  | soleMeta1
deriving DecidableEq, Repr

inductive MetaProblem where
  | magic
  | fixedValue
  | reserved
  | tag
  | databaseId
  | checksum
  | commitNonce
  | transaction
  | pageCount
  | physicalLength
  | rootBounds
  | kindInvariant
  | countInvariant
  | metadataInvariant
  | retirementInvariant
  | allocatorReserve
deriving DecidableEq, Repr

inductive BootstrapError where
  | fileTooShort
  | fileUnaligned
  | hostAddressability
  | staticIdentityMismatch
  | noBootstrapMeta (meta0 meta1 : MetaProblem)
  | transactionGap
  | physicalParity
  | equalTransactionDisagreement
  | currentGenerationUnprovable
  | immutableLengthMismatch
  | unsupportedStructure (code : UInt8)
deriving DecidableEq, Repr

structure Bootstrap where
  value : MetaV4
  selection : MetaSelection
  selectedMetaPage : Fin 2
  committedBytes : Nat
  physicalBytes : Nat
deriving DecidableEq

inductive CommitAttemptResolution where
  | committed
  | notCommitted
  | supersededUnknown
deriving DecidableEq, Repr

def require (problem : MetaProblem) (holds : Bool) : Except MetaProblem Unit :=
  if holds then .ok () else .error problem

/-- `checked_add` and `checked_mul` of a `u64`. -/
def checked (problem : MetaProblem) (number : Nat) : Except MetaProblem Nat :=
  if number < 2 ^ 64 then .ok number else .error problem

def requireGeometry (physicalBytes : Nat) : Except BootstrapError Unit :=
  if physicalBytes < 2 * pageSize then .error .fileTooShort
  else if physicalBytes % pageSize ≠ 0 then .error .fileUnaligned
  else .ok ()

def identityReadable (page : Bytes) : Except MetaProblem MetaV4 := do
  require .magic (metaMagicValid page)
  require .fixedValue (metaFixedValuesValid page)
  require .reserved (metaReservedZero page)
  require .checksum (metaChecksumValid page)
  match decodeUnchecked page with
  | none => .error .tag
  | some value => if value.databaseId = Array16.zero then .error .databaseId else .ok value

section

variable (value : MetaV4)

def validateCommitIdentity : Except MetaProblem Unit := do
  require .transaction (value.txnId != 0)
  require .commitNonce (value.commitNonce ≠ Array16.zero)

def validateDeclaredPageCount : Except MetaProblem Unit :=
  require .pageCount (2 ≤ value.pageCount.toNat && value.pageCount.toNat ≤ maxPageCount)

def validateGeneration (physicalBytes : Nat) : Except MetaProblem Unit := do
  validateCommitIdentity value
  validateDeclaredPageCount value
  let committedBytes ← checked .pageCount (value.pageCount.toNat * pageSize)
  require .physicalLength (committedBytes ≤ physicalBytes)

/-- The loop of `validate_allocator_reserve`, with the reserve pages it has passed. -/
def reserveValid : List UInt32 → List UInt32 → Bool
  | _, [] => true
  | seen, pageNumber :: rest =>
    (pageNumber == 0 ||
      (2 ≤ pageNumber.toNat && pageNumber.toNat < value.pageCount.toNat &&
        !value.roots.contains pageNumber && !seen.contains pageNumber)) &&
      reserveValid (seen ++ [pageNumber]) rest

def validateAllocatorReserve : Except MetaProblem Unit :=
  let (first, second, third, fourth) := value.allocatorReserve
  require .allocatorReserve (reserveValid value [] [first, second, third, fourth])

def validateRoots : Except MetaProblem Unit := do
  require .rootBounds (value.roots.all fun root =>
    root == 0 || (2 ≤ root.toNat && root.toNat < value.pageCount.toNat))
  validateAllocatorReserve value

def leafCapacity : AddressFamily → Nat
  | .ipv4 => (pageSize - 32) / (12 + 2)
  | .ipv6 => (pageSize - 32) / (36 + 2)

def validateRangeCount : Except MetaProblem Unit := do
  require .countInvariant ((value.rangeRecordCount == 0) == (value.rangeRoot == 0))
  let maximum ← checked .countInvariant
    ((value.pageCount.toNat - 2) * leafCapacity value.addressFamily)
  require .countInvariant (value.rangeRecordCount.toNat ≤ maximum)

def validateRetirementCount : Except MetaProblem Unit := do
  let maximum ← checked .retirementInvariant
    ((value.pageCount.toNat - 2) * ((pageSize - 32) / (16 + 2)))
  require .retirementInvariant (value.retiredExtentCount.toNat ≤ maximum &&
    (value.retiredExtentCount == 0) == (value.retirementRoot == 0))

def metadataLengthsValid : Except MetaProblem Bool := do
  let uncompressed := value.metadataUncompressedLen.toNat
  let padded ← checked .metadataInvariant (uncompressed + 65534)
  let blocks := max 1 (padded / 65535)
  let overhead ← checked .metadataInvariant (5 * blocks)
  let stored ← checked .metadataInvariant (uncompressed + overhead)
  let maximumZlib ← checked .metadataInvariant (stored + 6)
  let maximumCompressed ← checked .metadataInvariant ((value.pageCount.toNat - 2) * 4048)
  .ok (value.metadataCompressedLen != 0 && value.metadataCompressedLen.toNat ≤ maximumCompressed &&
    value.metadataCompressedLen.toNat ≤ maximumZlib && uncompressed ≤ maxMetadataUncompressed)

def validateMetadata : Except MetaProblem Unit :=
  if value.metadataRoot = 0 then
    require .metadataInvariant
      (value.metadataUncompressedLen == 0 && value.metadataCompressedLen == 0)
  else do
    let valid ← metadataLengthsValid value
    require .metadataInvariant valid

def validateDirect : Except MetaProblem Unit :=
  require .kindInvariant (value.structureKindCode == 0 && value.activeFeedCount == 0 &&
    value.feedIndexLimit == 0 && value.membershipEntryCount == 0 && value.membershipIdLimit == 0 &&
    value.catalogNameRoot == 0 && value.catalogIndexRoot == 0 && value.feedUsedRoot == 0 &&
    value.membershipIdRoot == 0 && value.membershipHashRoot == 0 && value.membershipUsedRoot == 0 &&
    value.structureEntryCount == 0 && value.structureIdLimit == 0 && value.structureIdRoot == 0 &&
    value.structureHashRoot == 0 && value.structureUsedRoot == 0)

def validateNoStructures : Except MetaProblem Unit :=
  require .kindInvariant (value.structureKindCode == 0 && value.structureEntryCount == 0 &&
    value.structureIdLimit == 0 && value.structureIdRoot == 0 && value.structureHashRoot == 0 &&
    value.structureUsedRoot == 0)

def entriesValid (entries limit : UInt64) : Bool :=
  entries.toNat < 2 ^ 32 && 1 ≤ limit.toNat && limit.toNat ≤ maxPageCount && entries < limit

def feedsValid : Bool :=
  value.feedIndexLimit.toNat ≤ maxPageCount && value.activeFeedCount ≤ value.feedIndexLimit

def validateMembershipLimits : Except MetaProblem Unit :=
  require .countInvariant (feedsValid value &&
    entriesValid value.membershipEntryCount value.membershipIdLimit &&
    value.membershipEntryCount ≤ value.rangeRecordCount)

def validateMembershipPresence : Except MetaProblem Unit := do
  require .countInvariant (value.activeFeedCount != 0 ||
    (value.membershipEntryCount == 0 && value.rangeRecordCount == 0))
  require .countInvariant (value.membershipEntryCount != 0 || value.rangeRecordCount == 0)

def validateMembershipCounts : Except MetaProblem Unit := do
  validateMembershipLimits value
  validateMembershipPresence value

def validateCatalogRoots : Except MetaProblem Unit :=
  if value.activeFeedCount = 0 then
    require .kindInvariant
      (value.catalogNameRoot == 0 && value.catalogIndexRoot == 0 && value.feedUsedRoot == 0)
  else
    require .kindInvariant
      (value.catalogNameRoot != 0 && value.catalogIndexRoot != 0 && value.feedUsedRoot != 0)

def tableRootsValid (entries limit : UInt64) (idRoot hashRoot usedRoot : UInt32) : Bool :=
  if entries = 0 then idRoot == 0 && hashRoot == 0 && usedRoot == 0 && limit == 1
  else idRoot != 0 && hashRoot != 0 && usedRoot != 0

def validateMembershipRoots : Except MetaProblem Unit :=
  require .kindInvariant (tableRootsValid value.membershipEntryCount value.membershipIdLimit
    value.membershipIdRoot value.membershipHashRoot value.membershipUsedRoot)

def validateStructureRoots : Except MetaProblem Unit :=
  require .kindInvariant (tableRootsValid value.structureEntryCount value.structureIdLimit
    value.structureIdRoot value.structureHashRoot value.structureUsedRoot)

def validateMembership : Except MetaProblem Unit := do
  validateNoStructures value
  validateMembershipCounts value
  validateCatalogRoots value
  validateMembershipRoots value

def validateStructuredCounts : Except MetaProblem Unit :=
  require .countInvariant (feedsValid value &&
    entriesValid value.membershipEntryCount value.membershipIdLimit &&
    entriesValid value.structureEntryCount value.structureIdLimit &&
    value.structureEntryCount ≤ value.rangeRecordCount &&
    value.membershipEntryCount ≤ value.structureEntryCount &&
    (value.activeFeedCount != 0 || value.membershipEntryCount == 0) &&
    (value.structureEntryCount != 0 || value.rangeRecordCount == 0))

def validateStructured : Except MetaProblem Unit := do
  require .kindInvariant (value.structureKindCode != 0)
  validateStructuredCounts value
  validateCatalogRoots value
  validateMembershipRoots value
  validateStructureRoots value

def validateKind : Except MetaProblem Unit :=
  match value.valueKind with
  | .direct => validateDirect value
  | .membership => validateMembership value
  | .structured => validateStructured value

def bootstrapValid (physicalBytes : Nat) : Except MetaProblem MetaV4 := do
  validateGeneration value physicalBytes
  validateRoots value
  validateRangeCount value
  validateRetirementCount value
  validateMetadata value
  validateKind value
  .ok value

end

abbrev Pages := Fin 2 → Bytes

def requireSameIdentity (pages : Pages) : Except BootstrapError Unit :=
  match identityReadable (pages 0), identityReadable (pages 1) with
  | .ok left, .ok right =>
    if left.staticIdentityEq right then .ok () else .error .staticIdentityMismatch
  | _, _ => .ok ()

def candidate (pages : Pages) (physicalBytes : Nat) (slot : Fin 2) : Except MetaProblem MetaV4 := do
  let value ← identityReadable (pages slot)
  bootstrapValid value physicalBytes

def parity (txnId : UInt64) : Fin 2 := Fin.ofNat 2 txnId.toNat

def selectPair (pages : Pages) (meta0 meta1 : MetaV4) :
    Except BootstrapError (MetaV4 × MetaSelection × Fin 2) :=
  if meta0.txnId = meta1.txnId then
    if slice 0 metaSize (pages 0) = slice 0 metaSize (pages 1) then
      .ok (meta0, .provenCurrent, parity meta0.txnId)
    else .error .equalTransactionDisagreement
  else
    let (lower, higher, higherPage) :=
      if meta0.txnId < meta1.txnId then (meta0, meta1, (1 : Fin 2)) else (meta1, meta0, 0)
    if higher.txnId - lower.txnId ≠ 1 then .error .transactionGap
    else if parity higher.txnId ≠ higherPage then .error .physicalParity
    else .ok (higher, .provenCurrent, higherPage)

def selectCandidates (pages : Pages) (physicalBytes : Nat) :
    Except BootstrapError (MetaV4 × MetaSelection × Fin 2) :=
  match candidate pages physicalBytes 0, candidate pages physicalBytes 1 with
  | .error meta0, .error meta1 => .error (.noBootstrapMeta meta0 meta1)
  | .ok value, .error _ => .ok (value, .soleMeta0, 0)
  | .error _, .ok value => .ok (value, .soleMeta1, 1)
  | .ok meta0, .ok meta1 => selectPair pages meta0 meta1

def finishOpen (value : MetaV4) (selection : MetaSelection) (selectedMetaPage : Fin 2)
    (physicalBytes : Nat) (mode : OpenMode) : Except BootstrapError Bootstrap :=
  if value.structureKind = none then .error (.unsupportedStructure value.structureKindCode)
  else if mode ≠ .immutableReader ∧ selection ≠ .provenCurrent then
    .error .currentGenerationUnprovable
  else if 2 ^ 64 ≤ value.pageCount.toNat * pageSize then .error .hostAddressability
  else if mode = .immutableReader ∧ value.pageCount.toNat * pageSize ≠ physicalBytes then
    .error .immutableLengthMismatch
  else .ok { value, selection, selectedMetaPage, committedBytes := value.pageCount.toNat * pageSize
             physicalBytes }

def openMetaPages (pages : Pages) (physicalBytes : Nat) (mode : OpenMode) :
    Except BootstrapError Bootstrap := do
  requireGeometry physicalBytes
  requireSameIdentity pages
  let (value, selection, selectedMetaPage) ← selectCandidates pages physicalBytes
  finishOpen value selection selectedMetaPage physicalBytes mode

/-- The comparisons of `resolve_commit_attempt`, once both pages are known to be valid. -/
def classifyAttempt (meta0 meta1 selected : MetaV4) (transactionId : UInt64) (commitNonce : Array16) :
    Except BootstrapError CommitAttemptResolution :=
  if [meta0, meta1].any fun value => value.txnId = transactionId && value.commitNonce = commitNonce then
    .ok .committed
  else if ([meta0, meta1].any fun value =>
      value.txnId = transactionId && value.commitNonce ≠ commitNonce) ∨
      selected.txnId < transactionId then
    .ok .notCommitted
  else if transactionId < selected.txnId then .ok .supersededUnknown
  else .error .currentGenerationUnprovable

def resolveCommitAttempt (pages : Pages) (physicalBytes : Nat) (databaseId : Array16)
    (transactionId : UInt64) (commitNonce : Array16) :
    Except BootstrapError CommitAttemptResolution := do
  let selected ← openMetaPages pages physicalBytes .writer
  if selected.value.databaseId ≠ databaseId then .error .staticIdentityMismatch
  else
    match candidate pages physicalBytes 0, candidate pages physicalBytes 1 with
    | .ok meta0, .ok meta1 => classifyAttempt meta0 meta1 selected.value transactionId commitNonce
    | _, _ => .error .currentGenerationUnprovable

section Selection

variable {pages : Pages} {physicalBytes : Nat} {mode : OpenMode} {base : Bootstrap}

variable {value meta0 meta1 : MetaV4} {slot : Fin 2} {transactionId : UInt64}
  {commitNonce : Array16} {selection : MetaSelection} {resolution : CommitAttemptResolution}

theorem identityReadable_encodeMapped (known : value.databaseId ≠ Array16.zero) :
    identityReadable (encodeMapped value) = .ok value := by
  simp only [identityReadable, require, metaMagicValid_encodeMapped, metaFixedValuesValid_encodeMapped,
    metaReservedZero_encodeMapped, metaChecksumValid_encodeMapped, decodeUnchecked_encodeMapped, if_true,
    if_neg known]
  rfl

theorem identityReadable_decodes {page : Bytes} (read : identityReadable page = .ok value) :
    decodeUnchecked page = some value ∧ value.databaseId ≠ Array16.zero := by
  obtain ⟨_, _, read⟩ := bind_eq_ok.mp read
  obtain ⟨_, _, read⟩ := bind_eq_ok.mp read
  obtain ⟨_, _, read⟩ := bind_eq_ok.mp read
  obtain ⟨_, _, read⟩ := bind_eq_ok.mp read
  cases decoded : decodeUnchecked page with
  | none =>
    rw [decoded] at read
    cases read
  | some other =>
    simp only [decoded] at read
    split at read
    · cases read
    · rename_i known
      cases read
      exact ⟨rfl, known⟩

theorem bootstrapValid_eq {result : MetaV4}
    (valid : bootstrapValid value physicalBytes = .ok result) : result = value := by
  obtain ⟨_, _, valid⟩ := bind_eq_ok.mp valid
  obtain ⟨_, _, valid⟩ := bind_eq_ok.mp valid
  obtain ⟨_, _, valid⟩ := bind_eq_ok.mp valid
  obtain ⟨_, _, valid⟩ := bind_eq_ok.mp valid
  obtain ⟨_, _, valid⟩ := bind_eq_ok.mp valid
  obtain ⟨_, _, valid⟩ := bind_eq_ok.mp valid
  exact (Except.ok.inj valid).symm

theorem candidate_reads (valid : candidate pages physicalBytes slot = .ok value) :
    identityReadable (pages slot) = .ok value := by
  obtain ⟨other, read, valid⟩ := bind_eq_ok.mp valid
  rw [read, bootstrapValid_eq valid]

theorem requireSameIdentity_of_eq {left right : MetaV4}
    (readLeft : identityReadable (pages 0) = .ok left)
    (readRight : identityReadable (pages 1) = .ok right) (same : left.staticIdentityEq right = true) :
    requireSameIdentity pages = .ok () := by
  rw [requireSameIdentity, readLeft, readRight]
  exact if_pos same

theorem selectCandidates_pair (valid0 : candidate pages physicalBytes 0 = .ok meta0)
    (valid1 : candidate pages physicalBytes 1 = .ok meta1) :
    selectCandidates pages physicalBytes = selectPair pages meta0 meta1 := by
  rw [selectCandidates, valid0, valid1]

theorem resolveCommitAttempt_eq (opened : openMetaPages pages physicalBytes .writer = .ok base)
    (valid0 : candidate pages physicalBytes 0 = .ok meta0)
    (valid1 : candidate pages physicalBytes 1 = .ok meta1) :
    resolveCommitAttempt pages physicalBytes base.value.databaseId transactionId commitNonce =
      classifyAttempt meta0 meta1 base.value transactionId commitNonce := by
  rw [resolveCommitAttempt, opened, valid0, valid1]
  exact if_neg (not_not.mpr rfl)

structure Paired (pages : Pages) (selected : MetaV4) (slot : Fin 2) : Prop where
  current : identityReadable (pages slot) = .ok selected
  previous : ∃ lower, identityReadable (pages (1 - slot)) = .ok lower ∧
    (lower = selected ∨ lower.txnId.toNat + 1 = selected.txnId.toNat)
  parity : parity selected.txnId = slot

theorem same_of_equal_bytes {left right : MetaV4} (readLeft : identityReadable (pages 0) = .ok left)
    (readRight : identityReadable (pages 1) = .ok right)
    (same : slice 0 metaSize (pages 0) = slice 0 metaSize (pages 1)) : left = right := by
  have decoded := (identityReadable_decodes readLeft).1
  rw [← decodeUnchecked_take, ← List.drop_zero (l := pages 0), ← slice, same, slice, List.drop_zero,
    decodeUnchecked_take, (identityReadable_decodes readRight).1] at decoded
  exact (Option.some.inj decoded).symm

theorem toNat_of_sub_eq_one {lower higher : UInt64} (less : lower < higher) (next : higher - lower = 1) :
    lower.toNat + 1 = higher.toNat := by
  have difference : (higher - lower).toNat = higher.toNat - lower.toNat :=
    UInt64.toNat_sub_of_le _ _ (UInt64.le_of_lt less)
  rw [next] at difference
  have order := UInt64.lt_iff_toNat_lt.mp less
  have one : (1 : UInt64).toNat = 1 := rfl
  omega

theorem selectPair_paired {selected : MetaV4} (read0 : identityReadable (pages 0) = .ok meta0)
    (read1 : identityReadable (pages 1) = .ok meta1)
    (chosen : selectPair pages meta0 meta1 = .ok (selected, selection, slot)) :
    Paired pages selected slot := by
  rw [selectPair] at chosen
  split at chosen
  · rename_i equal
    split at chosen
    · rename_i same
      obtain rfl := same_of_equal_bytes read0 read1 same
      cases chosen
      have both : ∀ slot, identityReadable (pages slot) = .ok meta0 :=
        Fin.forall_fin_two.mpr ⟨read0, read1⟩
      exact ⟨both _, ⟨meta0, both _, Or.inl rfl⟩, rfl⟩
    · cases chosen
  · rename_i differ
    by_cases less : meta0.txnId < meta1.txnId
    · simp only [if_pos less] at chosen
      split at chosen
      · cases chosen
      · rename_i next
        split at chosen
        · cases chosen
        · rename_i placed
          cases chosen
          exact ⟨read1, ⟨meta0, read0, Or.inr (toNat_of_sub_eq_one less (not_not.mp next))⟩,
            not_not.mp placed⟩
    · have more : meta1.txnId < meta0.txnId :=
        UInt64.lt_of_le_of_ne (UInt64.not_lt.mp less) (Ne.symm differ)
      simp only [if_neg less] at chosen
      split at chosen
      · cases chosen
      · rename_i next
        split at chosen
        · cases chosen
        · rename_i placed
          cases chosen
          exact ⟨read0, ⟨meta1, read1, Or.inr (toNat_of_sub_eq_one more (not_not.mp next))⟩,
            not_not.mp placed⟩

theorem finishOpen_eq (opened : finishOpen value selection slot physicalBytes mode = .ok base) :
    base.value = value ∧ base.selectedMetaPage = slot ∧
      (mode ≠ .immutableReader → selection = .provenCurrent) := by
  rw [finishOpen] at opened
  split at opened
  · cases opened
  · split at opened
    · cases opened
    · rename_i proven
      split at opened
      · cases opened
      · split at opened
        · cases opened
        · cases opened
          exact ⟨rfl, rfl, fun live => not_not.mp fun other => proven ⟨live, other⟩⟩

theorem open_reads (opened : openMetaPages pages physicalBytes mode = .ok base) :
    ∃ slot, identityReadable (pages slot) = .ok base.value := by
  obtain ⟨_, _, opened⟩ := bind_eq_ok.mp opened
  obtain ⟨_, _, opened⟩ := bind_eq_ok.mp opened
  obtain ⟨⟨value, selection, slot⟩, chosen, opened⟩ := bind_eq_ok.mp opened
  rw [(finishOpen_eq opened).1]
  rw [selectCandidates] at chosen
  split at chosen
  · cases chosen
  · rename_i valid _
    cases chosen
    exact ⟨0, candidate_reads valid⟩
  · rename_i valid
    cases chosen
    exact ⟨1, candidate_reads valid⟩
  · rename_i valid0 valid1
    exact ⟨slot, (selectPair_paired (candidate_reads valid0) (candidate_reads valid1) chosen).current⟩

theorem open_paired (opened : openMetaPages pages physicalBytes mode = .ok base)
    (live : mode ≠ .immutableReader) : Paired pages base.value base.selectedMetaPage := by
  obtain ⟨_, _, opened⟩ := bind_eq_ok.mp opened
  obtain ⟨_, _, opened⟩ := bind_eq_ok.mp opened
  obtain ⟨⟨value, selection, slot⟩, chosen, opened⟩ := bind_eq_ok.mp opened
  obtain ⟨same, page, proven⟩ := finishOpen_eq opened
  rw [same, page]
  rw [selectCandidates] at chosen
  split at chosen
  · cases chosen
  · cases chosen
    cases proven live
  · cases chosen
    cases proven live
  · rename_i valid0 valid1
    exact selectPair_paired (candidate_reads valid0) (candidate_reads valid1) chosen

structure Resolves (pages : Pages) (transactionId : UInt64) (commitNonce : Array16)
    (resolution : CommitAttemptResolution) (selected : MetaV4) : Prop where
  committed : resolution = .committed → ∃ slot value, identityReadable (pages slot) = .ok value ∧
    value.txnId = transactionId ∧ value.commitNonce = commitNonce
  absent : resolution ≠ .committed → ∀ slot value, identityReadable (pages slot) = .ok value →
    value.txnId = transactionId → value.commitNonce ≠ commitNonce
  notCommitted : resolution = .notCommitted → selected.txnId < transactionId ∨
    ∃ slot value, identityReadable (pages slot) = .ok value ∧ value.txnId = transactionId
  superseded : resolution = .supersededUnknown → transactionId < selected.txnId ∧
    ∀ slot value, identityReadable (pages slot) = .ok value → value.txnId ≠ transactionId

theorem classifyAttempt_resolves {selected : MetaV4}
    (read0 : identityReadable (pages 0) = .ok meta0)
    (read1 : identityReadable (pages 1) = .ok meta1)
    (classified : classifyAttempt meta0 meta1 selected transactionId commitNonce = .ok resolution) :
    Resolves pages transactionId commitNonce resolution selected := by
  -- a statement about what the pages hold is one about these two generations
  have all (holds : MetaV4 → Prop) : (∀ slot value, identityReadable (pages slot) = .ok value →
      holds value) ↔ holds meta0 ∧ holds meta1 := by
    simp [Fin.forall_fin_two, read0, read1]
  have some_ (holds : MetaV4 → Prop) : (∃ slot value, identityReadable (pages slot) = .ok value ∧
      holds value) ↔ holds meta0 ∨ holds meta1 := by
    simp [Fin.exists_fin_two, read0, read1]
  simp only [classifyAttempt, List.any_cons, List.any_nil, Bool.or_false, Bool.or_eq_true,
    Bool.and_eq_true, decide_eq_true_eq] at classified
  split at classified
  · rename_i found
    cases classified
    exact ⟨fun _ => (some_ _).mpr found, fun other => absurd rfl other, (by nofun), (by nofun)⟩
  · rename_i missing
    have absent := (all fun value => value.txnId = transactionId → value.commitNonce ≠ commitNonce).mpr
      ⟨fun same nonce => missing (Or.inl ⟨same, nonce⟩),
        fun same nonce => missing (Or.inr ⟨same, nonce⟩)⟩
    split at classified
    · rename_i other
      cases classified
      refine ⟨by nofun, fun _ => absent, fun _ => ?_, by nofun⟩
      rcases other with (left | right) | below
      · exact Or.inr ((some_ fun value => value.txnId = transactionId).mpr (Or.inl left.1))
      · exact Or.inr ((some_ fun value => value.txnId = transactionId).mpr (Or.inr right.1))
      · exact Or.inl below
    · rename_i different
      split at classified
      · rename_i above
        cases classified
        refine ⟨by nofun, fun _ => absent, by nofun, fun _ => ⟨above, ?_⟩⟩
        intro slot value read same
        have nonce := absent slot value read same
        have either := (some_ fun value => value.txnId = transactionId ∧
          value.commitNonce ≠ commitNonce).mp
          ⟨slot, value, read, same, nonce⟩
        exact different (Or.inl either)
      · cases classified

theorem resolveCommitAttempt_resolves {databaseId : Array16}
    (resolved : resolveCommitAttempt pages physicalBytes databaseId transactionId commitNonce =
      .ok resolution) :
    ∃ selected slot, Paired pages selected slot ∧
      Resolves pages transactionId commitNonce resolution selected := by
  obtain ⟨base, opened, resolved⟩ := bind_eq_ok.mp resolved
  refine ⟨base.value, base.selectedMetaPage, open_paired opened (by nofun), ?_⟩
  split at resolved
  · cases resolved
  · split at resolved
    · rename_i valid0 valid1
      exact classifyAttempt_resolves (candidate_reads valid0) (candidate_reads valid1) resolved
    · cases resolved

end Selection

end IpRange.Meta
