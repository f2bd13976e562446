import IpRange.Bootstrap

/-!
Executable model of the publication of a generation through the alternate meta
page, and of the resolver that is asked later what became of it. A page that was
written is seen by everyone at once; it is safe from a power loss only after the
file was synchronised.
-/

namespace IpRange.Meta

/-- The meta pages as every process sees them, and as the storage holds them. -/
structure MetaFile where
  visible : Pages
  durable : Pages

def MetaFile.sync (file : MetaFile) : MetaFile := { file with durable := file.visible }

def MetaFile.write (file : MetaFile) (slot : Fin 2) (page : Bytes) : MetaFile :=
  { file with visible := Function.update file.visible slot page }

inductive PublishOutcome where
  | beforePublication
  | outcomeUnknown
  | committed
deriving DecidableEq, Repr

inductive Point where
  | cancellation
  | beforePrivateSync
  | length
  | dataFlush
  | dataSync
  | afterPrivateSync
  | lateCancellation
  | targetPage
  | encode
  | afterMetaWrite
  | metaFlush
  | metaSync
  | afterMetaSync
deriving DecidableEq, Repr

inductive Fault where
  | pass
  | refuse
  | crash
deriving DecidableEq, Repr

structure Surroundings where
  fault : Point → Fault
  torn : Bytes

def reach (around : Surroundings) (point : Point) (outcome : PublishOutcome) :
    EStateM (Option PublishOutcome) MetaFile Unit :=
  match around.fault point with
  | .pass => pure ()
  | .refuse => throw (some outcome)
  | .crash => throw none

def encodeTarget (around : Surroundings) (target : Fin 2) (value : MetaV4) :
    EStateM (Option PublishOutcome) MetaFile Unit :=
  match around.fault .encode with
  | .pass => modify (·.write target (encodeMapped value))
  | .refuse => do
    modify (·.write target around.torn)
    throw (some .outcomeUnknown)
  | .crash => do
    modify (·.write target around.torn)
    throw none

def publish (around : Surroundings) (base : Bootstrap) (value : MetaV4) :
    EStateM (Option PublishOutcome) MetaFile PublishOutcome := do
  reach around .cancellation .beforePublication
  reach around .beforePrivateSync .beforePublication
  reach around .length .beforePublication
  reach around .dataFlush .beforePublication
  reach around .dataSync .beforePublication
  modify MetaFile.sync
  reach around .afterPrivateSync .beforePublication
  reach around .lateCancellation .beforePublication
  reach around .targetPage .outcomeUnknown
  encodeTarget around (1 - base.selectedMetaPage) value
  reach around .afterMetaWrite .outcomeUnknown
  reach around .metaFlush .outcomeUnknown
  reach around .metaSync .outcomeUnknown
  modify MetaFile.sync
  reach around .afterMetaSync .outcomeUnknown
  pure .committed

def draftTxn (base : UInt64) : Except Error UInt64 :=
  if base.toNat + 1 < 2 ^ 64 then .ok (base + 1) else .error (.arithmeticOverflow "transaction ID")

inductive CommitResolution where
  | committed
  | notCommitted
  | supersededUnknown
  | unresolvable
deriving DecidableEq, Repr

def CommitAttemptResolution.report : CommitAttemptResolution → CommitResolution
  | .committed => .committed
  | .notCommitted => .notCommitted
  | .supersededUnknown => .supersededUnknown

structure Classification where
  resolution : CommitAttemptResolution
  selected : MetaV4
  committedBytes : Nat
  physicalBytes : Nat
deriving DecidableEq

def classify (pages : Pages) (physicalBytes : Nat) (attempt : MetaV4) :
    Except BootstrapError Classification := do
  let selected ← openMetaPages pages physicalBytes .writer
  let resolution ← resolveCommitAttempt pages physicalBytes attempt.databaseId attempt.txnId
    attempt.commitNonce
  .ok { resolution, selected := selected.value, committedBytes := selected.committedBytes
        physicalBytes := selected.physicalBytes }

/-- `resolve_locked`: nothing is trusted before the file was synchronised and read again. -/
def resolveLocked (file : MetaFile) (physicalBytes : Nat) (attempt : MetaV4) (syncs : Bool) :
    MetaFile × CommitResolution :=
  match classify file.visible physicalBytes attempt with
  | .error _ => (file, .unresolvable)
  | .ok first =>
    if !syncs then (file, .unresolvable)
    else
      match classify file.sync.visible physicalBytes attempt with
      | .error _ => (file.sync, .unresolvable)
      | .ok second =>
        if first ≠ second then (file.sync, .unresolvable)
        else (file.sync, second.resolution.report)

end IpRange.Meta
