import IpRange.Library.CrashDirectory
import IpRange.Library.FaultProgram

/-!
Executable model of one immutable publication attempt on Unix: the prepared
output, the reservation inode that guards the destination, the operation on the
main name and the removal of what the attempt leaves behind. Every system call
may be refused, may take effect without its reply arriving, or may be the point
where the process ends.
-/

namespace IpRange.Publication

inductive Name where
  | main
  | coordination
  | privateOutput
  | privateReservation
deriving DecidableEq, Repr

inductive Inode where
  | output
  | reservation
  | other (number : Nat)
deriving DecidableEq, Repr

inductive Policy where
  | failIfExists
  | replaceExisting
  | replaceExistingNoRollback
deriving DecidableEq, Repr

def Policy.isReplacement : Policy → Bool
  | .failIfExists => false
  | .replaceExisting | .replaceExistingNoRollback => true

inductive State where
  | prepared
  | mainMayHaveBeenAttempted
deriving DecidableEq, Repr

inductive NamespaceError where
  | existing
  | missing
  | identityChanged
  | linkCount (links : Nat)
  | io
deriving DecidableEq, Repr

inductive Problem where
  | name (error : NamespaceError)
  | cancelled
  | io
  | sameIdentity
  | contentChanged
  | bootstrap
  | headerChanged
  | headerInvariant
  | conflict (detail : String)
  | unresolvable (detail : String)
  | cleanupConflict (detail : String)
deriving DecidableEq, Repr

inductive Fault where
  | pass
  | refuse (problem : Problem)
  | unreported (problem : Problem)
  | crash
deriving DecidableEq, Repr

/-- What is read off the bytes of a file: the database, transaction and nonce of a complete one,
and the length with the SHA-512 of all bytes. -/
structure Reading (B T D : Type) where
  openMeta : B → Option T
  digest : B → D

structure Previous (D : Type) where
  identity : Inode
  digest : D
deriving DecidableEq, Repr

structure Attempt (T D : Type) where
  policy : Policy
  tuple : T
  outputIdentity : Inode
  outputDigest : D
  previous : Option (Previous D)
  reservationIdentity : Inode
deriving DecidableEq, Repr

structure Header (T D : Type) where
  state : State
  attempt : Attempt T D
deriving DecidableEq, Repr

structure Block (T D : Type) where
  header : Header T D
  synced : Bool
deriving DecidableEq, Repr

structure Record (T D : Type) where
  block0 : Option (Block T D)
  block1 : Option (Block T D)
deriving DecidableEq, Repr

def Header.sequence {T D : Type} (header : Header T D) : Nat :=
  match header.state with
  | .prepared => 1
  | .mainMayHaveBeenAttempted => 2

def Header.state2 {T D : Type} (header : Header T D) : Header T D :=
  { header with state := .mainMayHaveBeenAttempted }

namespace Record

variable {T D : Type}

def selectedAt (header : Header T D) (block : Nat) : Option (Header T D) :=
  if header.sequence = block + 1 then some header else none

def selectPair [DecidableEq T] [DecidableEq D] (left right : Header T D) : Option (Header T D) :=
  if left.sequence = right.sequence then
    if left = right then selectedAt left 0 else none
  else
    let (older, newer) := if left.sequence < right.sequence then (left, right) else (right, left)
    if older.sequence + 1 = newer.sequence ∧ older.attempt = newer.attempt ∧
        older.state = .prepared ∧ newer.state = .mainMayHaveBeenAttempted then some newer
    else none

def select [DecidableEq T] [DecidableEq D] (record : Record T D) : Option (Header T D) :=
  match record.block0, record.block1 with
  | none, none => none
  | some left, none => selectedAt left.header 0
  | none, some right => selectedAt right.header 1
  | some left, some right => selectPair left.header right.header

def sync (record : Record T D) : Record T D :=
  { block0 := record.block0.map ({ · with synced := true })
    block1 := record.block1.map ({ · with synced := true }) }

def lose (record : Record T D) (lost0 lost1 : Bool) : Record T D :=
  { block0 := record.block0.filter fun block => block.synced || !lost0
    block1 := record.block1.filter fun block => block.synced || !lost1 }

end Record

inductive PublicationStatus where
  | notPublished
  | published
  | outcomeUnknown
deriving DecidableEq, Repr

inductive DestinationContent where
  | desired
  | previous
  | absent
  | other
  | unclassified
deriving DecidableEq, Repr

inductive ArtifactKind where
  | privateOutput
  | privateReservation
deriving DecidableEq, Repr

structure Artifact where
  kind : ArtifactKind
  error : Problem
deriving DecidableEq, Repr

structure PublicationResult (T D : Type) where
  attempt : Attempt T D
  mainNamespaceMayHaveBeenAttempted : Bool
  publication : PublicationStatus
  destinationContent : DestinationContent
  cleanup : List Artifact
  cause : Option Problem
deriving DecidableEq, Repr

def PublicationResult.headerFor {T D : Type} (result : PublicationResult T D) : Header T D :=
  { state := if result.mainNamespaceMayHaveBeenAttempted then .mainMayHaveBeenAttempted
      else .prepared
    attempt := result.attempt }

/-- What a call hands back: a publication result, or an error that makes no claim. -/
inductive Reply (T D : Type) where
  | result (result : PublicationResult T D)
  | refused (problem : Problem)
deriving DecidableEq, Repr

/-- The destination directory, the files in it, the faults still to come and the results
an observer has been told, newest first. -/
structure World (B T D : Type) where
  directory : Directory Name Inode
  bytes : Inode → B
  synced : Inode → Bool
  record : Record T D
  faults : List Fault
  observed : List (PublicationResult T D)

abbrev Call (B T D α : Type) := EStateM (Stop Problem) (World B T D) α

section Calls

variable {B T D : Type}

def World.links (world : World B T D) (inode : Inode) : Nat :=
  ([.main, .coordination, .privateOutput, .privateReservation].filter fun name =>
    world.directory.names name == some inode).length

def fail {α : Type} (problem : Problem) : Call B T D α := throw (.failed problem)

def nextFault : Call B T D Fault := do
  let world ← get
  match world.faults with
  | [] => pure .pass
  | fault :: rest => do
    set { world with faults := rest }
    pure fault

def perform (effect : World B T D → World B T D) : Call B T D Unit := do
  match ← nextFault with
  | .pass => modify effect
  | .refuse problem => fail problem
  | .unreported problem => do
    modify effect
    fail problem
  | .crash => throw .crashed

/-- A call that changes nothing the model keeps: a lock, a metadata read, a checkpoint. -/
def step : Call B T D Unit := perform id

def require (condition : World B T D → Bool) (problem : Problem) : Call B T D Unit := do
  step
  let world ← get
  if condition world then pure () else fail problem

def entry (name : Name) : Call B T D (Option Inode) := do
  step
  let world ← get
  pure (world.directory.names name)

def regularLinkCount (inode : Inode) : Call B T D Nat := do
  step
  let world ← get
  pure (world.links inode)

def verifyName (name : Name) (expected : Inode) : Call B T D Unit := do
  match ← entry name with
  | none => fail (.name .missing)
  | some found =>
    if found = expected then do
      let world ← get
      if world.links found = 1 then pure () else fail (.name (.linkCount (world.links found)))
    else fail (.name .identityChanged)

def requireAbsent (name : Name) : Call B T D Unit := do
  match ← entry name with
  | none => pure ()
  | some _ => fail (.name .existing)

def openRegular (name : Name) : Call B T D (Option Inode) := do
  match ← entry name with
  | none => pure none
  | some found => do
    let world ← get
    if world.links found = 1 then pure (some found)
    else fail (.name (.linkCount (world.links found)))

def change (change : Change Name Inode) : Call B T D Unit :=
  perform fun world => { world with directory := world.directory.perform change }

def create (name : Name) (inode : Inode) : Call B T D Unit := do
  let world ← get
  if (world.directory.names name).isSome then fail (.name .existing)
  else change (.create name inode)

def renameNoreplace (source target : Name) : Call B T D Unit := do
  let world ← get
  if (world.directory.names target).isSome then fail (.name .existing)
  else if (world.directory.names source).isNone then fail (.name .missing)
  else change (.rename source target)

def exchange (left right : Name) : Call B T D Unit := do
  let world ← get
  if (world.directory.names left).isNone || (world.directory.names right).isNone then
    fail (.name .missing)
  else change (.exchange left right)

def replaceDiscardingDestination (source target : Name) : Call B T D Unit := do
  let world ← get
  if (world.directory.names source).isNone then fail (.name .missing)
  else change (.rename source target)

def unlinkExact (name : Name) (expected : Inode) : Call B T D Bool := do
  match ← entry name with
  | none => pure false
  | some found =>
    if found = expected then do
      let world ← get
      if world.links found = 1 then do
        change (.unlink name)
        pure true
      else fail (.name (.linkCount (world.links found)))
    else fail (.name .identityChanged)

def syncDirectory : Call B T D Unit :=
  perform fun world => { world with directory := world.directory.sync }

def syncFile (inode : Inode) : Call B T D Unit :=
  perform fun world => { world with synced := Function.update world.synced inode true }

def verifyDirectory : Call B T D Unit := step

def isOk {α : Type} (call : Call B T D α) : Call B T D Bool := do
  match ← outcomeOf call with
  | .ok _ => pure true
  | .error _ => pure false

section Output

variable [DecidableEq T] [DecidableEq D] (reading : Reading B T D)

inductive Location where
  | private_
  | canonical
deriving DecidableEq, Repr

def Location.outputName : Location → Name
  | .private_ => .privateOutput
  | .canonical => .main

def Location.reservationName : Location → Name
  | .private_ => .privateReservation
  | .canonical => .coordination

def inspectExact (tuple : T) (location : Location) : Call B T D Unit := do
  verifyName location.outputName .output
  require (fun world => reading.openMeta (world.bytes .output) = some tuple) .bootstrap

def verifyPrivateOrRetired (previous : Previous D) : Call B T D Unit := do
  verifyDirectory
  match ← regularLinkCount previous.identity with
  | 0 => requireAbsent .privateOutput
  | 1 => verifyName .privateOutput previous.identity
  | links => fail (.name (.linkCount links))

def verifyRetired (previous : Previous D) : Call B T D Unit := do
  verifyDirectory
  requireAbsent .privateOutput
  match ← regularLinkCount previous.identity with
  | 0 => pure ()
  | links => fail (.name (.linkCount links))

def verifyCanonicalNamespace (previous : Previous D) : Call B T D Unit := do
  verifyDirectory
  verifyName .main previous.identity

def verifyContent (previous : Previous D) : Call B T D Unit := do
  verifyCanonicalNamespace previous
  require (fun world => reading.digest (world.bytes previous.identity) = previous.digest)
    .contentChanged

def verifyDestinationBeforeMain (output : Attempt T D) : Call B T D Unit :=
  match output.previous with
  | some previous => verifyCanonicalNamespace previous
  | none => requireAbsent .main

def verifyPrivate (output : Attempt T D) : Call B T D Unit :=
  inspectExact reading output.tuple .private_

def verifyMain (output : Attempt T D) : Call B T D Unit := do
  inspectExact reading output.tuple .canonical
  match output.previous with
  | none => requireAbsent .privateOutput
  | some previous => verifyPrivateOrRetired previous

def verifyOutputAt (output : Attempt T D) : Location → Call B T D Unit
  | .private_ => verifyPrivate reading output
  | .canonical => verifyMain reading output

end Output

end Calls

end IpRange.Publication
