import IpRange.PublicationCore

/-!
Executable model of the direct publisher: preparing the output, reserving the
destination, moving the output to the main name, retiring the reservation, and
discarding what a failed attempt owns. A flag the code sets half way through a
function is modelled by splitting the function where it is set.
-/

namespace IpRange.Publication

variable {B T D : Type} [DecidableEq T] [DecidableEq D] (reading : Reading B T D)

/-- `verification::verify`: the output, the reservation's name and its selected header. -/
def verifyReservation (output : Attempt T D) (header : Header T D)
    (reservation outputLocation : Location) : Call B T D Unit := do
  verifyOutputAt reading output outputLocation
  verifyDirectory
  verifyName reservation.reservationName .reservation
  if reservation = .canonical then requireAbsent .privateReservation
  require (fun world => world.record.select = some header) .headerChanged

def writeBlock0 (header : Header T D) : Call B T D Unit :=
  perform fun world =>
    { world with record := { world.record with block0 := some { header, synced := false } } }

def writeBlock1 (header : Header T D) : Call B T D Unit :=
  perform fun world =>
    { world with record := { world.record with block1 := some { header, synced := false } } }

def syncRecord : Call B T D Unit :=
  perform fun world => { world with record := world.record.sync }

section

variable (output : Attempt T D)

/-- `ReservationDraft::create`. -/
def createDraft : Call B T D Unit := do
  verifyPrivate reading output
  create .privateReservation .reservation

def prepareHeader : Call B T D Unit := do
  verifyPrivate reading output
  if output.previous.isSome then verifyDestinationBeforeMain output
  verifyName .privateReservation .reservation
  step

def header : Header T D := { state := .prepared, attempt := output }

def writeState1 : Call B T D Unit := do
  writeBlock0 (header output)
  step
  syncRecord

/-- `initialize` up to where `state1_selected` is set. -/
def selectState1 : Call B T D Unit := do
  prepareHeader reading output
  writeState1 output
  verifyReservation reading output (header output) .private_ .private_

/-- The rename of `acquire` and what follows it. -/
def acquireCanonical (selected : Header T D) (afterRename : Call B T D Unit) : Call B T D Unit := do
  renameNoreplace .privateReservation .coordination
  afterRename
  syncDirectory
  verifyReservation reading output selected .canonical .private_

/-- `acquire` up to where `namespace_call_started` is set. -/
def beforeAcquire (selected : Header T D) : Call B T D Unit := do
  verifyReservation reading output selected .private_ .private_
  verifyDirectory

/-- `arm_with` up to where `state2_selected` is set. -/
def selectState2 (selected : Header T D) : Call B T D Unit := do
  if selected.state ≠ .prepared then fail .headerInvariant
  verifyReservation reading output selected .canonical .private_
  verifyDestinationBeforeMain output
  writeBlock1 selected.state2
  step
  syncRecord
  require (fun world => world.record.select = some selected.state2) .headerChanged

def resumeArmedReservation (selected : Header T D) : Call B T D Unit := do
  if selected.state ≠ .mainMayHaveBeenAttempted then fail .headerInvariant
  verifyReservation reading output selected .canonical .private_

def armed : Header T D := (header output).state2

def verifyBeforeMain : Call B T D Unit := do
  verifyReservation reading output (armed output) .canonical .private_
  verifyDestinationBeforeMain output

end

def renameMain (policy : Policy) : Call B T D Unit :=
  match policy with
  | .failIfExists => renameNoreplace .privateOutput .main
  | .replaceExisting => exchange .privateOutput .main
  | .replaceExistingNoRollback => replaceDiscardingDestination .privateOutput .main

def synchronizeMain : Call B T D Unit := do
  syncFile .output
  step
  syncDirectory
  step

/-- `publish_steps` up to where `desired_proven` is set. -/
def proveMain (output : Attempt T D) : Call B T D Unit := do
  verifyBeforeMain reading output
  renameMain output.policy
  step
  synchronizeMain
  verifyDirectory
  verifyMain reading output

def verifyAfterMain (output : Attempt T D) : Call B T D Unit :=
  verifyReservation reading output (armed output) .canonical .canonical

def unlinkPrevious (previous : Previous D) : Call B T D Unit := do
  verifyPrivateOrRetired previous
  match ← regularLinkCount previous.identity with
  | 0 => pure ()
  | _ => do
    if ← unlinkExact .privateOutput previous.identity then do
      match ← regularLinkCount previous.identity with
      | 0 => step
      | links => fail (.name (.linkCount links))
    else fail (.name .missing)

def unlinkReservation : Call B T D Unit := do
  if ← unlinkExact .coordination .reservation then do
    match ← regularLinkCount .reservation with
    | 0 => pure ()
    | links => fail (.name (.linkCount links))
  else fail (.name .missing)

/-- `retire_steps` up to where the retirement counts as proven. -/
def retireSteps (output : Attempt T D) : Call B T D Unit := do
  verifyMain reading output
  verifyAfterMain reading output
  output.previous.forM unlinkPrevious
  unlinkReservation
  step
  syncDirectory
  step
  verifyDirectory
  requireAbsent .coordination
  output.previous.forM verifyRetired

inductive ReservationLocation where
  | private_
  | canonical
  | either
deriving DecidableEq, Repr

def ReservationLocation.names : ReservationLocation → List Name
  | .private_ => [.privateReservation]
  | .canonical => [.coordination, .privateReservation]
  | .either => [.privateReservation, .coordination]

structure Removal where
  kind : ArtifactKind
  identity : Inode
  state : Except Problem Unit

def Removal.needsSync (removal : Removal) : Bool := removal.state.isOk

structure Summary where
  artifacts : List Artifact
  mainAbsent : Bool
  coordinationAbsent : Bool

def unlinkNames (identity : Inode) : List Name → Option Problem → Call B T D Bool
  | [], none => pure false
  | [], some problem => fail problem
  | name :: rest, firstProblem => do
    match ← outcomeOf (unlinkExact name identity) with
    | .ok true => pure true
    | .ok false | .error (.name .missing) | .error (.name .identityChanged) =>
      unlinkNames identity rest firstProblem
    | .error (.name (.linkCount links)) => fail (.name (.linkCount links))
    | .error problem => unlinkNames identity rest (firstProblem <|> some problem)

def remove (identity : Inode) (names : List Name) : Call B T D Unit := do
  match ← regularLinkCount identity with
  | 0 => pure ()
  | 1 => do
    if ← unlinkNames identity names none then do
      match ← regularLinkCount identity with
      | 0 => pure ()
      | _ => fail (.cleanupConflict "unlinked publication artifact still has links")
    else do
      match ← regularLinkCount identity with
      | 0 => pure ()
      | _ => fail (.cleanupConflict "owned publication artifact has no exact retained name")
  | _ => fail (.cleanupConflict "owned publication artifact has unexpected links")

def removal (kind : ArtifactKind) (identity : Inode) (names : List Name) : Call B T D Removal := do
  let state ← outcomeOf (remove identity names)
  pure { kind, identity, state }

def removeOutput : Option Inode → Call B T D (Option Removal)
  | none => pure none
  | some identity => some <$> removal .privateOutput identity [.privateOutput]

def removeReservation : Option ReservationLocation → Call B T D (Option Removal)
  | none => pure none
  | some location => some <$> removal .privateReservation .reservation location.names

def syncRemovals (needed : Bool) : Call B T D (Option Problem) :=
  if needed then do
    match ← outcomeOf (do syncDirectory; verifyDirectory) with
    | .ok () => pure none
    | .error problem => pure (some problem)
  else pure none

def provedUnlinked (identity : Inode) : Call B T D (Option Problem) := do
  match ← outcomeOf (regularLinkCount identity) with
  | .ok 0 => pure none
  | .ok _ => pure (some (.cleanupConflict "publication artifact removal was not proved"))
  | .error problem => pure (some problem)

def finishRemoval (sync : Option Problem) : Option Removal → Call B T D (List Artifact)
  | none => pure []
  | some removal =>
    match removal.state, sync with
    | .error problem, _ => pure [{ kind := removal.kind, error := problem }]
    | .ok (), some problem => pure [{ kind := removal.kind, error := problem }]
    | .ok (), none => do
      match ← provedUnlinked removal.identity with
      | none => pure []
      | some problem => pure [{ kind := removal.kind, error := problem }]

/-- `discard_owners_with`: unlinks the owned artifacts and syncs the directory only when there
was something to unlink. -/
def discardOwners (output : Option Inode) (reservation : Option ReservationLocation) :
    Call B T D Summary := do
  let outputRemoval ← removeOutput output
  let reservationRemoval ← removeReservation reservation
  let sync ← syncRemovals
    (outputRemoval.any Removal.needsSync || reservationRemoval.any Removal.needsSync)
  let outputArtifacts ← finishRemoval sync outputRemoval
  let reservationArtifacts ← finishRemoval sync reservationRemoval
  let mainAbsent ← isOk (requireAbsent .main)
  let coordinationAbsent ← isOk (requireAbsent .coordination)
  pure { artifacts := outputArtifacts ++ reservationArtifacts, mainAbsent, coordinationAbsent }

def observe (enabled : Bool) (result : PublicationResult T D) : Call B T D Unit :=
  if enabled then do
    step
    modify fun world => { world with observed := result :: world.observed }
  else pure ()

def interrupted (output : Attempt T D) (attempted : Bool) (publication : PublicationStatus)
    (content : DestinationContent) (kinds : List ArtifactKind) : PublicationResult T D :=
  { attempt := output, mainNamespaceMayHaveBeenAttempted := attempted, publication,
    destinationContent := content, cleanup := kinds.map fun kind => { kind, error := .io },
    cause := some .io }

def preparation (reservation : Option ReservationLocation) (cause : Problem) :
    Call B T D (Reply T D) := do
  let _ ← discardOwners (some .output) reservation
  pure (.refused cause)

def previousUnchanged : Option (Previous D) → Call B T D Bool
  | none => pure false
  | some previous => isOk (verifyContent reading previous)

def notPublished (output : Attempt T D) (reservation : ReservationLocation) (cause : Problem) :
    Call B T D (Reply T D) := do
  let unchanged ← previousUnchanged reading output.previous
  let cleanup ← discardOwners (some .output) (some reservation)
  pure (.result
    { attempt := output, mainNamespaceMayHaveBeenAttempted := false, publication := .notPublished
      destinationContent := if unchanged then .previous else if cleanup.mainAbsent then .absent
        else .unclassified
      cleanup := cleanup.artifacts, cause := some cause })

def outcomeUnknown (output : Attempt T D) (cause : Problem) : PublicationResult T D :=
  { attempt := output, mainNamespaceMayHaveBeenAttempted := true, publication := .outcomeUnknown
    destinationContent := .unclassified, cleanup := [], cause := some cause }

def publishedResult (output : Attempt T D) (cleanup : List Artifact) (cause : Option Problem) :
    PublicationResult T D :=
  { attempt := output, mainNamespaceMayHaveBeenAttempted := true, publication := .published
    destinationContent := .desired, cleanup, cause }

def finishPublished (output : Attempt T D) (cause : Option Problem) :
    Call B T D (PublicationResult T D) := do
  match ← outcomeOf (retireSteps reading output) with
  | .error retirement =>
    let residue : List ArtifactKind :=
      (output.previous.toList.map fun _ => .privateOutput) ++ [.privateReservation]
    pure (publishedResult output (residue.map fun kind => { kind, error := retirement })
      (cause <|> some retirement))
  | .ok () => do
    match ← outcomeOf (verifyMain reading output) with
    | .error retirement => pure (publishedResult output [] (cause <|> some retirement))
    | .ok () => pure (publishedResult output [] cause)

def fromArmed (observing : Bool) (output : Attempt T D) : Call B T D (PublicationResult T D) := do
  match ← outcomeOf (proveMain reading output) with
  | .error cause => pure (outcomeUnknown output cause)
  | .ok () => do
    match ← outcomeOf (do
        observe observing (interrupted output true .published .desired [.privateReservation])
        step
        verifyAfterMain reading output) with
    | .error cause => finishPublished reading output (some cause)
    | .ok () => finishPublished reading output none

def verifyPrevious : Option (Previous D) → Call B T D Unit
  | none => pure ()
  | some previous => verifyContent reading previous

section

variable (observing : Bool) (output : Attempt T D)

def fromCanonical : Call B T D (Reply T D) := do
  match ← outcomeOf (do step; verifyPrevious reading output.previous) with
  | .error cause => notPublished reading output .canonical cause
  | .ok () => do
    match ← outcomeOf (selectState2 reading output (header output)) with
    | .error cause => notPublished reading output .canonical cause
    | .ok () => do
      match ← outcomeOf (do
          observe observing (outcomeUnknown output .io)
          step
          verifyReservation reading output (armed output) .canonical .private_) with
      | .error cause => pure (.result (outcomeUnknown output cause))
      | .ok () => .result <$> fromArmed reading observing output

def fromPrivate : Call B T D (Reply T D) := do
  match ← outcomeOf (do
      beforeAcquire reading output (header output)
      acquireCanonical reading output (header output)
        (observe observing (interrupted output false .notPublished .unclassified
          [.privateOutput, .privateReservation]))) with
  | .error cause => notPublished reading output .either cause
  | .ok () => fromCanonical reading observing output

def publishWithObserver : Call B T D (Reply T D) := do
  match ← outcomeOf (createDraft reading output) with
  | .error cause => preparation none cause
  | .ok () => do
    match ← outcomeOf (do step; selectState1 reading output) with
    | .error cause => preparation (some .private_) cause
    | .ok () => do
      match ← outcomeOf (do
          observe observing (interrupted output false .notPublished .unclassified
            [.privateOutput, .privateReservation])
          step
          step
          verifyReservation reading output (header output) .private_ .private_) with
      | .error cause => notPublished reading output .private_ cause
      | .ok () => fromPrivate reading observing output

end

def discardOne : Call B T D Unit := do
  match ← outcomeOf (remove .output [.privateOutput]) with
  | .error _ => pure ()
  | .ok () => do
    let _ ← outcomeOf (do syncDirectory; verifyDirectory; regularLinkCount .output)
    pure ()

def createOutput (policy : Policy) : Call B T D Unit := do
  step
  if policy = .failIfExists then do
    requireAbsent .main
    requireAbsent .coordination
  create .privateOutput .output

def writeOutput (desired : B) : Call B T D Unit :=
  perform fun world =>
    { world with
      bytes := Function.update world.bytes .output desired
      synced := Function.update world.synced .output false }

def prepare (tuple : T) : Call B T D D := do
  verifyName .privateOutput .output
  step
  inspectExact reading tuple .private_
  let world ← get
  let digest := reading.digest (world.bytes .output)
  syncFile .output
  step
  inspectExact reading tuple .private_
  pure digest

/-- `replacement::open`: the destination that is to be replaced. -/
def openPrevious : Call B T D (Previous D) := do
  step
  requireAbsent .coordination
  match ← openRegular .main with
  | none => fail (.name .missing)
  | some identity =>
    if identity = .output then fail .sameIdentity
    else do
      step
      verifyName .main identity
      syncFile identity
      step
      let world ← get
      verifyName .main identity
      pure { identity, digest := reading.digest (world.bytes identity) }

/-- `bind`, which only the replacement policies call. -/
def bindPrevious (policy : Policy) : Call B T D (Option (Previous D)) :=
  if policy.isReplacement then some <$> openPrevious reading else pure none

def preparedOutput (policy : Policy) (tuple : T) (outputDigest : D)
    (previous : Option (Previous D)) : Attempt T D where
  policy := policy
  tuple := tuple
  outputIdentity := .output
  outputDigest := outputDigest
  previous := previous
  reservationIdentity := .reservation

def prepareAll (policy : Policy) (desired : B) (tuple : T) : Call B T D (Attempt T D) := do
  writeOutput desired
  let outputDigest ← prepare reading tuple
  let previous ← bindPrevious reading policy
  pure (preparedOutput policy tuple outputDigest previous)

/-- `workflow::publish` once the private output exists. -/
def publishPrepared (policy : Policy) (observing : Bool) (desired : B) (tuple : T) :
    Call B T D (Reply T D) := do
  match ← outcomeOf (prepareAll reading policy desired tuple) with
  | .error cause => do
    discardOne
    pure (.refused cause)
  | .ok output => publishWithObserver reading observing output

/-- `workflow::create` followed by `workflow::publish`. -/
def publish (policy : Policy) (observing : Bool) (desired : B) (tuple : T) :
    Call B T D (Reply T D) := do
  match ← outcomeOf (createOutput policy) with
  | .error cause => pure (.refused cause)
  | .ok () => do
    match ← outcomeOf (verifyName .privateOutput .output) with
    | .error cause => do
      discardOne
      pure (.refused cause)
    | .ok () => publishPrepared reading policy observing desired tuple

end IpRange.Publication
