import IpRange.PublicationAttempt

/-!
Executable model of the two restart resolvers of one publication attempt: the
selection of the attempt's authority, the inspection of the files in place, and
what `Complete` and `Remove` do for each content found at the main name.
-/

namespace IpRange.Publication

variable {B T D : Type} [DecidableEq T] [DecidableEq D] (reading : Reading B T D)

inductive Mode where
  | complete
  | remove
deriving DecidableEq, Repr

structure Reservation (T D : Type) where
  header : Header T D
  location : Location
deriving DecidableEq, Repr

def Reservation.owner {T D : Type} (reservation : Reservation T D) : ReservationLocation :=
  match reservation.location with
  | .private_ => .private_
  | .canonical => .canonical

inductive Content where
  | desired
  | previous
  | other
deriving DecidableEq, Repr

structure Inspected where
  identity : Inode
  content : Content
deriving DecidableEq, Repr

def Reservation.verify (reservation : Reservation T D) : Call B T D Unit := do
  verifyDirectory
  verifyName reservation.location.reservationName .reservation
  require (fun world => world.record.select = some reservation.header)
    (.conflict "publication reservation changed after inspection")

def readSelected (found : Inode) : Call B T D (Option (Header T D)) := do
  step
  let world ← get
  pure (if found = .reservation then world.record.select else none)

/-- `reservation_inspection::canonical`. -/
def canonical : Call B T D (Option (Reservation T D)) := do
  step
  match ← openRegular .coordination with
  | none => pure none
  | some found => do
    match ← readSelected found with
    | none => fail (.unresolvable "publication reservation record is not selectable")
    | some header =>
      if header.attempt.reservationIdentity = found then do
        step
        verifyName .coordination found
        verifyDirectory
        pure (some { header, location := .canonical })
      else fail (.conflict "reservation self identity does not match its inode")

/-- `inspect_private`: what cannot be read as a bound reservation is passed over. -/
def inspectPrivate : Call B T D (Option (Reservation T D)) := do
  match ← openRegular .privateReservation with
  | none => pure none
  | some found => do
    match ← readSelected found with
    | none => pure none
    | some header =>
      if header.attempt.reservationIdentity = found then do
        step
        verifyName .privateReservation found
        pure (some { header, location := .private_ })
      else pure none

def discover : Call B T D (Option (Reservation T D)) := do
  match ← canonical with
  | some reservation => pure (some reservation)
  | none => do
    let found ← inspectPrivate
    requireAbsent .coordination
    pure found

def exactPrivate (expected : Header T D) : Call B T D (Option (Reservation T D)) := do
  step
  match ← openRegular .privateReservation with
  | none => pure none
  | some found => do
    step
    verifyName .privateReservation found
    match ← readSelected found with
    | none => fail (.unresolvable "publication reservation record is not selectable")
    | some header =>
      if header = expected then pure (some { header, location := .private_ })
      else fail (.conflict "caller result and private reservation disagree")

structure Authority (T D : Type) where
  header : Header T D
  exact_ : Option (Reservation T D)

/-- `choose_authority`; a reservation of another attempt is outside the model. -/
def chooseAuthority (supplied : Option (Header T D)) (discovered : Option (Reservation T D)) :
    Call B T D (Authority T D) :=
  match supplied, discovered with
  | none, none => fail (.unresolvable "no publication result or bound reservation is available")
  | some header, none => pure { header, exact_ := none }
  | none, some reservation => pure { header := reservation.header, exact_ := some reservation }
  | some header, some reservation =>
    if header = reservation.header then pure { header, exact_ := some reservation }
    else fail (.conflict "caller result and reservation disagree for the same attempt")

def withExactPrivate (authority : Authority T D) :
    Option (Header T D) → Call B T D (Authority T D)
  | some header =>
    if authority.exact_.isNone then do
      let found ← exactPrivate header
      pure { authority with exact_ := found }
    else pure authority
  | none => pure authority

def inspectAuthority (supplied : Option (Header T D)) : Call B T D (Authority T D) := do
  let discovered ← discover
  let authority ← chooseAuthority supplied discovered
  withExactPrivate authority supplied

section

variable (header : Header T D)

/-- `classify` for an attempt that must not replace anything. -/
def classify (tuple : T) (bytes : B) : Content :=
  if tuple = header.attempt.tuple ∧ reading.digest bytes = header.attempt.outputDigest then .desired
  else .other

/-- `classify` for a replacement. -/
def classifyReplacement (identity : Inode) (bytes : B) : Content :=
  if reading.digest bytes = header.attempt.outputDigest ∧
      reading.openMeta bytes = some header.attempt.tuple then .desired
  else if header.attempt.previous.any fun previous =>
      decide (identity = previous.identity) && decide (reading.digest bytes = previous.digest) then
    .previous
  else .other

/-- `file_inspection::inspect`. -/
def inspectFile (name : Name) : Call B T D (Option Inspected) := do
  match ← openRegular name with
  | none => pure none
  | some identity => do
    step
    verifyName name identity
    let world ← get
    match reading.openMeta (world.bytes identity) with
    | none => fail (.conflict "publication destination is not a complete v4 file")
    | some tuple => do
      step
      verifyDirectory
      verifyName name identity
      pure (some { identity, content := classify reading header tuple (world.bytes identity) })

def privateOwned : Call B T D (Option Inspected) := do
  match ← inspectFile reading header .privateOutput with
  | none => pure none
  | some found =>
    if found.identity = header.attempt.outputIdentity ∧ found.content = .desired then
      pure (some found)
    else fail (.conflict "private publication output does not match its reservation")

/-- `replacement_inspection::inspect_one` after `open`. -/
def inspectOne (name : Name) : Call B T D (Option Inspected) := do
  match ← openRegular name with
  | none => pure none
  | some identity => do
    step
    verifyName name identity
    step
    let world ← get
    verifyDirectory
    verifyName name identity
    pure (some
      { identity, content := classifyReplacement reading header identity (world.bytes identity) })

end

def Inspected.verify (main : Inspected) : Call B T D Unit := do
  step
  verifyDirectory
  verifyName .main main.identity

def synchronize (main : Inspected) : Call B T D Unit := do
  step
  syncFile main.identity
  main.verify

/-- `acquire` as `arm` calls it: whether a failure leaves the outcome open. -/
def acquireResumed (output : Attempt T D) (selected : Header T D) :
    Call B T D (Option (PublicationResult T D)) := do
  beforeAcquire reading output selected
  match ← outcomeOf (acquireCanonical reading output selected (pure ())) with
  | .ok () => pure none
  | .error (.name .existing) => fail (.conflict "another coordination inode won publication")
  | .error problem => pure (some (outcomeUnknown output problem))

def acquireAt (output : Attempt T D) (reservation : Reservation T D) :
    Call B T D (Option (PublicationResult T D)) :=
  match reservation.location with
  | .private_ => acquireResumed reading output reservation.header
  | .canonical => pure none

/-- `arm` of a canonical reservation: `none` once it carries a verified state 2. -/
def armCanonical (output : Attempt T D) (selected : Header T D) :
    Call B T D (Option (PublicationResult T D)) :=
  match selected.state with
  | .prepared => do
    selectState2 reading output selected
    match ← outcomeOf (verifyReservation reading output selected.state2 .canonical .private_) with
    | .ok () => pure none
    | .error problem => pure (some (outcomeUnknown output problem))
  | .mainMayHaveBeenAttempted => do
    resumeArmedReservation reading output selected
    pure none

/-- `arm` followed by `attempt::resume_armed`. -/
def completeWith (output : Attempt T D) (reservation : Reservation T D) :
    Call B T D (PublicationResult T D) := do
  match ← acquireAt reading output reservation with
  | some unknown => pure unknown
  | none => do
    match ← armCanonical reading output reservation.header with
    | some unknown => pure unknown
    | none => fromArmed reading false output

def completeAbsent (authority : Authority T D) : Call B T D (PublicationResult T D) := do
  match authority.exact_ with
  | none => fail (.unresolvable "completion requires the exact recorded reservation inode")
  | some reservation => do
    match ← privateOwned reading authority.header with
    | none => fail (.unresolvable "completion requires the exact prepared output inode")
    | some _ => do
      step
      completeWith reading authority.header.attempt reservation

def verifyNoLater (exact_ : Option (Reservation T D)) (summary : Summary) : Call B T D Unit :=
  if summary.coordinationAbsent then pure ()
  else
    match exact_ with
    | some reservation =>
      if reservation.location = .canonical then reservation.verify
      else fail (.conflict "another coordination owner appeared during publication cleanup")
    | none => fail (.conflict "another coordination owner appeared during publication cleanup")

def verifyDestination (main : Option Inspected) (summary : Summary) : Call B T D Unit :=
  match main with
  | none =>
    if summary.mainAbsent then pure ()
    else fail (.cleanupConflict "destination changed during publication cleanup")
  | some main => main.verify

def attempted (header : Header T D) : Bool := header.state = .mainMayHaveBeenAttempted

def keptResult (header : Header T D) (content : DestinationContent) (summary : Summary)
    (verified : Except Problem Unit) : PublicationResult T D :=
  { attempt := header.attempt
    mainNamespaceMayHaveBeenAttempted := attempted header
    publication := if verified.isOk then .notPublished else .outcomeUnknown
    destinationContent := if verified.isOk then content else .unclassified
    cleanup := summary.artifacts
    cause := match verified with
      | .ok () => summary.artifacts.head?.map Artifact.error
      | .error problem => some problem }

def abandon (authority : Authority T D) (main : Option Inspected) (content : DestinationContent) :
    Call B T D (PublicationResult T D) := do
  let found ← privateOwned reading authority.header
  step
  let summary ← discardOwners (found.map Inspected.identity)
    (authority.exact_.map Reservation.owner)
  let verified ← outcomeOf (do
    verifyDestination main summary
    verifyNoLater authority.exact_ summary)
  pure (keptResult authority.header content summary verified)

def finalLater (exact_ : Option (Reservation T D)) (summary : Summary) : Call B T D Unit := do
  if summary.coordinationAbsent then pure ()
  else do
    let kept ← isOk (exact_.forM fun reservation =>
      if reservation.location = .canonical then reservation.verify else fail (.name .missing))
    if exact_.isSome && kept then pure ()
    else do
      match ← canonical (T := T) (D := D) with
      | none => pure ()
      | some _ => fail (.conflict "publication coordination identity changed for the same attempt")

def desiredResult (header : Header T D) (attempted verified : Bool) (artifacts : List Artifact)
    (cause : Option Problem) : PublicationResult T D :=
  { attempt := header.attempt
    mainNamespaceMayHaveBeenAttempted := attempted
    publication := if verified then .published else .outcomeUnknown
    destinationContent := if verified then .desired else .unclassified
    cleanup := artifacts
    cause }

section

variable (authority : Authority T D)

/-- The end of `resolve_desired`, with the problem of the private output when it has one. -/
def finishDesired (main : Inspected) (found : Option Inspected)
    (privateProblem : Option Problem) : Call B T D (PublicationResult T D) := do
  step
  let summary ← discardOwners (found.map Inspected.identity)
    (authority.exact_.map Reservation.owner)
  let artifacts := summary.artifacts ++
    (privateProblem.map fun error => { kind := .privateOutput, error }).toList
  match ← outcomeOf (finalLater authority.exact_ summary) with
  | .error problem =>
    pure (desiredResult authority.header true false artifacts (some problem))
  | .ok () => do
    match ← outcomeOf main.verify with
    | .ok () =>
      pure (desiredResult authority.header true true artifacts
        (privateProblem <|> artifacts.head?.map Artifact.error))
    | .error problem =>
      pure (desiredResult authority.header true false artifacts
        (privateProblem <|> some problem))

def resolveDesired (main : Inspected) : Call B T D (PublicationResult T D) := do
  match ← outcomeOf (synchronize main) with
  | .error .cancelled => fail .cancelled
  | .error problem => pure (outcomeUnknown authority.header.attempt problem)
  | .ok () => do
    match ← outcomeOf (privateOwned reading authority.header) with
    | .error .cancelled => fail .cancelled
    | .error problem => finishDesired authority main none (some problem)
    | .ok found => finishDesired authority main found none

def resolveOther (main : Inspected) : Call B T D (PublicationResult T D) := do
  match ← outcomeOf (synchronize main) with
  | .error .cancelled => fail .cancelled
  | .error problem => pure (outcomeUnknown authority.header.attempt problem)
  | .ok () => abandon reading authority (some main) .other

def resolveAbsent (mode : Mode) : Call B T D (PublicationResult T D) :=
  match mode with
  | .complete => completeAbsent reading authority
  | .remove => abandon reading authority none .absent

def dispatch (mode : Mode) : Call B T D (PublicationResult T D) := do
  match ← inspectFile reading authority.header .main with
  | none => resolveAbsent reading authority mode
  | some main =>
    if main.content = .desired then resolveDesired reading authority main
    else resolveOther reading authority main

end

def relock : Option (Reservation T D) → Call B T D Unit
  | none => pure ()
  | some reservation => do
    step
    reservation.verify

def requirePrevious (header : Header T D) (main : Inspected) : Call B T D Unit :=
  if main.content = .previous ∧
      header.attempt.previous.any fun previous => decide (main.identity = previous.identity) then
    pure ()
  else fail (.conflict "replacement destination no longer matches previous evidence")

def requireOutput (header : Header T D) (found : Inspected) : Call B T D Unit := do
  step
  if found.content = .desired ∧ found.identity = header.attempt.outputIdentity then pure ()
  else fail (.unresolvable "replacement prepared output does not match its reservation")

def completePrevious (authority : Authority T D) (main : Inspected) (found : Option Inspected) :
    Call B T D (PublicationResult T D) := do
  match authority.exact_ with
  | none => fail (.unresolvable "replacement completion requires its exact reservation")
  | some reservation => do
    match found with
    | none => fail (.unresolvable "replacement completion requires its prepared output")
    | some output => do
      requirePrevious authority.header main
      requireOutput authority.header output
      step
      completeWith reading authority.header.attempt reservation

def removableOutput (header : Header T D) : Option Inspected → Call B T D (Option Inode)
  | none => pure none
  | some found =>
    if found.content = .desired ∧ found.identity = header.attempt.outputIdentity then
      pure (some found.identity)
    else fail (.conflict "private replacement artifact does not match the prepared output")

def desiredCleanup (header : Header T D) : Option Inspected → Option Inode × Option Inspected
  | none => (none, none)
  | some found =>
    if (found.content = .desired ∧ found.identity = header.attempt.outputIdentity) ∨
        (found.content = .previous ∧
          header.attempt.previous.any fun previous =>
            decide (found.identity = previous.identity)) then
      (some found.identity, none)
    else (none, some found)

section

variable (authority : Authority T D) (main : Inspected) (found : Option Inspected)

def resolveNotDesired (content : DestinationContent) : Call B T D (PublicationResult T D) := do
  synchronize main
  let output ← removableOutput authority.header found
  let summary ← discardOwners output (authority.exact_.map Reservation.owner)
  let verified ← outcomeOf main.verify
  pure (keptResult authority.header content summary verified)

/-- `resolve_desired` of a replacement. -/
def resolveDesiredReplacement (mode : Mode) : Call B T D (PublicationResult T D) := do
  if authority.header.attempt.policy = .replaceExistingNoRollback ∧ mode = .remove then
    fail (.unresolvable "no-rollback replacement cannot restore a discarded destination")
  else do
    synchronize main
    let (output, foreign) := desiredCleanup authority.header found
    let summary ← discardOwners output (authority.exact_.map Reservation.owner)
    let artifacts := summary.artifacts ++ (foreign.map fun _ =>
      { kind := .privateOutput
        error := .conflict "private replacement artifact does not match recorded ownership" }).toList
    match ← outcomeOf main.verify with
    | .ok () =>
      pure (desiredResult authority.header (attempted authority.header) true artifacts
        (artifacts.head?.map Artifact.error))
    | .error problem =>
      pure (desiredResult authority.header (attempted authority.header) false artifacts
        (some problem))

def resolvePrevious (mode : Mode) : Call B T D (PublicationResult T D) :=
  match mode with
  | .complete => completePrevious reading authority main found
  | .remove => do
    requirePrevious authority.header main
    resolveNotDesired authority main found .previous

end

def dispatchReplacement (authority : Authority T D) (mode : Mode) :
    Call B T D (PublicationResult T D) := do
  step
  let main ← inspectOne reading authority.header .main
  let found ← inspectOne reading authority.header .privateOutput
  relock authority.exact_
  match main with
  | none => fail (.conflict "replacement cannot legitimately leave the destination absent")
  | some main =>
    match main.content with
    | .previous => resolvePrevious reading authority main found mode
    | .desired => resolveDesiredReplacement authority main found mode
    | .other => resolveNotDesired authority main found .other

/-- `resolver::resolve`: the resolution of the attempt that a caller's result or the
reservation in place identifies. -/
def resolveExact (mode : Mode) (supplied : Option (PublicationResult T D)) :
    Call B T D (PublicationResult T D) := do
  step
  let authority ← inspectAuthority (supplied.map PublicationResult.headerFor)
  if authority.header.attempt.policy.isReplacement then dispatchReplacement reading authority mode
  else dispatch reading authority mode

def resolve (mode : Mode) (supplied : Option (PublicationResult T D)) : Call B T D (Reply T D) := do
  match ← outcomeOf (resolveExact reading mode supplied) with
  | .ok result => pure (.result result)
  | .error problem => pure (.refused problem)

end IpRange.Publication
