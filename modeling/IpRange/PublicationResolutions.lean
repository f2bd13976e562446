import IpRange.PublicationCalls

/-!
What the restart resolvers keep and report. Only a completion moves the main
name; every other resolution leaves it as it was found and reports according to
the bytes it found there.
-/

set_option linter.unusedSectionVars false

namespace IpRange.Publication

variable {B T D : Type} [DecidableEq T] [DecidableEq D] {reading : Reading B T D}
  {plan : Plan B T D} {world next : World B T D}

section Authority

variable {selected : Header T D} {record : Record T D}

theorem selectedAt_attempt {found : Header T D} {block : Nat}
    (chosen : Record.selectedAt found block = some selected) : selected = found := by
  unfold Record.selectedAt at chosen
  split at chosen
  · exact (Option.some.inj chosen).symm
  · cases chosen

theorem selectPair_attempt {left right : Header T D}
    (chosen : Record.selectPair left right = some selected) :
    selected = left ∨ selected = right := by
  unfold Record.selectPair at chosen
  split at chosen
  · split at chosen
    · exact .inl (selectedAt_attempt chosen)
    · cases chosen
  · by_cases older : left.sequence < right.sequence
    · simp only [if_pos older] at chosen
      split at chosen
      · exact .inr (Option.some.inj chosen).symm
      · cases chosen
    · simp only [if_neg older] at chosen
      split at chosen
      · exact .inl (Option.some.inj chosen).symm
      · cases chosen

theorem Plan.Recorded.select (recorded : plan.Recorded record)
    (chosen : record.select = some selected) :
    selected.attempt = plan.output := by
  have left : ∀ block, record.block0 = some block → block.header.attempt = plan.output :=
    fun block stored => by rw [recorded.1 block stored]; rfl
  have right : ∀ block, record.block1 = some block → block.header.attempt = plan.output :=
    fun block stored => by rw [recorded.2 block stored]; rfl
  unfold Record.select at chosen
  split at chosen
  · cases chosen
  · next block stored _ => rw [selectedAt_attempt chosen, left block stored]
  · next block _ stored => rw [selectedAt_attempt chosen, right block stored]
  · next block0 block1 stored0 stored1 =>
      rcases selectPair_attempt chosen with same | same
      · rw [same, left block0 stored0]
      · rw [same, right block1 stored1]

def ReadFrom (record : Record T D) (found : Option (Reservation T D)) : Prop :=
  ∀ reservation, found = some reservation → record.select = some reservation.header

theorem readSelected_same (found : Inode) :
    Keeps Same (readSelected found) world fun selected (next : World B T D) =>
      ∀ header, selected = some header → next.record.select = some header := by
  refine step_same.bind fun _ reached _ _ => Keeps.get_bind (.pure ?_)
  intro header chosen
  split at chosen
  · exact chosen
  · cases chosen

theorem reading_kept {header : Header T D} (location : Location) {checks : Call B T D Unit}
    (calm : Calm Same checks) (read : world.record.select = some header) :
    Keeps Same (do checks; pure (some (Reservation.mk header location))) world
      fun found (next : World B T D) => ReadFrom next.record found := by
  refine (calm world).bind fun _ reached same _ => .pure ?_
  rintro _ ⟨⟩
  rw [same.record]
  exact read

theorem readFrom_none : ReadFrom record none :=
  fun _ impossible => by cases impossible

theorem canonical_same :
    Keeps Same canonical world fun found (next : World B T D) => ReadFrom next.record found := by
  refine step_same.bind fun _ first _ _ => (openRegular_same _).bind fun found second _ _ => ?_
  cases found with
  | none => exact .pure readFrom_none
  | some found =>
    refine (readSelected_same found).bind fun selected third _ read => ?_
    cases selected with
    | none => exact .throw
    | some header =>
      dsimp only
      split
      · have kept := reading_kept .canonical
          (step_calm.bind fun _ => (verifyName_calm .coordination found).bind fun _ => step_calm)
          (read header rfl)
        simp only [bind_assoc] at kept
        exact kept
      · exact .throw

theorem inspectPrivate_same :
    Keeps Same inspectPrivate world fun found (next : World B T D) =>
      ReadFrom next.record found := by
  refine (openRegular_same _).bind fun found first _ _ => ?_
  cases found with
  | none => exact .pure readFrom_none
  | some found =>
    refine (readSelected_same found).bind fun selected second _ read => ?_
    cases selected with
    | none => exact .pure readFrom_none
    | some header =>
      dsimp only
      split
      · have kept := reading_kept .private_
          (step_calm.bind fun _ => verifyName_calm .privateReservation found)
          (read header rfl)
        simp only [bind_assoc] at kept
        exact kept
      · exact .pure readFrom_none

theorem discover_same :
    Keeps Same discover world fun found (next : World B T D) => ReadFrom next.record found := by
  refine canonical_same.bind fun found first _ read => ?_
  cases found with
  | some reservation => exact .pure read
  | none =>
    refine inspectPrivate_same.bind fun found second _ read => ?_
    refine (requireAbsent_same _).bind fun _ third same _ => .pure ?_
    rw [ReadFrom, same.record]
    exact read

theorem exactPrivate_same (expected : Header T D) :
    Keeps Same (exactPrivate expected) world fun found (next : World B T D) =>
      ReadFrom next.record found := by
  refine step_same.bind fun _ first _ _ => (openRegular_same _).bind fun found second _ _ => ?_
  cases found with
  | none => exact .pure readFrom_none
  | some found =>
    refine step_same.bind fun _ third _ _ => (verifyName_same _ _).bind fun _ fourth _ _ => ?_
    refine (readSelected_same found).bind fun selected fifth _ read => ?_
    cases selected with
    | none => exact .throw
    | some header =>
      dsimp only
      split
      · refine .pure ?_
        rintro _ ⟨⟩
        exact read header rfl
      · exact .throw

structure Authority.Read (authority : Authority T D) (supplied : Option (Header T D))
    (record : Record T D) : Prop where
  header : supplied = some authority.header ∨ record.select = some authority.header
  exact_ : ReadFrom record authority.exact_

theorem chooseAuthority_same {supplied : Option (Header T D)}
    {discovered : Option (Reservation T D)} (read : ReadFrom world.record discovered) :
    Keeps Same (chooseAuthority supplied discovered) world fun authority (next : World B T D) =>
      authority.Read supplied next.record := by
  cases supplied with
  | none =>
    cases discovered with
    | none => exact .throw
    | some reservation => exact .pure ⟨.inr (read reservation rfl), read⟩
  | some header =>
    cases discovered with
    | none => exact .pure ⟨.inl rfl, readFrom_none⟩
    | some reservation =>
      unfold chooseAuthority
      dsimp only
      split
      · exact .pure ⟨.inl rfl, read⟩
      · exact .throw

theorem inspectAuthority_same (supplied : Option (Header T D)) :
    Keeps Same (inspectAuthority supplied) world fun authority (next : World B T D) =>
      authority.Read supplied next.record := by
  refine discover_same.bind fun discovered first _ read => ?_
  refine (chooseAuthority_same read).bind fun authority second _ known => ?_
  cases supplied with
  | none => exact .pure known
  | some header =>
    unfold withExactPrivate
    dsimp only
    split
    · refine (exactPrivate_same header).bind fun found third same read => .pure ?_
      refine ⟨?_, read⟩
      rw [same.record]
      exact known.header
    · exact .pure known

end Authority

def Matches (reading : Reading B T D) (attempt : Attempt T D) (bytes : B) : Prop :=
  reading.openMeta bytes = some attempt.tuple ∧ reading.digest bytes = attempt.outputDigest

structure FoundAt (reading : Reading B T D) (attempt : Attempt T D) (name : Name)
    (world : World B T D) (found : Option Inspected) : Prop where
  named : world.directory.names name = found.map Inspected.identity
  content : ∀ inspected, found = some inspected →
    (inspected.content = .desired ↔ Matches reading attempt (world.bytes inspected.identity))

theorem inspectFile_same (header : Header T D) (name : Name) :
    Keeps Same (inspectFile reading header name) world fun found next =>
      FoundAt reading header.attempt name next found := by
  refine (openRegular_same name).bind fun found first _ named => ?_
  cases found with
  | none => exact .pure ⟨named, fun _ impossible => by cases impossible⟩
  | some identity =>
    refine step_same.bind fun _ second _ _ => (verifyName_same _ _).bind fun _ third _ _ => ?_
    refine Keeps.get_bind ?_
    cases read : reading.openMeta (third.bytes identity) with
    | none => exact .throw
    | some tuple =>
      refine step_same.bind fun _ fourth first _ => step_same.bind fun _ fifth second _ => ?_
      refine (verifyName_same _ _).bind fun _ last third named => .pure ⟨named, ?_⟩
      rintro _ ⟨⟩
      rw [third.bytes, second.bytes, first.bytes]
      simp [classify, Matches, read]

theorem inspectOne_same (header : Header T D) (name : Name) :
    Keeps Same (inspectOne reading header name) world fun found next =>
      FoundAt reading header.attempt name next found := by
  refine (openRegular_same name).bind fun found first _ named => ?_
  cases found with
  | none => exact .pure ⟨named, fun _ impossible => by cases impossible⟩
  | some identity =>
    refine step_same.bind fun _ second _ _ => (verifyName_same _ _).bind fun _ third _ _ => ?_
    refine step_same.bind fun _ fourth _ _ => Keeps.get_bind ?_
    refine step_same.bind fun _ fifth first _ => ?_
    refine (verifyName_same _ _).bind fun _ last second named => .pure ⟨named, ?_⟩
    rintro _ ⟨⟩
    rw [second.bytes, first.bytes]
    unfold classifyReplacement Matches
    split
    · next found => simp [found.1, found.2]
    · next missing =>
        split
        · simp only [reduceCtorEq, false_iff]
          exact fun matched => missing matched.symm
        · simp only [reduceCtorEq, false_iff]
          exact fun matched => missing matched.symm

theorem privateOwned_calm (header : Header T D) : Calm Same (privateOwned reading header) := by
  refine (Calm.of_keeps fun _ => inspectFile_same header _).bind fun found => ?_
  cases found with
  | none => exact .pure _
  | some found => exact .ite (.pure _) (.fail _)

theorem inspected_verify_calm (main : Inspected) : Calm Same (main.verify : Call B T D Unit) :=
  step_calm.bind fun _ => step_calm.bind fun _ => verifyName_calm _ _

theorem reservation_verify_calm (reservation : Reservation T D) :
    Calm Same (reservation.verify : Call B T D Unit) :=
  step_calm.bind fun _ => (verifyName_calm _ _).bind fun _ => .of_keeps fun _ => require_same _ _

theorem synchronize_quiet {holds : Record T D → Prop} (main : Inspected) :
    Calm (Quiet holds) (synchronize main : Call B T D Unit) :=
  step_calm.quiet.bind fun _ => (Calm.of_keeps fun _ => syncFile_quiet _).bind fun _ =>
    (inspected_verify_calm main).quiet

section Kept

variable {holds : Record T D → Prop}

def Settles (status : PublicationStatus) (attempt : Attempt T D)
    (result : PublicationResult T D) : Prop :=
  result.attempt = attempt ∧ (result.publication = status ∨ result.publication = .outcomeUnknown)

theorem keptResult_settles (header : Header T D) (content : DestinationContent)
    (summary : Summary) (verified : Except Problem Unit) :
    Settles .notPublished header.attempt (keptResult header content summary verified) := by
  refine ⟨rfl, ?_⟩
  unfold keptResult
  by_cases ok : verified.isOk <;> simp [ok]

theorem desiredResult_settles (header : Header T D) (tried verified : Bool)
    (artifacts : List Artifact) (cause : Option Problem) :
    Settles .published header.attempt (desiredResult header tried verified artifacts cause) := by
  refine ⟨rfl, ?_⟩
  unfold desiredResult
  cases verified <;> simp

theorem unknown_settles (status : PublicationStatus) (attempt : Attempt T D) (cause : Problem) :
    Settles status attempt (outcomeUnknown attempt cause) := ⟨rfl, .inr rfl⟩

theorem verifyNoLater_calm (exact_ : Option (Reservation T D)) (summary : Summary) :
    Calm Same (verifyNoLater exact_ summary : Call B T D Unit) := by
  refine .ite (.pure _) ?_
  split
  · exact .ite (reservation_verify_calm _) (.fail _)
  · exact .fail _

theorem verifyDestination_calm (main : Option Inspected) (summary : Summary) :
    Calm Same (verifyDestination main summary : Call B T D Unit) := by
  unfold verifyDestination
  split
  · exact .ite (.pure _) (.fail _)
  · exact inspected_verify_calm _

theorem abandon_quiet (authority : Authority T D) (main : Option Inspected)
    (content : DestinationContent) :
    Keeps (Quiet holds) (abandon reading authority main content) world fun result _ =>
      Settles .notPublished authority.header.attempt result := by
  refine ((privateOwned_calm _).quiet world).bind fun found first _ _ => ?_
  refine (step_calm.quiet first).bind fun _ second _ _ => ?_
  refine (discardOwners_quiet _ _ second).bind fun summary third _ _ => ?_
  have verified : Calm (Quiet holds) (do
      verifyDestination main summary
      verifyNoLater authority.exact_ summary : Call B T D Unit) :=
    ((verifyDestination_calm main summary).bind fun _ => verifyNoLater_calm _ _).quiet
  exact (verified.outcomeOf third).bind fun outcome _ _ _ => .pure (keptResult_settles _ _ _ _)

theorem finalLater_calm (exact_ : Option (Reservation T D)) (summary : Summary) :
    Calm Same (finalLater exact_ summary : Call B T D Unit) := by
  refine .ite (.pure _) (Calm.bind (Calm.isOk (Calm.forM fun reservation => ?_)) fun kept => ?_)
  · exact .ite (reservation_verify_calm reservation) (.fail _)
  · refine .ite (.pure _) ((Calm.of_keeps fun _ => canonical_same).bind fun found => ?_)
    cases found with
    | none => exact .pure _
    | some reservation => exact .fail _

section

variable (authority : Authority T D) (main : Inspected)

theorem finishDesired_quiet (found : Option Inspected) (privateProblem : Option Problem) :
    Keeps (Quiet holds) (finishDesired authority main found privateProblem) world
      fun result (_ : World B T D) => Settles .published authority.header.attempt result := by
  refine (step_calm.quiet world).bind fun _ first _ _ => ?_
  refine (discardOwners_quiet _ _ first).bind fun summary second _ _ => ?_
  refine ((finalLater_calm _ _).outcomeOf.quiet second).bind fun outcome third _ _ => ?_
  cases outcome with
  | error problem => exact .pure (desiredResult_settles _ _ _ _ _)
  | ok _ =>
    refine ((inspected_verify_calm main).outcomeOf.quiet third).bind fun outcome last _ _ => ?_
    cases outcome <;> exact .pure (desiredResult_settles _ _ _ _ _)

theorem resolveDesired_quiet :
    Keeps (Quiet holds) (resolveDesired reading authority main) world fun result _ =>
      Settles .published authority.header.attempt result := by
  refine ((synchronize_quiet main).outcomeOf world).bind fun outcome first _ _ => ?_
  split
  · exact .throw
  · exact .pure (unknown_settles _ _ _)
  · refine ((privateOwned_calm _).outcomeOf.quiet first).bind fun outcome second _ _ => ?_
    split
    · exact .throw
    · exact finishDesired_quiet _ _ _ _
    · exact finishDesired_quiet _ _ _ _

theorem resolveOther_quiet :
    Keeps (Quiet holds) (resolveOther reading authority main) world fun result _ =>
      Settles .notPublished authority.header.attempt result := by
  refine ((synchronize_quiet main).outcomeOf world).bind fun outcome first _ _ => ?_
  split
  · exact .throw
  · exact .pure (unknown_settles _ _ _)
  · exact abandon_quiet _ _ _

theorem resolveNotDesired_quiet (found : Option Inspected) (content : DestinationContent) :
    Keeps (Quiet holds) (resolveNotDesired authority main found content) world
      fun result (_ : World B T D) => Settles .notPublished authority.header.attempt result := by
  refine (synchronize_quiet main world).bind fun _ first _ _ => ?_
  have removable : Calm (Quiet holds)
      (removableOutput authority.header found : Call B T D (Option Inode)) := by
    cases found with
    | none => exact .pure _
    | some found => exact .ite (.pure _) (.fail _)
  refine (removable first).bind fun output second _ _ => ?_
  refine (discardOwners_quiet _ _ second).bind fun summary third _ _ => ?_
  exact ((inspected_verify_calm main).outcomeOf.quiet third).bind fun outcome _ _ _ =>
    .pure (keptResult_settles _ _ _ _)

theorem resolveDesiredReplacement_quiet (found : Option Inspected) (mode : Mode) :
    Keeps (Quiet holds) (resolveDesiredReplacement authority main found mode) world
      fun result (_ : World B T D) => Settles .published authority.header.attempt result := by
  unfold resolveDesiredReplacement
  split
  · exact .throw
  · refine (synchronize_quiet main world).bind fun _ first _ _ => ?_
    refine (discardOwners_quiet _ _ first).bind fun summary second _ _ => ?_
    refine ((inspected_verify_calm main).outcomeOf.quiet second).bind fun outcome last _ _ => ?_
    cases outcome <;> exact .pure (desiredResult_settles _ _ _ _ _)

end

end Kept

section Completion

theorem moving {α : Type} {call : Call B T D α} {post : α → World B T D → Prop}
    (run : Keeps (Quiet plan.Recorded) call world post) :
    Keeps plan.Moves call world fun value reached =>
      Quiet plan.Recorded world reached ∧ post value reached :=
  (run.mono fun _ _ quiet holds => And.intro quiet holds).weaken fun _ quiet =>
    Plan.moves_of_waits (Plan.waits_of_quiet false quiet)

theorem Unsaid.quiet {holds : Record T D → Prop} (unsaid : Unsaid world)
    (quiet : Quiet holds world next) : Unsaid next := by
  unfold Unsaid
  rw [quiet.observed]
  exact unsaid

def LeavesOpen (attempt : Attempt T D) (value : Option (PublicationResult T D)) : Prop :=
  ∀ result, value = some result → ∃ cause, result = outcomeUnknown attempt cause

variable {attempt : Attempt T D}

theorem leavesOpen_none : LeavesOpen attempt none :=
  fun _ impossible => by cases impossible

theorem leavesOpen_some (cause : Problem) :
    LeavesOpen attempt (some (outcomeUnknown attempt cause)) := by
  rintro _ ⟨⟩
  exact ⟨cause, rfl⟩

theorem acquireAt_quiet (reservation : Reservation T D) :
    Keeps (Quiet plan.Recorded) (acquireAt reading plan.output reservation) world
      fun value _ => LeavesOpen plan.output value := by
  unfold acquireAt
  split
  · refine ((beforeAcquire_calm reading _ _).quiet world).bind fun _ first _ _ => ?_
    have acquired : Calm (Quiet plan.Recorded)
        (acquireCanonical reading plan.output reservation.header (pure ())) :=
      renameReservation_quiet.bind fun _ => (Calm.pure _).bind fun _ =>
        afterRename_quiet reading _ _
    refine (acquired.outcomeOf first).bind fun outcome second _ _ => ?_
    split
    · exact .pure leavesOpen_none
    · exact .throw
    · exact .pure (leavesOpen_some _)
  · exact .pure leavesOpen_none

theorem armCanonical_quiet {selected : Header T D} (own : selected.attempt = plan.output) :
    Keeps (Quiet plan.Recorded) (armCanonical reading plan.output selected) world
      fun value _ => LeavesOpen plan.output value := by
  unfold armCanonical
  split
  · refine (selectState2_quiet reading own world).bind fun _ first _ _ => ?_
    refine ((verifyReservation_calm reading _ _ _ _).outcomeOf.quiet first).bind
      fun outcome second _ _ => ?_
    cases outcome with
    | ok _ => exact .pure leavesOpen_none
    | error problem => exact .pure (leavesOpen_some _)
  · exact ((resumeArmedReservation_calm reading _ _).quiet world).bind fun _ _ _ _ =>
      .pure leavesOpen_none

theorem completeWith_moves (valid : plan.Valid reading) (unsaid : Unsaid world)
    {reservation : Reservation T D} (own : reservation.header.attempt = plan.output) :
    Keeps plan.Moves (completeWith reading plan.output reservation) world fun result reached =>
      Reports plan reached result := by
  refine (moving (acquireAt_quiet reservation)).bind fun value first _ facts => ?_
  cases value with
  | some unknown =>
    obtain ⟨cause, rfl⟩ := facts.2 unknown rfl
    exact .pure (unknown_reports cause)
  | none =>
    refine (moving (armCanonical_quiet own)).bind fun value second _ armedFacts => ?_
    cases value with
    | some unknown =>
      obtain ⟨cause, rfl⟩ := armedFacts.2 unknown rfl
      exact .pure (unknown_reports cause)
    | none => exact fromArmed_moves valid ((unsaid.quiet facts.1).quiet armedFacts.1)

end Completion

section Dispatch

def World.mainBytes (world : World B T D) : Option B :=
  (world.directory.names .main).map world.bytes

def Says (plan : Plan B T D) (world : World B T D) (result : PublicationResult T D) : Prop :=
  result.attempt = plan.output ∧
    (result.publication = .published → world.mainBytes = some plan.desired) ∧
    (result.publication = .notPublished → world.directory.names .main = plan.before)

variable {result : PublicationResult T D} {call : Call B T D (PublicationResult T D)}
  {attempt : Attempt T D} {found : Option Inspected} {authority : Authority T D}

theorem Reports.holds (reports : Reports plan world result) (sound : plan.Sound world) :
    Says plan world result := by
  obtain ⟨truthful, own⟩ := reports
  refine ⟨own, ?_, ?_⟩ <;> intro status <;> simp only [Plan.Truthful, status] at truthful
  · simp [World.mainBytes, truthful.1, sound.output]
  · exact truthful

theorem Settles.kept (valid : plan.Valid reading)
    (settles : Settles .notPublished plan.output result) (sound : plan.Sound world)
    (unmatched : ∀ inode, world.directory.names .main = some inode →
      ¬ Matches reading plan.output (world.bytes inode)) : Says plan world result := by
  refine ⟨settles.1, fun status => ?_, fun _ => ?_⟩
  · rcases settles.2 with kept | unknown
    · rw [kept] at status; cases status
    · rw [unknown] at status; cases status
  · rcases sound.entries _ (world.directory.names_mem_entries .main) with before | moved
    · exact before
    · refine absurd ?_ (unmatched .output moved)
      rw [sound.output]
      exact ⟨valid.tuple, valid.digest.symm⟩

def Plan.heldBefore (plan : Plan B T D) : Option B := plan.before.map plan.held

variable {world : World B T D}

theorem Plan.Sound.mainBytes_before (sound : plan.Sound world)
    (unmoved : world.directory.names .main = plan.before) :
    world.mainBytes = plan.heldBefore := by
  unfold World.mainBytes Plan.heldBefore
  rw [unmoved]
  cases before : plan.before with
  | none => rfl
  | some inode => simp [(sound.previous inode before).1]

/-- The bytes that the main name held are not taken for the desired ones by their digest. -/
def Plan.CollisionFree (plan : Plan B T D) (reading : Reading B T D) : Prop :=
  ∀ held, plan.heldBefore = some held → reading.digest held = reading.digest plan.desired →
    held = plan.desired

theorem Settles.desired (valid : plan.Valid reading) (collisionFree : plan.CollisionFree reading)
    (settles : Settles .published plan.output result) (sound : plan.Sound world) {inode : Inode}
    (named : world.directory.names .main = some inode)
    (matched : Matches reading plan.output (world.bytes inode)) : Says plan world result := by
  refine ⟨settles.1, fun _ => ?_, fun status => ?_⟩
  · have holds : world.mainBytes = some (world.bytes inode) := by simp [World.mainBytes, named]
    rcases sound.entries _ (world.directory.names_mem_entries .main) with before | moved
    · rw [sound.mainBytes_before before] at holds
      rw [sound.mainBytes_before before, holds,
        collisionFree _ holds (matched.2.trans valid.digest)]
    · rw [World.mainBytes, moved]
      exact congrArg some sound.output
  · rcases settles.2 with kept | unknown
    · rw [kept] at status; cases status
    · rw [unknown] at status; cases status

def Resolves (plan : Plan B T D) (result : PublicationResult T D) (world : World B T D) : Prop :=
  plan.Sound world → Says plan world result

theorem kept_moves (valid : plan.Valid reading) (own : attempt = plan.output)
    (inspected : FoundAt reading attempt .main world found)
    (unmatched : ∀ main, found = some main → main.content ≠ .desired)
    (run : Keeps (Quiet plan.Recorded) call world fun result _ =>
      Settles .notPublished attempt result) :
    Keeps plan.Moves call world (Resolves plan) := by
  subst own
  refine (moving run).mono fun result reached _ facts sound => ?_
  refine facts.2.kept valid sound fun inode named matched => ?_
  rw [facts.1.main, inspected.named] at named
  obtain ⟨main, rfl, rfl⟩ := Option.map_eq_some_iff.mp named
  rw [facts.1.bytes] at matched
  exact unmatched main rfl ((inspected.content main rfl).mpr matched)

theorem desired_moves (valid : plan.Valid reading) (collisionFree : plan.CollisionFree reading)
    (own : attempt = plan.output) {main : Inspected}
    (inspected : FoundAt reading attempt .main world (some main))
    (matched : main.content = .desired)
    (run : Keeps (Quiet plan.Recorded) call world fun result _ => Settles .published attempt result)
    :
    Keeps plan.Moves call world (Resolves plan) := by
  subst own
  refine (moving run).mono fun result reached _ facts sound => ?_
  have named : reached.directory.names .main = some main.identity := by
    rw [facts.1.main, inspected.named]
    rfl
  refine facts.2.desired valid collisionFree sound named ?_
  rw [facts.1.bytes]
  exact (inspected.content main rfl).mp matched

theorem reports_resolves
    (run : Keeps plan.Moves call world fun result reached => Reports plan reached result) :
    Keeps plan.Moves call world (Resolves plan) :=
  run.mono fun _ _ _ reports sound => reports.holds sound

structure Owned (plan : Plan B T D) (authority : Authority T D) : Prop where
  header : authority.header.attempt = plan.output
  exact_ : ∀ reservation, authority.exact_ = some reservation →
    reservation.header.attempt = plan.output

theorem completeAbsent_moves (valid : plan.Valid reading) (unsaid : Unsaid world)
    (owned : Owned plan authority) :
    Keeps plan.Moves (completeAbsent reading authority) world (Resolves plan) := by
  unfold completeAbsent
  split
  · exact .throw
  · next reservation held =>
      refine (Plan.quietly (privateOwned_calm _).quiet).bind fun found first _ quiet => ?_
      cases found with
      | none => exact .throw
      | some found =>
        refine (Plan.quietly step_calm.quiet).bind fun _ second _ later => ?_
        rw [owned.header]
        exact reports_resolves (completeWith_moves valid ((unsaid.quiet quiet).quiet later)
          (owned.exact_ reservation held))

theorem dispatch_moves (valid : plan.Valid reading) (collisionFree : plan.CollisionFree reading)
    (unsaid : Unsaid world) (owned : Owned plan authority) (mode : Mode) :
    Keeps plan.Moves (dispatch reading authority mode) world (Resolves plan) := by
  refine (moving ((inspectFile_same authority.header .main).weaken fun _ same =>
    same.quiet)).bind fun found first _ facts => ?_
  obtain ⟨quiet, inspected⟩ := facts
  cases found with
  | none =>
    cases mode with
    | complete => exact completeAbsent_moves valid (unsaid.quiet quiet) owned
    | remove =>
      exact kept_moves valid owned.header inspected (fun _ impossible => by cases impossible)
        (abandon_quiet _ _ _)
  | some main =>
    dsimp only
    split
    · next matched =>
        exact desired_moves valid collisionFree owned.header inspected matched
          (resolveDesired_quiet _ _)
    · next unmatched =>
        refine kept_moves valid owned.header inspected ?_ (resolveOther_quiet _ _)
        rintro _ ⟨⟩
        exact unmatched

theorem completePrevious_moves (valid : plan.Valid reading) (unsaid : Unsaid world)
    (owned : Owned plan authority) (main : Inspected) (found : Option Inspected) :
    Keeps plan.Moves (completePrevious reading authority main found) world (Resolves plan) := by
  unfold completePrevious
  split
  · exact .throw
  · next reservation held =>
      cases found with
      | none => exact .throw
      | some output =>
        have previous : Calm (Quiet plan.Recorded)
            (requirePrevious authority.header main : Call B T D Unit) :=
          .ite (.pure _) (.fail _)
        have prepared : Calm (Quiet plan.Recorded)
            (requireOutput authority.header output : Call B T D Unit) :=
          step_calm.quiet.bind fun _ => .ite (.pure _) (.fail _)
        refine (Plan.quietly previous).bind fun _ first _ firstQuiet => ?_
        refine (Plan.quietly prepared).bind fun _ second _ secondQuiet => ?_
        refine (Plan.quietly step_calm.quiet).bind fun _ third _ thirdQuiet => ?_
        rw [owned.header]
        exact reports_resolves (completeWith_moves valid
          (((unsaid.quiet firstQuiet).quiet secondQuiet).quiet thirdQuiet)
          (owned.exact_ reservation held))

theorem relock_calm (exact_ : Option (Reservation T D)) :
    Calm Same (relock exact_ : Call B T D Unit) := by
  cases exact_ with
  | none => exact .pure _
  | some reservation => exact step_calm.bind fun _ => reservation_verify_calm reservation

theorem FoundAt.quiet {holds : Record T D → Prop}
    (inspected : FoundAt reading attempt .main world found) (quiet : Quiet holds world next) :
    FoundAt reading attempt .main next found where
  named := by rw [quiet.main, inspected.named]
  content := by rw [quiet.bytes]; exact inspected.content

theorem resolvePrevious_moves (valid : plan.Valid reading) (unsaid : Unsaid world)
    (owned : Owned plan authority) {main : Inspected}
    (inspected : FoundAt reading authority.header.attempt .main world (some main))
    (unmatched : main.content ≠ .desired) (found : Option Inspected) (mode : Mode) :
    Keeps plan.Moves (resolvePrevious reading authority main found mode) world
      (Resolves plan) := by
  cases mode with
  | complete => exact completePrevious_moves valid unsaid owned main found
  | remove =>
    refine kept_moves valid owned.header inspected ?_ ?_
    · rintro _ ⟨⟩
      exact unmatched
    · have previous : Calm (Quiet plan.Recorded)
          (requirePrevious authority.header main : Call B T D Unit) :=
        .ite (.pure _) (.fail _)
      exact (previous world).bind fun _ _ _ _ => resolveNotDesired_quiet _ _ _ _

theorem dispatchReplacement_moves (valid : plan.Valid reading)
    (collisionFree : plan.CollisionFree reading) (unsaid : Unsaid world)
    (owned : Owned plan authority) (mode : Mode) :
    Keeps plan.Moves (dispatchReplacement reading authority mode) world (Resolves plan) := by
  refine (Plan.quietly step_calm.quiet).bind fun _ first _ firstQuiet => ?_
  refine (moving ((inspectOne_same authority.header .main).weaken fun _ same =>
    same.quiet)).bind fun main second _ facts => ?_
  obtain ⟨secondQuiet, inspected⟩ := facts
  refine (Plan.quietly (Calm.of_keeps fun _ => inspectOne_same authority.header _).quiet).bind
    fun found third _ thirdQuiet => ?_
  refine (Plan.quietly (relock_calm _).quiet).bind fun _ fourth _ fourthQuiet => ?_
  have inspected := (inspected.quiet thirdQuiet).quiet fourthQuiet
  have unsaid : Unsaid fourth :=
    (((unsaid.quiet firstQuiet).quiet secondQuiet).quiet thirdQuiet).quiet fourthQuiet
  cases main with
  | none => exact .throw
  | some main =>
    dsimp only
    cases content : main.content with
    | previous =>
      exact resolvePrevious_moves valid unsaid owned inspected (by simp [content]) found mode
    | desired =>
      exact desired_moves valid collisionFree owned.header inspected content
        (resolveDesiredReplacement_quiet _ _ _ _)
    | other =>
      refine kept_moves valid owned.header inspected ?_ (resolveNotDesired_quiet _ _ _ _)
      rintro _ ⟨⟩
      simp [content]

end Dispatch

section Resolve

variable (mode : Mode) {supplied : Option (PublicationResult T D)}

section

variable (valid : plan.Valid reading) (collisionFree : plan.CollisionFree reading)
  (sound : plan.Sound world) (unsaid : Unsaid world)
  (own : ∀ result, supplied = some result → result.attempt = plan.output)

include valid collisionFree sound unsaid own

theorem resolveExact_moves :
    Keeps plan.Moves (resolveExact reading mode supplied) world (Resolves plan) := by
  refine (Plan.quietly step_calm.quiet).bind fun _ first _ firstQuiet => ?_
  refine (moving ((inspectAuthority_same _).weaken fun _ same => same.quiet)).bind
    fun authority second _ facts => ?_
  obtain ⟨secondQuiet, read⟩ := facts
  have recorded := ((sound.quiet firstQuiet).quiet secondQuiet).recorded
  have owned : Owned plan authority := by
    refine ⟨?_, fun reservation held => recorded.select (read.exact_ reservation held)⟩
    rcases read.header with given | chosen
    · obtain ⟨result, stored, same⟩ := Option.map_eq_some_iff.mp given
      rw [← same]
      exact own result stored
    · exact recorded.select chosen
  have unsaid : Unsaid second := (unsaid.quiet firstQuiet).quiet secondQuiet
  split
  · exact dispatchReplacement_moves valid collisionFree unsaid owned mode
  · exact dispatch_moves valid collisionFree unsaid owned mode

theorem resolve_moves :
    Keeps plan.Moves (resolve reading mode supplied) world fun reply reached =>
      ∀ result, reply = .result result → Resolves plan result reached := by
  refine (resolveExact_moves mode valid collisionFree sound unsaid own).outcomeOf.bind
    fun outcome reached _ facts => ?_
  cases outcome with
  | error problem =>
    refine .pure ?_
    rintro result ⟨⟩
  | ok result =>
    refine .pure ?_
    rintro _ ⟨⟩
    exact facts result rfl

end

theorem resolveExact_fresh (fresh : Fresh world) :
    Keeps Same (resolveExact reading mode none) world fun _ (_ : World B T D) => False := by
  refine step_same.bind fun _ first firstSame _ => ?_
  refine (inspectAuthority_same _).bind fun authority second secondSame read => ?_
  rcases read.header with given | chosen
  · cases given
  · rw [secondSame.record, firstSame.record, fresh.1] at chosen
    cases chosen

theorem resolve_fresh (fresh : Fresh world) :
    Keeps Same (resolve reading mode none) world fun reply (_ : World B T D) =>
      ∀ result, reply ≠ .result result := by
  refine (resolveExact_fresh mode fresh).outcomeOf.bind fun outcome reached _ impossible => ?_
  cases outcome with
  | error problem =>
    refine .pure ?_
    rintro result ⟨⟩
  | ok result => exact absurd rfl (impossible result)

end Resolve

end IpRange.Publication
