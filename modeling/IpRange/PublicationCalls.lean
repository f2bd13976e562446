import IpRange.PublicationSafety

/-!
The publication attempt and its resolutions as transitions of the destination:
what each call keeps, what the result it reports says of the main name, and when
a reported publication survives a power loss.
-/

set_option linter.unusedSectionVars false

namespace IpRange.Publication

variable {B T D : Type} (reading : Reading B T D)

structure Plan (B T D : Type) where
  before : Option Inode
  held : Inode → B
  desired : B
  output : Attempt T D

namespace Plan

structure Valid (plan : Plan B T D) : Prop where
  outputIdentity : plan.output.outputIdentity = .output
  reservationIdentity : plan.output.reservationIdentity = .reservation
  tuple : reading.openMeta plan.desired = some plan.output.tuple
  digest : plan.output.outputDigest = reading.digest plan.desired
  previous : plan.output.previous =
    plan.before.map fun inode => { identity := inode, digest := reading.digest (plan.held inode) }
  policy : plan.output.policy.isReplacement = plan.before.isSome
  foreign : plan.before ≠ some .output

def Recorded (plan : Plan B T D) (record : Record T D) : Prop :=
  (∀ block, record.block0 = some block → block.header = header plan.output) ∧
    ∀ block, record.block1 = some block → block.header = armed plan.output

/-- The main name holds, after any power loss, what it held before or the output; the
bytes of both are durable. -/
structure Sound (plan : Plan B T D) (world : World B T D) : Prop where
  output : world.bytes .output = plan.desired
  outputSynced : world.synced .output = true
  previous : ∀ inode, plan.before = some inode →
    world.bytes inode = plan.held inode ∧ world.synced inode = true
  recorded : plan.Recorded world.record
  entries : ∀ entry ∈ world.directory.entries .main, entry = plan.before ∨ entry = some .output
  touched : ∀ entry ∈ world.directory.touched .main, entry = plan.before

def Truthful (plan : Plan B T D) (world : World B T D) (result : PublicationResult T D) : Prop :=
  match result.publication with
  | .published => world.directory.names .main = some .output ∧ world.directory.touched .main = []
  | .notPublished => world.directory.names .main = plan.before
  | .outcomeUnknown => True

structure Standing (plan : Plan B T D) (world : World B T D) : Prop where
  sound : plan.Sound world
  told : ∀ result, world.observed.head? = some result → plan.Truthful world result
  own : ∀ result ∈ world.observed, result.attempt = plan.output

structure Waits (plan : Plan B T D) (observing : Bool) (world next : World B T D) : Prop
    extends Rests world next where
  standing : plan.Standing world → plan.Standing next
  observed : observing = false → next.observed = world.observed

def Moves (plan : Plan B T D) (world next : World B T D) : Prop :=
  plan.Standing world → plan.Standing next ∧
    (world.directory.names .main = plan.before ∨ Rests world next)

instance (plan : Plan B T D) (observing : Bool) :
    IsPreorder (World B T D) (plan.Waits observing) where
  refl world := ⟨.refl world, id, fun _ => rfl⟩
  trans _ _ _ first second :=
    ⟨first.toRests.trans second.toRests, fun standing => second.standing (first.standing standing),
      fun alone => (second.observed alone).trans (first.observed alone)⟩

instance (plan : Plan B T D) : IsPreorder (World B T D) plan.Moves where
  refl world standing := ⟨standing, .inr (.refl world)⟩
  trans _ _ _ first second standing := by
    obtain ⟨middle, firstMove⟩ := first standing
    obtain ⟨last, secondMove⟩ := second middle
    refine ⟨last, ?_⟩
    rcases firstMove with unmoved | firstRest
    · exact .inl unmoved
    · rcases secondMove with unmoved | secondRest
      · exact .inl (firstRest.main ▸ unmoved)
      · exact .inr (firstRest.trans secondRest)

variable {plan : Plan B T D} {world next : World B T D}

theorem Truthful.rests {result : PublicationResult T D} (truthful : plan.Truthful world result)
    (rests : Rests world next) : plan.Truthful next result := by
  unfold Truthful at truthful ⊢
  cases publication : result.publication with
  | published =>
    simp only [publication] at truthful ⊢
    refine ⟨by rw [rests.main, truthful.1], ?_⟩
    have nothing := rests.touched
    rw [truthful.2] at nothing
    exact List.subset_nil.mp nothing
  | notPublished =>
    simp only [publication] at truthful ⊢
    rw [rests.main, truthful]
  | outcomeUnknown => trivial

theorem Sound.quiet (sound : plan.Sound world) (quiet : Quiet plan.Recorded world next) :
    plan.Sound next where
  output := by rw [quiet.bytes, sound.output]
  outputSynced := quiet.synced _ sound.outputSynced
  previous inode found :=
    ⟨by rw [quiet.bytes, (sound.previous inode found).1],
      quiet.synced _ (sound.previous inode found).2⟩
  recorded := quiet.record sound.recorded
  entries entry found := sound.entries entry (quiet.entries found)
  touched entry found := sound.touched entry (quiet.touched found)

theorem waits_of_quiet (observing : Bool) (quiet : Quiet plan.Recorded world next) :
    plan.Waits observing world next where
  toRests := quiet.toRests
  standing standing :=
    { sound := standing.sound.quiet quiet
      told := by
        rw [quiet.observed]
        exact fun result latest => (standing.told result latest).rests quiet.toRests
      own := by rw [quiet.observed]; exact standing.own }
  observed _ := quiet.observed

theorem moves_of_waits {observing : Bool} (waits : plan.Waits observing world next) :
    plan.Moves world next :=
  fun standing => ⟨waits.standing standing, .inr waits.toRests⟩

theorem quietly {α : Type} {call : Call B T D α} (calm : Calm (Quiet plan.Recorded) call) :
    Keeps plan.Moves call world fun _ reached => Quiet plan.Recorded world reached :=
  ((calm world).mono fun _ _ quiet _ => quiet).weaken fun _ quiet =>
    moves_of_waits (waits_of_quiet false quiet)

end Plan

variable [DecidableEq T] [DecidableEq D]

section Reservation

variable {plan : Plan B T D} {world : World B T D}

theorem Plan.Recorded.sync {record : Record T D} (recorded : plan.Recorded record) :
    plan.Recorded record.sync := by
  constructor <;> intro block found
  · obtain ⟨kept, stored, rfl⟩ := Option.map_eq_some_iff.mp found
    exact recorded.1 kept stored
  · obtain ⟨kept, stored, rfl⟩ := Option.map_eq_some_iff.mp found
    exact recorded.2 kept stored

theorem verifyReservation_calm (output : Attempt T D) (header : Header T D)
    (reservation location : Location) :
    Calm Same (verifyReservation reading output header reservation location) :=
  .of_keeps fun _ => verifyReservation_same reading output header reservation location

theorem verifyMain_calm (output : Attempt T D) : Calm Same (verifyMain reading output) :=
  .of_keeps fun _ => verifyMain_same reading output

theorem verifyPrivate_calm (output : Attempt T D) : Calm Same (verifyPrivate reading output) :=
  .of_keeps fun _ => inspectExact_same reading _ .private_

theorem verifyDestinationBeforeMain_calm (output : Attempt T D) :
    Calm Same (verifyDestinationBeforeMain output : Call B T D Unit) :=
  .of_keeps fun _ => verifyDestinationBeforeMain_same output

variable {holds : Record T D → Prop}

theorem createDraft_quiet (output : Attempt T D) :
    Calm (Quiet holds) (createDraft reading output) :=
  (verifyPrivate_calm reading output).quiet.bind fun _ => create_quiet (by decide) _

theorem prepareHeader_calm (output : Attempt T D) : Calm Same (prepareHeader reading output) := by
  refine (verifyPrivate_calm reading output).bind fun _ => .ite ?_ ?_
  · exact (verifyDestinationBeforeMain_calm output).bind fun _ =>
      (verifyName_calm _ _).bind fun _ => step_calm
  · exact (verifyName_calm _ _).bind fun _ => step_calm

theorem syncRecord_quiet : Calm (Quiet plan.Recorded) (syncRecord : Call B T D Unit) :=
  record_quiet Record.sync fun _ => Plan.Recorded.sync

theorem writeBlock0_quiet :
    Calm (Quiet plan.Recorded) (writeBlock0 (header plan.output) : Call B T D Unit) := by
  refine record_quiet (fun record =>
    { record with block0 := some { header := header plan.output, synced := false } }) ?_
  refine fun record recorded => ⟨?_, recorded.2⟩
  rintro block ⟨⟩
  rfl

theorem writeBlock1_quiet :
    Calm (Quiet plan.Recorded) (writeBlock1 (armed plan.output) : Call B T D Unit) := by
  refine record_quiet (fun record =>
    { record with block1 := some { header := armed plan.output, synced := false } }) ?_
  refine fun record recorded => ⟨recorded.1, ?_⟩
  rintro block ⟨⟩
  rfl

theorem selectState1_quiet : Calm (Quiet plan.Recorded) (selectState1 reading plan.output) := by
  refine (prepareHeader_calm reading _).quiet.bind fun _ => Calm.bind ?_ fun _ =>
    (verifyReservation_calm reading _ _ _ _).quiet
  exact writeBlock0_quiet.bind fun _ => step_calm.quiet.bind fun _ => syncRecord_quiet

theorem beforeAcquire_calm (output : Attempt T D) (selected : Header T D) :
    Calm Same (beforeAcquire reading output selected) :=
  (verifyReservation_calm reading _ _ _ _).bind fun _ => step_calm

theorem afterRename_quiet (output : Attempt T D) (selected : Header T D) :
    Calm (Quiet holds) (do
      syncDirectory
      verifyReservation reading output selected .canonical .private_) :=
  (Calm.of_keeps fun _ => syncDirectory_quiet).bind fun _ =>
    (verifyReservation_calm reading _ _ _ _).quiet

theorem selectState2_quiet {selected : Header T D} (own : selected.attempt = plan.output) :
    Calm (Quiet plan.Recorded) (selectState2 reading plan.output selected) := by
  have target : selected.state2 = armed plan.output := by
    simp [Header.state2, armed, header, own]
  have rest : Calm (Quiet plan.Recorded) (do
      verifyReservation reading plan.output selected .canonical .private_
      verifyDestinationBeforeMain plan.output
      writeBlock1 selected.state2
      step
      syncRecord
      require (fun world : World B T D => world.record.select = some selected.state2)
        .headerChanged) := by
    refine (verifyReservation_calm reading _ _ _ _).quiet.bind fun _ => ?_
    refine (verifyDestinationBeforeMain_calm _).quiet.bind fun _ => ?_
    rw [target]
    refine writeBlock1_quiet.bind fun _ => step_calm.quiet.bind fun _ => ?_
    exact syncRecord_quiet.bind fun _ => (Calm.of_keeps fun _ => require_same _ _).quiet
  exact .ite ((Calm.fail _).bind fun _ => rest) rest

theorem resumeArmedReservation_calm (output : Attempt T D) (selected : Header T D) :
    Calm Same (resumeArmedReservation reading output selected) := by
  have rest := verifyReservation_calm reading output selected .canonical .private_
  exact .ite ((Calm.fail _).bind fun _ => rest) rest

end Reservation

section MainName

variable {reading} {plan : Plan B T D} {world : World B T D}

def Unsaid (world : World B T D) : Prop :=
  ∀ result, world.observed.head? = some result → result.publication = .outcomeUnknown

theorem changeMain_moves {made : Change Name Inode} (named : made.touches .main = true)
    (puts : made.run world.directory.names .main = some .output)
    (found : world.directory.names .main = plan.before) (unsaid : Unsaid world) :
    Keeps plan.Moves (change made : Call B T D Unit) world fun _ next =>
      next.directory.names .main = some .output := by
  refine keeps_perform (fun faults => ?_) (fun faults standing => ?_) fun faults => ?_
  · exact Plan.moves_of_waits (Plan.waits_of_quiet false (quiet_faults world faults))
  · refine ⟨⟨?_, fun result latest => ?_, standing.own⟩, .inl found⟩
    · refine { standing.sound with entries := ?_, touched := ?_ }
      · intro entry member
        rw [Directory.entries_perform, puts] at member
        rcases List.mem_append.mp member with earlier | last
        · exact standing.sound.entries entry earlier
        · exact .inr (List.mem_singleton.mp last)
      · intro entry member
        rw [Directory.touched_perform, if_pos named] at member
        rcases List.mem_append.mp member with earlier | last
        · exact standing.sound.touched entry earlier
        · rw [List.mem_singleton.mp last, found]
    · simp only [Plan.Truthful, unsaid result latest]
  · simpa using puts

theorem renameMain_moves (placed : world.directory.names .privateOutput = some .output)
    (found : world.directory.names .main = plan.before) (unsaid : Unsaid world) :
    Keeps plan.Moves (renameMain plan.output.policy : Call B T D Unit) world fun _ next =>
      next.directory.names .main = some .output := by
  have renamed : Keeps plan.Moves (change (.rename .privateOutput .main) : Call B T D Unit) world
      fun _ next => next.directory.names .main = some .output :=
    changeMain_moves rfl (by simp [Change.run, placed]) found unsaid
  unfold renameMain
  split
  · refine Keeps.get_bind ?_
    split
    · exact .throw
    · split
      · exact .throw
      · exact renamed
  · refine Keeps.get_bind ?_
    split
    · exact .throw
    · exact changeMain_moves rfl (by simp [Change.run, placed]) found unsaid
  · refine Keeps.get_bind ?_
    split
    · exact .throw
    · exact renamed

theorem previous_identity (valid : plan.Valid reading) :
    plan.output.previous.map Previous.identity = plan.before := by
  rw [valid.previous, Option.map_map]
  exact Option.map_id_fun' ▸ rfl

theorem synchronizeMain_quiet {holds : Record T D → Prop} :
    Keeps (Quiet holds) (synchronizeMain : Call B T D Unit) world fun _ next =>
      next.directory.touched .main = [] := by
  refine (Calm.of_keeps (fun _ => syncFile_quiet _) world).bind fun _ _ _ _ => ?_
  refine (step_calm.quiet _).bind fun _ _ _ _ => ?_
  refine syncDirectory_quiet.bind fun _ _ _ nothing => ?_
  refine (step_calm.quiet _).mono fun _ _ quiet _ => ?_
  exact List.subset_nil.mp (nothing ▸ quiet.touched)

theorem verifyBeforeMain_same (valid : plan.Valid reading) :
    Keeps Same (verifyBeforeMain reading plan.output) world fun _ next =>
      next.directory.names .privateOutput = some .output ∧
        next.directory.names .main = plan.before := by
  refine (verifyReservation_same reading _ _ .canonical .private_).bind fun _ next _ placed => ?_
  refine (verifyDestinationBeforeMain_same plan.output).mono fun _ reached same found => ?_
  rw [previous_identity valid] at found
  exact ⟨by rw [same.directory]; exact placed, found⟩

theorem proveMain_moves (valid : plan.Valid reading) (unsaid : Unsaid world) :
    Keeps plan.Moves (proveMain reading plan.output) world fun _ next =>
      next.directory.names .main = some .output ∧ next.directory.touched .main = [] := by
  have checked : Keeps plan.Moves (verifyBeforeMain reading plan.output) world fun _ next =>
      Unsaid next ∧ next.directory.names .privateOutput = some .output ∧
        next.directory.names .main = plan.before := by
    refine ((verifyBeforeMain_same valid).mono fun _ next same found => ?_).weaken
      fun _ same => Plan.moves_of_waits (Plan.waits_of_quiet false same.quiet)
    refine ⟨?_, found⟩
    unfold Unsaid
    rw [same.observed]
    exact unsaid
  refine checked.bind fun _ ready _ facts => ?_
  refine (renameMain_moves facts.2.1 facts.2.2 facts.1).bind fun _ renamed _ named => ?_
  refine (Plan.quietly step_calm.quiet).bind fun _ stepped _ quiet => ?_
  rw [← quiet.main] at named
  refine ((synchronizeMain_quiet.mono fun _ _ quiet nothing => And.intro quiet nothing).weaken
    fun _ quiet => Plan.moves_of_waits (Plan.waits_of_quiet false quiet)).bind
    fun _ synced _ facts => ?_
  rw [← facts.1.main] at named
  refine (Plan.quietly (Calm.bind step_calm.quiet fun _ =>
    (verifyMain_calm reading plan.output).quiet)).mono fun _ last _ quiet => ?_
  exact ⟨quiet.main.trans named, List.subset_nil.mp (facts.2 ▸ quiet.touched)⟩

end MainName

section Publisher

variable {reading} {plan : Plan B T D} {world : World B T D} {observing : Bool}

variable {holds : Record T D → Prop}

theorem unlinkPrevious_quiet (previous : Previous D) :
    Calm (Quiet holds) (unlinkPrevious previous : Call B T D Unit) := by
  refine (verifyPrivateOrRetired_calm previous).quiet.bind fun _ => ?_
  refine (regularLinkCount_calm _).quiet.bind fun links => ?_
  split
  · exact .pure _
  · refine (unlinkExact_quiet (by decide) _).bind fun unlinked => .ite ?_ (.fail _)
    refine (regularLinkCount_calm _).quiet.bind fun links => ?_
    split
    · exact step_calm.quiet
    · exact .fail _

theorem unlinkReservation_quiet : Calm (Quiet holds) (unlinkReservation : Call B T D Unit) := by
  refine (unlinkExact_quiet (by decide) _).bind fun unlinked => .ite ?_ (.fail _)
  refine (regularLinkCount_calm _).quiet.bind fun links => ?_
  split
  · exact .pure _
  · exact .fail _

theorem retireSteps_quiet (output : Attempt T D) :
    Calm (Quiet holds) (retireSteps reading output) := by
  refine (verifyMain_calm reading output).quiet.bind fun _ => ?_
  refine (verifyReservation_calm reading _ _ _ _).quiet.bind fun _ => ?_
  refine (Calm.forM fun previous => unlinkPrevious_quiet previous).bind fun _ => ?_
  refine unlinkReservation_quiet.bind fun _ => step_calm.quiet.bind fun _ => ?_
  refine (Calm.of_keeps fun _ => syncDirectory_quiet).bind fun _ => step_calm.quiet.bind fun _ => ?_
  refine step_calm.quiet.bind fun _ => (requireAbsent_calm _).quiet.bind fun _ => ?_
  exact Calm.forM fun previous => (verifyRetired_calm previous).quiet

def Reports (plan : Plan B T D) (world : World B T D) (result : PublicationResult T D) : Prop :=
  plan.Truthful world result ∧ result.attempt = plan.output

theorem unknown_reports (cause : Problem) :
    Reports plan world (outcomeUnknown plan.output cause) := ⟨trivial, rfl⟩

theorem finishPublished_quiet (cause : Option Problem)
    (proven : world.directory.names .main = some .output)
    (synced : world.directory.touched .main = []) :
    Keeps (Quiet plan.Recorded) (finishPublished reading plan.output cause) world fun result next =>
      Reports plan next result := by
  have reports : ∀ next, Quiet plan.Recorded world next → ∀ cleanup cause,
      Reports plan next (publishedResult plan.output cleanup cause) := by
    intro next quiet cleanup cause
    refine ⟨Plan.Truthful.rests ?_ quiet.toRests, rfl⟩
    exact ⟨proven, synced⟩
  refine ((retireSteps_quiet plan.output).outcomeOf world).bind fun outcome next quiet _ => ?_
  cases outcome with
  | error retirement => exact .pure (reports next quiet _ _)
  | ok _ =>
    refine ((verifyMain_calm reading plan.output).outcomeOf.quiet next).bind
      fun outcome last later _ => ?_
    have quiet := trans_of (Quiet plan.Recorded) quiet later
    cases outcome with
    | error retirement => exact .pure (reports last quiet _ _)
    | ok _ => exact .pure (reports last quiet _ _)

theorem observe_waits {result : PublicationResult T D} (reports : Reports plan world result) :
    Keeps (plan.Waits observing) (observe observing result) world fun _ next =>
      observing = true → next.observed.head? = some result := by
  unfold observe
  cases observing with
  | false => exact .pure fun impossible => by cases impossible
  | true =>
    refine ((step_calm.quiet world).weaken fun _ quiet =>
      Plan.waits_of_quiet true quiet).bind fun _ next waits _ => ?_
    refine Keeps.modify ?_ fun _ => rfl
    refine ⟨.of_directory rfl, fun standing => ?_, fun impossible => by cases impossible⟩
    refine ⟨{ standing.sound with }, ?_, ?_⟩
    · rintro told ⟨⟩
      exact reports.1.rests (waits.toRests.trans (.of_directory rfl))
    · rintro told member
      rcases List.mem_cons.mp member with latest | earlier
      · rw [latest, reports.2]
      · exact standing.own told earlier

theorem waits_calm {α : Type} {call : Call B T D α} (calm : Calm (Quiet plan.Recorded) call) :
    Calm (plan.Waits observing) call :=
  fun world => (calm world).weaken fun _ quiet => Plan.waits_of_quiet observing quiet

theorem fromArmed_moves (valid : plan.Valid reading) (unsaid : Unsaid world) :
    Keeps plan.Moves (fromArmed reading observing plan.output) world fun result next =>
      Reports plan next result := by
  refine (proveMain_moves valid unsaid).outcomeOf.bind fun outcome proven _ facts => ?_
  cases outcome with
  | error cause => exact .pure (unknown_reports cause)
  | ok _ =>
    obtain ⟨named, synced⟩ := facts _ rfl
    have told : Calm (plan.Waits observing) (do
        step
        verifyAfterMain reading plan.output) :=
      waits_calm (step_calm.quiet.bind fun _ => (verifyReservation_calm reading _ _ _ _).quiet)
    have announced : Keeps (plan.Waits observing) (do
        observe observing
          (interrupted plan.output true .published .desired [.privateReservation])
        step
        verifyAfterMain reading plan.output) proven fun _ _ => True := by
      have said : Reports plan proven
          (interrupted plan.output true .published .desired [.privateReservation]) :=
        ⟨⟨named, synced⟩, rfl⟩
      exact (observe_waits said).bind fun _ next _ _ => told next
    refine ((announced.outcomeOf.mono fun _ _ waits _ => waits).weaken
      fun _ => Plan.moves_of_waits).bind fun outcome next _ waits => ?_
    have named : next.directory.names .main = some .output := by rw [waits.main, named]
    have synced : next.directory.touched .main = [] :=
      List.subset_nil.mp (synced ▸ waits.touched)
    cases outcome <;>
      exact (finishPublished_quiet _ named synced).weaken fun _ quiet =>
        Plan.moves_of_waits (Plan.waits_of_quiet false quiet)

theorem notPublished_waits (reservation : ReservationLocation) (cause : Problem)
    (found : world.directory.names .main = plan.before) :
    Keeps plan.Moves (notPublished reading plan.output reservation cause) world fun reply next =>
      ∀ result, reply = .result result → Reports plan next result := by
  have unchanged : Calm (Quiet plan.Recorded) (previousUnchanged reading plan.output.previous) := by
    unfold previousUnchanged
    split
    · exact .pure _
    · exact (verifyContent_calm reading _).isOk.quiet
  refine (Plan.quietly unchanged).bind fun _ next _ quiet => ?_
  refine (Plan.quietly (discardOwners_quiet _ _)).bind fun _ last _ later => ?_
  refine .pure ?_
  rintro result ⟨⟩
  refine ⟨?_, rfl⟩
  show last.directory.names .main = plan.before
  rw [later.main, quiet.main, found]

theorem armedObserved_waits (alone : observing = false → Unsaid world) :
    Keeps (plan.Waits observing) (do
      observe observing (outcomeUnknown plan.output .io)
      step
      verifyReservation reading plan.output (armed plan.output) .canonical .private_) world
      fun _ next => Unsaid next := by
  refine (observe_waits (unknown_reports .io)).bind fun _ next waits said => ?_
  have rest : Calm Same (do
      step
      verifyReservation reading plan.output (armed plan.output) .canonical .private_) :=
    step_calm.bind fun _ => verifyReservation_calm reading _ _ _ _
  refine ((rest next).mono fun _ _ same _ => same).weaken (fun _ same =>
    Plan.waits_of_quiet observing same.quiet) |>.mono fun _ last _ same => ?_
  unfold Unsaid
  rw [same.observed]
  cases observing with
  | false =>
    rw [waits.observed rfl]
    exact alone rfl
  | true =>
    rw [said rfl]
    rintro result ⟨⟩
    rfl

theorem fromCanonical_moves (valid : plan.Valid reading)
    (found : world.directory.names .main = plan.before) (alone : observing = false → Unsaid world) :
    Keeps plan.Moves (fromCanonical reading observing plan.output) world fun reply next =>
      ∀ result, reply = .result result → Reports plan next result := by
  have unchanged : Calm (Quiet plan.Recorded) (do
      step
      verifyPrevious reading plan.output.previous) := by
    refine step_calm.quiet.bind fun _ => ?_
    unfold verifyPrevious
    split
    · exact .pure _
    · exact (verifyContent_calm reading _).quiet
  refine (Plan.quietly unchanged.outcomeOf).bind fun outcome first _ quiet => ?_
  have found : first.directory.names .main = plan.before := by rw [quiet.main, found]
  have alone : observing = false → Unsaid first := by
    unfold Unsaid
    rw [quiet.observed]
    exact alone
  cases outcome with
  | error cause => exact notPublished_waits _ _ found
  | ok _ =>
    refine (Plan.quietly (selectState2_quiet reading rfl).outcomeOf).bind
      fun outcome second _ quiet => ?_
    have found : second.directory.names .main = plan.before := by rw [quiet.main, found]
    have alone : observing = false → Unsaid second := by
      unfold Unsaid
      rw [quiet.observed]
      exact alone
    cases outcome with
    | error cause => exact notPublished_waits _ _ found
    | ok _ =>
      refine ((armedObserved_waits alone).outcomeOf.mono fun _ _ waits said =>
        And.intro waits said).weaken (fun _ => Plan.moves_of_waits) |>.bind
        fun outcome third _ facts => ?_
      cases outcome with
      | error cause =>
        refine .pure ?_
        rintro result ⟨⟩
        exact unknown_reports cause
      | ok _ =>
        refine Keeps.bind (fromArmed_moves valid (facts.2 _ rfl)) fun result last _ reports => ?_
        refine .pure ?_
        rintro _ ⟨⟩
        exact reports

theorem early_reports {content : DestinationContent} {kinds : List ArtifactKind}
    (found : world.directory.names .main = plan.before) :
    Reports plan world (interrupted plan.output false .notPublished content kinds) := ⟨found, rfl⟩

theorem waiting {α : Type} {call : Call B T D α} {post : α → World B T D → Prop}
    (run : Keeps (plan.Waits observing) call world post) :
    Keeps plan.Moves (outcomeOf call) world fun _ next => plan.Waits observing world next :=
  (run.outcomeOf.mono fun _ _ waits _ => waits).weaken fun _ => Plan.moves_of_waits

theorem Plan.Waits.unsaid {next : World B T D} (waits : plan.Waits observing world next)
    (alone : observing = false → Unsaid world) : observing = false → Unsaid next := by
  intro unobserved
  unfold Unsaid
  rw [waits.observed unobserved]
  exact alone unobserved

theorem acquire_waits (found : world.directory.names .main = plan.before) :
    Keeps (plan.Waits observing) (do
      beforeAcquire reading plan.output (header plan.output)
      acquireCanonical reading plan.output (header plan.output)
        (observe observing (interrupted plan.output false .notPublished .unclassified
          [.privateOutput, .privateReservation]))) world fun _ _ => True := by
  refine (waits_calm (beforeAcquire_calm reading _ _).quiet world).bind fun _ first waits _ => ?_
  refine (waits_calm renameReservation_quiet first).bind fun _ second later _ => ?_
  have found : second.directory.names .main = plan.before := by rw [later.main, waits.main, found]
  refine (observe_waits (early_reports found)).bind fun _ third _ _ => ?_
  exact waits_calm (afterRename_quiet reading _ _) third

theorem fromPrivate_moves (valid : plan.Valid reading)
    (found : world.directory.names .main = plan.before) (alone : observing = false → Unsaid world) :
    Keeps plan.Moves (fromPrivate reading observing plan.output) world fun reply next =>
      ∀ result, reply = .result result → Reports plan next result := by
  refine (waiting (acquire_waits found)).bind fun outcome next _ waits => ?_
  have found : next.directory.names .main = plan.before := by rw [waits.main, found]
  cases outcome with
  | error cause => exact notPublished_waits _ _ found
  | ok _ => exact fromCanonical_moves valid found (waits.unsaid alone)

theorem preparation_moves (reservation : Option ReservationLocation) (cause : Problem) :
    Keeps plan.Moves (preparation reservation cause : Call B T D (Reply T D)) world
      fun reply next => ∀ result, reply = .result result → Reports plan next result := by
  refine (Plan.quietly (discardOwners_quiet _ _)).bind fun _ _ _ _ => .pure ?_
  rintro result ⟨⟩

theorem publishWithObserver_moves (valid : plan.Valid reading)
    (found : world.directory.names .main = plan.before) (alone : Unsaid world) :
    Keeps plan.Moves (publishWithObserver reading observing plan.output) world fun reply next =>
      ∀ result, reply = .result result → Reports plan next result := by
  refine (Plan.quietly (createDraft_quiet reading plan.output).outcomeOf).bind
    fun outcome first _ created => ?_
  cases outcome with
  | error cause => exact preparation_moves _ _
  | ok _ =>
    have selected : Calm (Quiet plan.Recorded) (do step; selectState1 reading plan.output) :=
      step_calm.quiet.bind fun _ => selectState1_quiet reading
    refine (Plan.quietly selected.outcomeOf).bind fun outcome second _ written => ?_
    cases outcome with
    | error cause => exact preparation_moves _ _
    | ok _ =>
      have found : second.directory.names .main = plan.before := by
        rw [written.main, created.main, found]
      have alone : observing = false → Unsaid second := by
        intro _
        unfold Unsaid
        rw [written.observed, created.observed]
        exact alone
      have told : Keeps (plan.Waits observing) (do
          observe observing (interrupted plan.output false .notPublished .unclassified
            [.privateOutput, .privateReservation])
          step
          step
          verifyReservation reading plan.output (header plan.output) .private_ .private_)
          second fun _ _ => True :=
        (observe_waits (early_reports found)).bind fun _ next _ _ =>
          waits_calm (step_calm.quiet.bind fun _ => step_calm.quiet.bind fun _ =>
            (verifyReservation_calm reading _ _ _ _).quiet) next
      refine (waiting told).bind fun outcome third _ waits => ?_
      have found : third.directory.names .main = plan.before := by rw [waits.main, found]
      cases outcome with
      | error cause => exact notPublished_waits _ _ found
      | ok _ => exact fromPrivate_moves valid found (waits.unsaid alone)

end Publisher

section Attempt

variable {holds : Record T D → Prop} {world : World B T D}

theorem createOutput_quiet (policy : Policy) :
    Keeps (Quiet holds) (createOutput policy : Call B T D Unit) world fun _ next =>
      policy = .failIfExists → next.directory.names .main = none := by
  refine (step_calm.quiet world).bind fun _ first _ _ => ?_
  by_cases exclusive : policy = .failIfExists
  · simp only [if_pos exclusive]
    refine ((requireAbsent_same .main).weaken fun _ same => same.quiet).bind
      fun _ second _ absent => ?_
    refine ((requireAbsent_calm .coordination).quiet second).bind fun _ third quiet _ => ?_
    refine (create_quiet (by decide) _ third).mono fun _ last later _ _ => ?_
    rw [later.main, quiet.main, absent]
  · simp only [if_neg exclusive]
    exact (create_quiet (by decide) _ first).mono fun _ _ _ _ impossible =>
      absurd impossible exclusive

theorem discardOne_quiet : Calm (Quiet holds) (discardOne : Call B T D Unit) := by
  refine (remove_quiet _ (by decide)).outcomeOf.bind fun outcome => ?_
  cases outcome with
  | error problem => exact .pure _
  | ok _ =>
    refine Calm.bind (Calm.outcomeOf ?_) fun _ => .pure _
    exact (Calm.of_keeps fun _ => syncDirectory_quiet).bind fun _ =>
      step_calm.quiet.bind fun _ => (regularLinkCount_calm _).quiet

theorem prepare_quiet (tuple : T) :
    Keeps (Quiet holds) (prepare reading tuple) world fun digest next =>
      digest = reading.digest (next.bytes .output) ∧ next.synced .output = true ∧
        reading.openMeta (next.bytes .output) = some tuple := by
  refine ((verifyName_calm _ _).quiet world).bind fun _ first _ _ => ?_
  refine (step_calm.quiet first).bind fun _ second _ _ => ?_
  refine ((Calm.of_keeps fun _ => inspectExact_same reading tuple .private_).quiet second).bind
    fun _ third _ _ => Keeps.get_bind ?_
  refine (syncFile_quiet .output).bind fun _ fourth synced stored => ?_
  refine (step_calm.quiet fourth).bind fun _ fifth stepped _ => ?_
  refine ((inspectExact_same reading tuple .private_).weaken fun _ same => same.quiet).bind
    fun _ last inspected exact_ => .pure ?_
  refine ⟨?_, inspected.synced _ (stepped.synced _ stored), exact_.2⟩
  rw [inspected.bytes, stepped.bytes, synced.bytes]

theorem openPrevious_quiet :
    Keeps (Quiet holds) (openPrevious reading) world fun previous next =>
      next.directory.names .main = some previous.identity ∧
        previous.digest = reading.digest (next.bytes previous.identity) ∧
        next.synced previous.identity = true ∧ previous.identity ≠ .output := by
  refine (step_calm.quiet world).bind fun _ first _ _ => ?_
  refine ((requireAbsent_calm _).quiet first).bind fun _ second _ _ => ?_
  refine ((openRegular_same .main).weaken fun _ same => same.quiet).bind fun found third _ _ => ?_
  cases found with
  | none => exact .throw
  | some identity =>
    by_cases own : identity = .output
    · simp only [if_pos own]
      exact .throw
    · simp only [if_neg own]
      refine (step_calm.quiet third).bind fun _ fourth _ _ => ?_
      refine ((verifyName_calm _ _).quiet fourth).bind fun _ fifth _ _ => ?_
      refine (syncFile_quiet identity).bind fun _ sixth _ stored => ?_
      refine (step_calm.quiet sixth).bind fun _ seventh stepped _ => Keeps.get_bind ?_
      refine ((verifyName_same .main identity).weaken fun _ same => same.quiet).bind
        fun _ last verified named => .pure ?_
      exact ⟨named, by rw [verified.bytes], verified.synced _ (stepped.synced _ stored), own⟩

def Plan.of (world : World B T D) (policy : Policy) (desired : B) (tuple : T) : Plan B T D where
  before := world.directory.names .main
  held := world.bytes
  desired := desired
  output := preparedOutput policy tuple (reading.digest desired)
    ((world.directory.names .main).map fun inode =>
      { identity := inode, digest := reading.digest (world.bytes inode) })

def Fresh (world : World B T D) : Prop :=
  world.record = { block0 := none, block1 := none } ∧ world.observed = []

structure Prepared (plan : Plan B T D) (output : Attempt T D) (world : World B T D) : Prop where
  valid : plan.Valid reading
  output : output = plan.output
  standing : plan.Standing world
  found : world.directory.names .main = plan.before
  fresh : Fresh world

structure Initial (world : World B T D) : Prop where
  settled : world.directory.pending = []
  foreign : world.directory.names .main ≠ some .output
  fresh : Fresh world

def KeepsFresh (world next : World B T D) : Prop := Fresh world → Fresh next

instance : IsPreorder (World B T D) KeepsFresh where
  refl _ := id
  trans _ _ _ first second fresh := second (first fresh)

def Blank (record : Record T D) : Prop := record = { block0 := none, block1 := none }

theorem keepsFresh_of_quiet {next : World B T D} (quiet : Quiet Blank world next) :
    KeepsFresh world next :=
  fun fresh => ⟨quiet.record fresh.1, quiet.observed.trans fresh.2⟩

theorem freshly {α : Type} {call : Call B T D α} {post : α → World B T D → Prop}
    (run : Keeps (Quiet Blank) call world post) :
    Keeps KeepsFresh call world fun value next => Quiet Blank world next ∧ post value next :=
  (run.mono fun _ _ quiet holds => And.intro quiet holds).weaken fun _ => keepsFresh_of_quiet

theorem writeOutput_keepsFresh (desired : B) :
    Keeps KeepsFresh (writeOutput desired : Call B T D Unit) world fun _ next =>
      next.directory = world.directory ∧ next.bytes = Function.update world.bytes .output desired ∧
        Fresh next = Fresh world :=
  keeps_perform (fun _ => id) (fun _ => id) fun _ => ⟨rfl, rfl, rfl⟩

variable {reading} {policy : Policy} {observing : Bool} {desired : B} {tuple : T}

theorem bindPrevious_quiet :
    Keeps (Quiet holds) (bindPrevious reading policy) world fun previous next =>
      (policy.isReplacement = false → previous = none) ∧
        (policy.isReplacement = true → ∃ found, previous = some found ∧
          next.directory.names .main = some found.identity ∧
          found.digest = reading.digest (next.bytes found.identity) ∧
          next.synced found.identity = true) := by
  unfold bindPrevious
  cases replacing : policy.isReplacement with
  | false => exact .pure ⟨fun _ => rfl, fun impossible => by cases impossible⟩
  | true =>
    refine Keeps.bind (openPrevious_quiet reading) fun previous next _ facts => .pure ?_
    exact ⟨fun impossible => (by cases impossible),
      fun _ => ⟨previous, rfl, facts.1, facts.2.1, facts.2.2.1⟩⟩

variable (policy observing desired tuple)

variable {start : World B T D} {plan : Plan B T D}

theorem Initial.entries (initial : Initial start) :
    start.directory.entries .main = [start.directory.names .main] := by
  simp [Directory.entries, Directory.names, Directory.entriesAlong, initial.settled]

theorem Initial.touched (initial : Initial start) : start.directory.touched .main = [] := by
  simp [Directory.touched, Directory.touchedAlong, initial.settled]

theorem standing_of_rests (initial : Initial start)
    (before : plan.before = start.directory.names .main) (rests : Rests start world)
    (output : world.bytes .output = plan.desired) (outputSynced : world.synced .output = true)
    (previous : ∀ inode, plan.before = some inode →
      world.bytes inode = plan.held inode ∧ world.synced inode = true) (fresh : Fresh world) :
    plan.Standing world where
  sound :=
    { output, outputSynced, previous
      recorded := by
        rw [fresh.1]
        constructor <;> intro block impossible <;> cases impossible
      entries := by
        intro entry member
        have held := rests.entries member
        rw [initial.entries] at held
        exact .inl ((List.mem_singleton.mp held).trans before.symm)
      touched := by
        intro entry member
        have held := rests.touched member
        rw [initial.touched] at held
        cases held }
  told := by rw [fresh.2]; exact fun _ impossible => by cases impossible
  own := by rw [fresh.2]; exact fun _ impossible => by cases impossible

theorem prepareAll_keepsFresh (initial : Initial start) (created : Quiet Blank start world)
    (absent : policy = .failIfExists → world.directory.names .main = none) :
    Keeps KeepsFresh (prepareAll reading policy desired tuple) world fun output next =>
      Prepared reading (Plan.of reading start policy desired tuple) output next := by
  have fresh : Fresh world := keepsFresh_of_quiet created initial.fresh
  refine (writeOutput_keepsFresh desired).bind fun _ written wroteFresh wrote => ?_
  refine (freshly (prepare_quiet reading tuple)).bind fun digest prepared preparedFresh facts => ?_
  obtain ⟨preparedQuiet, digestEq, outputSynced, readable⟩ := facts
  refine (freshly bindPrevious_quiet).bind fun previous bound boundFresh facts => .pure ?_
  obtain ⟨boundQuiet, unbound, rebound⟩ := facts
  have rests : Rests start bound :=
    (created.toRests.trans (.of_directory wrote.1)).trans
      (preparedQuiet.toRests.trans boundQuiet.toRests)
  have bytes : bound.bytes = Function.update start.bytes .output desired := by
    rw [boundQuiet.bytes, preparedQuiet.bytes, wrote.2.1, created.bytes]
  have output : bound.bytes .output = desired := by simp [bytes]
  have outputDigest : digest = reading.digest desired := by
    rw [digestEq, ← boundQuiet.bytes, output]
  have boundFresh : Fresh bound := boundFresh (preparedFresh (wroteFresh fresh))
  have tuple_eq : reading.openMeta desired = some tuple := by
    rw [← output, boundQuiet.bytes, readable]
  cases replacing : policy.isReplacement with
  | false =>
    have exclusive : policy = .failIfExists := by
      cases policy <;> simp_all [Policy.isReplacement]
    have none_before : start.directory.names .main = none := by
      rw [← created.main]
      exact absent exclusive
    have none_previous := unbound replacing
    refine ⟨⟨rfl, rfl, tuple_eq, rfl, rfl, ?_, initial.foreign⟩, ?_, ?_, rests.main, boundFresh⟩
    · simp [Plan.of, preparedOutput, replacing, none_before]
    · simp [Plan.of, outputDigest, none_previous, none_before]
    · refine standing_of_rests initial rfl rests output (boundQuiet.synced _ outputSynced) ?_
        boundFresh
      intro inode found
      rw [show (Plan.of reading start policy desired tuple).before = none from none_before]
        at found
      cases found
  | true =>
    obtain ⟨found, rfl, named, foundDigest, foundSynced⟩ := rebound replacing
    have before : start.directory.names .main = some found.identity := by
      rw [← rests.main, named]
    have foreign : found.identity ≠ .output := by
      intro own
      exact initial.foreign (own ▸ before)
    have kept : bound.bytes found.identity = start.bytes found.identity := by
      simp [bytes, foreign]
    refine ⟨⟨rfl, rfl, tuple_eq, rfl, rfl, ?_, initial.foreign⟩, ?_, ?_, rests.main, boundFresh⟩
    · simp [Plan.of, preparedOutput, replacing, before]
    · simp [Plan.of, outputDigest, before, ← kept, ← foundDigest]
    · refine standing_of_rests initial rfl rests output (boundQuiet.synced _ outputSynced) ?_
        boundFresh
      intro inode at_main
      have same : found.identity = inode := by
        rw [show (Plan.of reading start policy desired tuple).before = some found.identity from
          before] at at_main
        exact Option.some.inj at_main
      subst same
      exact ⟨kept, foundSynced⟩

/-- The attempt either leaves no record of itself and claims nothing, or the destination
stands as planned and every result says what holds. -/
def Closed (reading : Reading B T D) (plan : Plan B T D) (world : World B T D) : Prop :=
  Fresh world ∨ plan.Valid reading ∧ plan.Standing world

def Closes (reading : Reading B T D) (plan : Plan B T D) (world next : World B T D) : Prop :=
  Closed reading plan world → Closed reading plan next

instance (plan : Plan B T D) : IsPreorder (World B T D) (Closes reading plan) where
  refl _ := id
  trans _ _ _ first second closed := second (first closed)

theorem closes_of_keepsFresh {next : World B T D} (fresh : Fresh world)
    (kept : KeepsFresh world next) : Closes reading plan world next :=
  fun _ => .inl (kept fresh)

theorem refusing {α : Type} {call : Call B T D α} (fresh : Fresh world)
    (calm : Calm (Quiet Blank) call) (cause : Problem) :
    Keeps (Closes reading plan) (do let _ ← call; pure (Reply.refused cause)) world
      fun reply next => ∀ result, reply = .result result →
        plan.Valid reading ∧ plan.Standing next ∧ Reports plan next result := by
  refine ((calm world).weaken fun _ quiet =>
    closes_of_keepsFresh fresh (keepsFresh_of_quiet quiet)).bind fun _ _ _ _ => .pure ?_
  rintro result ⟨⟩

theorem publishPrepared_closes (initial : Initial start) (created : Quiet Blank start world)
    (absent : policy = .failIfExists → world.directory.names .main = none) :
    let plan := Plan.of reading start policy desired tuple
    Keeps (Closes reading plan) (publishPrepared reading policy observing desired tuple) world
      fun reply next => ∀ result, reply = .result result →
        plan.Valid reading ∧ plan.Standing next ∧ Reports plan next result := by
  intro plan
  have fresh : Fresh world := keepsFresh_of_quiet created initial.fresh
  refine ((prepareAll_keepsFresh policy desired tuple initial created absent).outcomeOf.mono
    fun _ next kept facts => And.intro (kept fresh) facts).weaken
    (fun _ => closes_of_keepsFresh fresh) |>.bind fun outcome next _ facts => ?_
  cases outcome with
  | error cause => exact refusing facts.1 discardOne_quiet cause
  | ok output =>
    obtain ⟨valid, rfl, standing, found, fresh⟩ := facts.2 output rfl
    have unsaid : Unsaid next := by
      unfold Unsaid
      rw [fresh.2]
      exact fun _ impossible => by cases impossible
    refine ((publishWithObserver_moves valid found unsaid).mono
      fun reply last moves reports result reported => ?_).weaken
      fun last moves _ => .inr ⟨valid, (moves standing).1⟩
    exact ⟨valid, (moves standing).1, reports result reported⟩

theorem publish_closes (initial : Initial start) :
    let plan := Plan.of reading start policy desired tuple
    Keeps (Closes reading plan) (publish reading policy observing desired tuple) start
      fun reply next => ∀ result, reply = .result result →
        plan.Valid reading ∧ plan.Standing next ∧ Reports plan next result := by
  intro plan
  refine ((createOutput_quiet policy).outcomeOf.mono fun _ next quiet facts =>
    And.intro quiet facts).weaken (fun _ quiet => closes_of_keepsFresh initial.fresh
      (keepsFresh_of_quiet quiet)) |>.bind fun outcome next _ facts => ?_
  obtain ⟨created, absent⟩ := facts
  have fresh : Fresh next := keepsFresh_of_quiet created initial.fresh
  cases outcome with
  | error cause =>
    refine .pure ?_
    rintro result ⟨⟩
  | ok _ =>
    refine (((verifyName_calm _ _).outcomeOf.quiet next).mono fun _ _ quiet _ => quiet).weaken
      (fun _ quiet => closes_of_keepsFresh fresh (keepsFresh_of_quiet quiet)) |>.bind
      fun outcome last _ verified => ?_
    cases outcome with
    | error cause =>
      exact refusing (keepsFresh_of_quiet verified fresh) discardOne_quiet cause
    | ok _ =>
      refine publishPrepared_closes policy observing desired tuple initial
        (trans_of (Quiet Blank) created verified) fun exclusive => ?_
      rw [verified.main]
      exact absent () rfl exclusive

end Attempt

end IpRange.Publication
