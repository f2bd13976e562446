import IpRange.PublicationResolutions

/-!
Whole histories of one publication attempt: the attempt itself, then any
sequence of resolutions and power losses, each call ending wherever its faults
say. A reported publication outlives every later event exactly when no change of
the main name was still waiting for a directory sync.
-/

set_option linter.unusedSectionVars false

namespace IpRange.Publication

variable {B T D : Type} [DecidableEq T] [DecidableEq D]

structure Session (B T D : Type) where
  world : World B T D
  results : List (PublicationResult T D)
  reported : Option (PublicationResult T D)

/-- What may happen after the attempt. A caller may hand back any result it holds. -/
inductive Event (B : Type) where
  | resolve (mode : Mode) (supplied : Option Nat) (faults : List Fault)
  | powerLoss (kept : Nat) (torn : Inode → B) (lost0 lost1 : Bool)

def World.start (names : Name → Option Nat) (bytes : Inode → B) (synced : Inode → Bool) :
    World B T D where
  directory := { durable := fun name => (names name).map Inode.other, pending := [] }
  bytes := bytes
  synced := synced
  record := { block0 := none, block1 := none }
  faults := []
  observed := []

def World.lose (world : World B T D) (kept : Nat) (torn : Inode → B) (lost0 lost1 : Bool) :
    World B T D :=
  { world with
    directory := world.directory.lose kept
    bytes := fun inode => if world.synced inode then world.bytes inode else torn inode
    synced := fun _ => true
    record := (world.record.lose lost0 lost1).sync }

namespace Session

def call (session : Session B T D) (program : Call B T D (Reply T D)) (faults : List Fault) :
    Session B T D :=
  match program { session.world with faults, observed := [] } with
  | .ok (.result result) world =>
    { world, results := result :: (world.observed ++ session.results), reported := some result }
  | .ok (.refused _) world =>
    { world, results := world.observed ++ session.results, reported := none }
  | .error _ world =>
    { world, results := world.observed ++ session.results, reported := world.observed.head? }

def step (reading : Reading B T D) (session : Session B T D) : Event B → Session B T D
  | .resolve mode supplied faults =>
    session.call (resolve reading mode (supplied.bind fun index => session.results[index]?)) faults
  | .powerLoss kept torn lost0 lost1 =>
    { session with world := session.world.lose kept torn lost0 lost1, reported := none }

def run (reading : Reading B T D) (session : Session B T D) (events : List (Event B)) :
    Session B T D :=
  events.foldl (step reading) session

def publish (reading : Reading B T D) (world : World B T D) (policy : Policy) (observing : Bool)
    (desired : B) (tuple : T) (faults : List Fault) : Session B T D :=
  call { world, results := [], reported := none }
    (Publication.publish reading policy observing desired tuple) faults

end Session

variable {reading : Reading B T D} {plan : Plan B T D} {session : Session B T D}

structure Stands (plan : Plan B T D) (session : Session B T D) : Prop where
  sound : plan.Sound session.world
  own : ∀ result ∈ session.results, result.attempt = plan.output

def Tracks (reading : Reading B T D) (plan : Plan B T D) (session : Session B T D) : Prop :=
  session.world.record = { block0 := none, block1 := none } ∧ session.results = [] ∧
      session.reported = none ∨
    plan.Valid reading ∧ Stands plan session

def Honest (plan : Plan B T D) (session : Session B T D) : Prop :=
  ∀ result, session.reported = some result → Says plan session.world result

theorem standing_start (sound : plan.Sound session.world) (faults : List Fault) :
    plan.Standing { session.world with faults, observed := [] } where
  sound := { sound with }
  told := fun _ impossible => by cases impossible
  own := fun _ impossible => by cases impossible

section Calls

variable {program : Call B T D (Reply T D)} (faults : List Fault)

theorem call_stands {faults : List Fault}
    (own : ∀ result ∈ session.results, result.attempt = plan.output)
    (run : Keeps (fun _ next => plan.Standing next) program
      { session.world with faults, observed := [] }
      fun reply next => ∀ result, reply = .result result → Says plan next result) :
    Stands plan (session.call program faults) ∧ Honest plan (session.call program faults) := by
  have results : ∀ world : World B T D, plan.Standing world →
      ∀ result ∈ world.observed ++ session.results, result.attempt = plan.output := by
    intro world standing result member
    rcases List.mem_append.mp member with told | earlier
    · exact standing.own result told
    · exact own result earlier
  unfold Keeps at run
  unfold Session.call
  cases outcome : program { session.world with faults, observed := [] } with
  | ok reply world =>
    rw [outcome] at run
    obtain ⟨standing, claimed⟩ := run
    cases reply with
    | result result =>
      have said := claimed result rfl
      refine ⟨⟨standing.sound, ?_⟩, ?_⟩
      · intro held member
        rcases List.mem_cons.mp member with latest | earlier
        · rw [latest, said.1]
        · exact results world standing held earlier
      · rintro _ ⟨⟩
        exact said
    | refused problem =>
      exact ⟨⟨standing.sound, results world standing⟩,
        fun _ impossible => by cases impossible⟩
  | error stop world =>
    rw [outcome] at run
    refine ⟨⟨run.sound, results world run⟩, fun result told => ?_⟩
    have own := run.own result (List.mem_of_mem_head? told)
    exact Reports.holds ⟨run.told result told, own⟩ run.sound

theorem call_relates {faults : List Fault} {relation : World B T D → World B T D → Prop}
    {post : Reply T D → World B T D → Prop}
    (run : Keeps relation program { session.world with faults, observed := [] } post) :
    relation { session.world with faults, observed := [] } (session.call program faults).world := by
  unfold Keeps at run
  unfold Session.call
  cases outcome : program { session.world with faults, observed := [] } with
  | ok reply world =>
    rw [outcome] at run
    cases reply <;> exact run.1
  | error stop world =>
    rw [outcome] at run
    exact run

theorem resolve_stands (collisionFree : plan.CollisionFree reading) (valid : plan.Valid reading)
    (stands : Stands plan session) (mode : Mode) (supplied : Option Nat) :
    Stands plan (session.step reading (.resolve mode supplied faults)) ∧
      Honest plan (session.step reading (.resolve mode supplied faults)) ∧
      (session.world.directory.names .main = plan.before ∨
        Rests session.world (session.step reading (.resolve mode supplied faults)).world) := by
  have standing := standing_start stands.sound faults
  have unsaid : Unsaid { session.world with faults, observed := [] } :=
    fun _ impossible => by cases impossible
  have supplies : ∀ result, (supplied.bind fun index => session.results[index]?) = some result →
      result.attempt = plan.output := by
    intro result held
    obtain ⟨index, _, stored⟩ := Option.bind_eq_some_iff.mp held
    exact stands.own result (List.mem_of_getElem? stored)
  have resolved := resolve_moves mode valid collisionFree standing.sound unsaid supplies
  have kept := call_stands stands.own ((resolved.mono fun _ _ moves facts result reported =>
    facts result reported (moves standing).1.sound).weaken fun _ moves => (moves standing).1)
  refine ⟨kept.1, kept.2, ?_⟩
  rcases (call_relates resolved standing).2 with unmoved | rests
  · exact .inl unmoved
  · have start : Rests session.world { session.world with faults, observed := [] } :=
      .of_directory rfl
    exact .inr (start.trans rests)

theorem resolve_untracked (blank : session.world.record = { block0 := none, block1 := none })
    (none_held : session.results = []) (mode : Mode) (supplied : Option Nat) :
    let next := session.step reading (.resolve mode supplied faults)
    next.world.record = { block0 := none, block1 := none } ∧ next.results = [] ∧
      next.reported = none := by
  intro next
  have unsupplied : (supplied.bind fun index => session.results[index]?) = none := by
    rw [none_held]
    cases supplied <;> rfl
  have fresh : Fresh { session.world with faults, observed := [] } := ⟨blank, rfl⟩
  have refused := @resolve_fresh _ _ _ _ _ reading _ mode fresh
  have step : next = session.call (resolve reading mode none) faults := by
    show session.call _ faults = _
    rw [unsupplied]
  rw [step]
  unfold Keeps at refused
  unfold Session.call
  cases outcome : resolve reading mode none { session.world with faults, observed := [] } with
  | ok reply world =>
    rw [outcome] at refused
    obtain ⟨same, unreported⟩ := refused
    cases reply with
    | result result => exact absurd rfl (unreported result)
    | refused problem =>
      refine ⟨by rw [same.record]; exact blank, ?_, rfl⟩
      simp [same.observed, none_held]
  | error stop world =>
    rw [outcome] at refused
    refine ⟨by rw [refused.record]; exact blank, ?_, ?_⟩
    · simp [refused.observed, none_held]
    · simp [refused.observed]

end Calls

section PowerLoss

variable (kept : Nat) (torn : Inode → B) (lost0 lost1 : Bool)

theorem Plan.Recorded.lose {record : Record T D} (recorded : plan.Recorded record) :
    plan.Recorded (record.lose lost0 lost1).sync := by
  refine Plan.Recorded.sync ⟨fun block found => ?_, fun block found => ?_⟩
  · exact recorded.1 block (Option.filter_eq_some_iff.mp found).1
  · exact recorded.2 block (Option.filter_eq_some_iff.mp found).1

theorem lose_sound {world : World B T D} (sound : plan.Sound world) :
    plan.Sound (world.lose kept torn lost0 lost1) where
  output := by simp [World.lose, sound.outputSynced, sound.output]
  outputSynced := rfl
  previous inode found := by
    simp [World.lose, (sound.previous inode found).2, (sound.previous inode found).1]
  recorded := sound.recorded.lose lost0 lost1
  entries entry found :=
    sound.entries entry (world.directory.entries_lose_subset .main kept found)
  touched entry found := by cases found

end PowerLoss

section History

section

variable (collisionFree : plan.CollisionFree reading)

include collisionFree

theorem Stands.step (valid : plan.Valid reading) (stands : Stands plan session) (event : Event B) :
    Stands plan (session.step reading event) ∧ Honest plan (session.step reading event) := by
  cases event with
  | resolve mode supplied faults =>
    obtain ⟨kept, honest, _⟩ := resolve_stands faults collisionFree valid stands mode supplied
    exact ⟨kept, honest⟩
  | powerLoss kept torn lost0 lost1 =>
    exact ⟨⟨lose_sound kept torn lost0 lost1 stands.sound, stands.own⟩,
      fun _ impossible => by cases impossible⟩

theorem Stands.run
    (valid : plan.Valid reading) (stands : Stands plan session) (events : List (Event B)) :
    Stands plan (session.run reading events) := by
  induction events generalizing session with
  | nil => exact stands
  | cons event rest ih => exact ih (stands.step collisionFree valid event).1

theorem step_tracks (tracks : Tracks reading plan session) (event : Event B) :
    Tracks reading plan (session.step reading event) ∧
      Honest plan (session.step reading event) := by
  rcases tracks with ⟨blank, none_held, _⟩ | ⟨valid, stands⟩
  · cases event with
    | resolve mode supplied faults =>
      have untracked := @resolve_untracked _ _ _ _ _ reading _ faults blank none_held mode supplied
      obtain ⟨stillBlank, stillNone, unreported⟩ := untracked
      refine ⟨.inl ⟨stillBlank, stillNone, unreported⟩, fun result reported => ?_⟩
      rw [unreported] at reported
      cases reported
    | powerLoss kept torn lost0 lost1 =>
      refine ⟨.inl ⟨?_, none_held, rfl⟩, fun _ impossible => by cases impossible⟩
      simp [Session.step, World.lose, blank, Record.lose, Record.sync]
  · obtain ⟨kept, honest⟩ := stands.step collisionFree valid event
    exact ⟨.inr ⟨valid, kept⟩, honest⟩

theorem run_tracks (events : List (Event B))
    (tracks : Tracks reading plan session) (honest : Honest plan session) :
    Tracks reading plan (session.run reading events) ∧
      Honest plan (session.run reading events) := by
  induction events generalizing session with
  | nil => exact ⟨tracks, honest⟩
  | cons event rest ih =>
    obtain ⟨kept, stillHonest⟩ := step_tracks collisionFree tracks event
    exact ih kept stillHonest

structure Fixed (plan : Plan B T D) (session : Session B T D) : Prop
    extends Stands plan session where
  entries : ∀ entry ∈ session.world.directory.entries .main, entry = some .output

theorem Fixed.step (valid : plan.Valid reading) (fixed : Fixed plan session) (event : Event B) :
    Fixed plan (session.step reading event) := by
  cases event with
  | resolve mode supplied faults =>
    obtain ⟨kept, _, moved⟩ :=
      resolve_stands faults collisionFree valid fixed.toStands mode supplied
    refine ⟨kept, fun entry found => ?_⟩
    rcases moved with unmoved | rests
    · have output := fixed.entries _ (session.world.directory.names_mem_entries .main)
      exact absurd (unmoved.symm.trans output) valid.foreign
    · exact fixed.entries entry (rests.entries found)
  | powerLoss kept torn lost0 lost1 =>
    exact ⟨⟨lose_sound kept torn lost0 lost1 fixed.sound, fixed.own⟩, fun entry found =>
      fixed.entries entry (session.world.directory.entries_lose_subset .main kept found)⟩

theorem Fixed.run
    (valid : plan.Valid reading) (fixed : Fixed plan session) (events : List (Event B)) :
    Fixed plan (session.run reading events) := by
  induction events generalizing session with
  | nil => exact fixed
  | cons event rest ih => exact ih (fixed.step collisionFree valid event)

end

theorem Fixed.mainBytes (fixed : Fixed plan session) :
    session.world.mainBytes = some plan.desired := by
  have output := fixed.entries _ (session.world.directory.names_mem_entries .main)
  simp [World.mainBytes, output, fixed.sound.output]

theorem Plan.Sound.mainBytes_desired (sound : plan.Sound world)
    (alike : plan.heldBefore = some plan.desired) : world.mainBytes = some plan.desired := by
  rcases sound.entries _ (world.directory.names_mem_entries .main) with before | output
  · rw [sound.mainBytes_before before, alike]
  · simp [World.mainBytes, output, sound.output]

theorem lasts_iff_synced (collisionFree : plan.CollisionFree reading) (valid : plan.Valid reading)
    (stands : Stands plan session) (published : session.world.mainBytes = some plan.desired) :
    (∀ later, (session.run reading later).world.mainBytes = some plan.desired) ↔
      session.world.directory.Synced .main ∨ plan.heldBefore = some plan.desired := by
  constructor
  · intro lasting
    by_contra neither
    obtain ⟨pending, differs⟩ := not_or.mp neither
    rw [← Directory.touched_eq_nil_iff] at pending
    obtain ⟨entry, found⟩ := List.exists_mem_of_ne_nil _ pending
    have before := stands.sound.touched entry found
    obtain ⟨kept, lost⟩ := session.world.directory.exists_lose .main
      (session.world.directory.touched_subset_entries .main found)
    have after := lasting [.powerLoss kept session.world.bytes false false]
    refine differs ?_
    rw [← after]
    symm
    refine (lose_sound kept _ false false stands.sound).mainBytes_before ?_
    show (session.world.directory.lose kept).names .main = plan.before
    rw [lost, before]
  · intro condition later
    by_cases alike : plan.heldBefore = some plan.desired
    · exact (stands.run collisionFree valid later).sound.mainBytes_desired alike
    · have synced := condition.resolve_right alike
      have output : session.world.directory.names .main = some .output := by
        rcases stands.sound.entries _ (session.world.directory.names_mem_entries .main) with
          before | output
        · exact absurd ((stands.sound.mainBytes_before before).symm.trans published) alike
        · exact output
      have fixed : Fixed plan session := ⟨stands, fun entry found =>
        (session.world.directory.entries_eq_of_synced .main synced found).trans output⟩
      exact (fixed.run collisionFree valid later).mainBytes

end History

section Publishing

variable (policy : Policy) (observing : Bool) (desired : B) (tuple : T) (faults : List Fault)

theorem publish_tracks {start : World B T D} (initial : Initial start) :
    let plan := Plan.of reading start policy desired tuple
    let session := Session.publish reading start policy observing desired tuple faults
    Tracks reading plan session ∧ Honest plan session ∧
      ∀ result, session.reported = some result → result.publication = .published →
        session.world.directory.Synced .main := by
  intro plan session
  have ready : Initial { start with faults, observed := [] } :=
    ⟨initial.settled, initial.foreign, initial.fresh.1, rfl⟩
  have closes : Keeps (Closes reading plan)
      (Publication.publish reading policy observing desired tuple)
      { start with faults, observed := [] } fun reply next =>
        ∀ result, reply = .result result →
          plan.Valid reading ∧ plan.Standing next ∧ Reports plan next result :=
    publish_closes policy observing desired tuple ready
  have opened : Closed reading plan { start with faults, observed := [] } := .inl ready.fresh
  have synced : ∀ world result, Reports plan world result → result.publication = .published →
      world.directory.Synced .main := by
    intro world result reports published
    obtain ⟨truthful, _⟩ := reports
    simp only [Plan.Truthful, published] at truthful
    exact (world.directory.touched_eq_nil_iff .main).mp truthful.2
  unfold Keeps at closes
  rw [show session = Session.call { world := start, results := [], reported := none }
    (Publication.publish reading policy observing desired tuple) faults from rfl]
  unfold Session.call
  cases outcome : Publication.publish reading policy observing desired tuple
      { start with faults, observed := [] } with
  | ok reply world =>
    rw [outcome] at closes
    obtain ⟨closed, facts⟩ := closes
    cases reply with
    | result result =>
      obtain ⟨valid, standing, reports⟩ := facts result rfl
      refine ⟨.inr ⟨valid, standing.sound, ?_⟩, ?_, ?_⟩
      · intro held member
        rcases List.mem_cons.mp member with latest | earlier
        · rw [latest]
          exact reports.2
        · exact standing.own held (by simpa using earlier)
      · rintro _ ⟨⟩
        exact reports.holds standing.sound
      · rintro _ ⟨⟩ published
        exact synced world result reports published
    | refused problem =>
      refine ⟨?_, fun _ impossible => (by cases impossible),
        fun _ impossible => (by cases impossible)⟩
      rcases closed opened with fresh | ⟨valid, standing⟩
      · exact .inl ⟨fresh.1, by simp [fresh.2], rfl⟩
      · exact .inr ⟨valid, standing.sound, by simpa using standing.own⟩
  | error stop world =>
    rw [outcome] at closes
    rcases closes opened with fresh | ⟨valid, standing⟩
    · refine ⟨.inl ⟨fresh.1, by simp [fresh.2], by simp [fresh.2]⟩, ?_, ?_⟩ <;>
        simp [Honest, fresh.2]
    · have reports : ∀ result, world.observed.head? = some result →
          Reports plan world result := fun result told =>
        ⟨standing.told result told, standing.own result (List.mem_of_mem_head? told)⟩
      exact ⟨.inr ⟨valid, standing.sound, by simpa using standing.own⟩,
        fun result told => (reports result told).holds standing.sound,
        fun result told published => synced world result (reports result told) published⟩

theorem start_initial (names : Name → Option Nat) (bytes : Inode → B) (synced : Inode → Bool) :
    Initial (World.start names bytes synced : World B T D) := by
  refine ⟨rfl, ?_, rfl, rfl⟩
  show (names .main).map Inode.other ≠ some .output
  cases names .main <;> simp

variable (names : Name → Option Nat) (bytes : Inode → B) (synced : Inode → Bool)

def heldAtStart (names : Name → Option Nat) (bytes : Inode → B) : Option B :=
  (names .main).map fun number => bytes (.other number)

theorem heldBefore_start (reading : Reading B T D) :
    (Plan.of reading (World.start names bytes synced) policy desired tuple).heldBefore =
      heldAtStart names bytes := by
  show ((names .main).map Inode.other).map bytes = _
  simp [heldAtStart, Function.comp_def]

theorem start_collisionFree {reading : Reading B T D}
    (collisionFree : ∀ held, heldAtStart names bytes = some held →
      reading.digest held = reading.digest desired → held = desired) :
    (Plan.of reading (World.start names bytes synced) policy desired tuple).CollisionFree reading :=
  fun other before => collisionFree other
    (heldBefore_start policy desired tuple names bytes synced reading ▸ before)

/-- For every policy, every end of the attempt and of each later resolution, and every power
loss between them: `NotPublished` is reported only while the main name holds what it held
before; `Published` is reported only while it holds the desired bytes, and these outlive
every later event exactly when no change of the main name was still waiting for a directory
sync. The attempt itself reports it only after that sync; a resolution may not. -/
theorem published_lasts_iff_synced (reading : Reading B T D)
    (collisionFree : ∀ held, heldAtStart names bytes = some held →
      reading.digest held = reading.digest desired → held = desired) (events : List (Event B)) :
    let session := (Session.publish reading (World.start names bytes synced) policy observing
      desired tuple faults).run reading events
    ∀ result, session.reported = some result →
      (result.publication = .published → session.world.mainBytes = some desired ∧
        ((∀ later, (session.run reading later).world.mainBytes = some desired) ↔
          session.world.directory.Synced .main ∨ heldAtStart names bytes = some desired) ∧
        (events = [] → session.world.directory.Synced .main)) ∧
      (result.publication = .notPublished →
        session.world.mainBytes = heldAtStart names bytes) := by
  intro session result reported
  have started := start_initial (T := T) (D := D) names bytes synced
  obtain ⟨tracks, honest, certain⟩ :=
    @publish_tracks _ _ _ _ _ reading policy observing desired tuple faults _ started
  have apart := start_collisionFree policy desired tuple names bytes synced collisionFree
  obtain ⟨tracked, stillHonest⟩ := run_tracks apart events tracks honest
  obtain ⟨_, published, notPublished⟩ := stillHonest result reported
  rcases tracked with ⟨_, _, unreported⟩ | ⟨valid, stands⟩
  · rw [show session.reported = none from unreported] at reported
    cases reported
  · refine ⟨fun status => ⟨published status, ?_, ?_⟩, fun status => ?_⟩
    · rw [← heldBefore_start policy desired tuple names bytes synced reading]
      exact lasts_iff_synced apart valid stands (published status)
    · rintro rfl
      exact certain result reported status
    · rw [← heldBefore_start policy desired tuple names bytes synced reading]
      exact stands.sound.mainBytes_before (notPublished status)

/-- Once the attempt has left a record or a result, the main name holds what it held before or
the desired bytes, however the attempt, its resolutions and power losses between them end. -/
theorem destination_before_or_desired (reading : Reading B T D)
    (collisionFree : ∀ held, heldAtStart names bytes = some held →
      reading.digest held = reading.digest desired → held = desired) (events : List (Event B)) :
    let session := (Session.publish reading (World.start names bytes synced) policy observing
      desired tuple faults).run reading events
    session.world.record ≠ { block0 := none, block1 := none } ∨ session.results ≠ [] →
      session.world.mainBytes = heldAtStart names bytes ∨ session.world.mainBytes = some desired := by
  intro session traced
  obtain ⟨tracks, honest, _⟩ := @publish_tracks _ _ _ _ _ reading policy observing desired tuple
    faults _ (start_initial (T := T) (D := D) names bytes synced)
  rcases (run_tracks (start_collisionFree _ _ _ _ _ _ collisionFree) events tracks honest).1 with ⟨blank, nothing, _⟩ | ⟨_, stands⟩
  · exact traced.elim (absurd blank) (absurd nothing)
  · rcases stands.sound.entries _ (session.world.directory.names_mem_entries .main) with
      before | output
    · left
      rw [stands.sound.mainBytes_before before, heldBefore_start]
    · right
      rw [World.mainBytes, output]
      exact congrArg some stands.sound.output

end Publishing

def plainReading : Reading Nat Nat Nat := { openMeta := some, digest := id }

def emptyStart : World Nat Nat Nat := World.start (fun _ => none) (fun _ => 0) (fun _ => true)

/-- A publication into an empty directory whose directory sync after the rename is refused,
then a completion whose directory sync after the cleanup is refused. -/
def resolvedUnsynced : Session Nat Nat Nat :=
  (Session.publish plainReading emptyStart .failIfExists false 7 7
    (List.replicate 81 .pass ++ [.refuse .io])).run plainReading
    [.resolve .complete none (List.replicate 24 .pass ++ [.refuse .io])]

theorem published_without_directory_sync :
    resolvedUnsynced.reported.map PublicationResult.publication = some .published ∧
      resolvedUnsynced.world.mainBytes = some 7 ∧
      ¬ ∀ later, (resolvedUnsynced.run plainReading later).world.mainBytes = some 7 := by
  refine ⟨by decide +kernel, by decide +kernel, fun lasting => ?_⟩
  have lost : (resolvedUnsynced.run plainReading
      [.powerLoss 0 (fun _ => 0) false false]).world.mainBytes = none := by decide +kernel
  rw [lasting] at lost
  cases lost

def resolvedSynced : Session Nat Nat Nat :=
  (Session.publish plainReading emptyStart .failIfExists false 7 7
    (List.replicate 81 .pass ++ [.refuse .io])).run plainReading [.resolve .complete none []]

theorem published_lasts_iff_synced_sample :
    resolvedSynced.reported.map PublicationResult.publication = some .published ∧
      ∀ result, resolvedSynced.reported = some result → result.publication = .published →
        ((∀ later, (resolvedSynced.run plainReading later).world.mainBytes = some 7) ↔
          resolvedSynced.world.directory.Synced .main ∨
            heldAtStart (fun _ => none) (fun _ => 0) = some 7) := by
  refine ⟨by decide +kernel, fun result reported status => ?_⟩
  have lasts := published_lasts_iff_synced .failIfExists false 7 7
    (List.replicate 81 .pass ++ [.refuse .io]) (fun _ => none) (fun _ => 0) (fun _ => true)
    plainReading nofun [.resolve .complete none []]
  -- unfolded, both sides are the same term; left folded, unification would run the session
  unfold resolvedSynced emptyStart at reported ⊢
  exact ((lasts result reported).1 status).2.1

def oneFile (name : Name) : Option Nat := if name = .main then some 0 else none

/-- The replacement of a file whose exchange of names is not synced, and a power loss that takes
it back. -/
def replacedUnsynced : Session Nat Nat Nat :=
  (Session.publish plainReading (World.start oneFile (fun _ => 5) (fun _ => true)) .replaceExisting
    false 7 7 (List.replicate 94 .pass ++ [.refuse .io])).run plainReading
    [.powerLoss 0 (fun _ => 0) false false]

theorem replacedUnsynced_results : replacedUnsynced.results.length = 1 := by decide +kernel

theorem destination_before_or_desired_sample :
    replacedUnsynced.world.mainBytes = heldAtStart oneFile (fun _ => 5) ∨
      replacedUnsynced.world.mainBytes = some 7 := by
  have apart : ∀ held, heldAtStart oneFile (fun _ => 5) = some held →
      plainReading.digest held = plainReading.digest 7 → held = 7 := by
    rintro _ ⟨⟩
    decide
  have traced : replacedUnsynced.results ≠ [] :=
    List.ne_nil_of_length_pos (by rw [replacedUnsynced_results]; decide)
  have either := destination_before_or_desired .replaceExisting false 7 7
    (List.replicate 94 .pass ++ [.refuse .io]) oneFile (fun _ => 5) (fun _ => true) plainReading apart
    [.powerLoss 0 (fun _ => 0) false false]
  exact either (Or.inr traced)

end IpRange.Publication
