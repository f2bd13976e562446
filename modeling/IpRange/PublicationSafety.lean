import IpRange.PublicationResolver

/-!
What the steps of a publication may do to the main name. Checks change nothing;
everything but the one operation on the main name leaves that name, and what it
may hold after a power loss, as it was.
-/

namespace IpRange.Publication

variable {B T D α β : Type}

structure Same (world next : World B T D) : Prop where
  directory : next.directory = world.directory
  bytes : next.bytes = world.bytes
  synced : next.synced = world.synced
  record : next.record = world.record
  observed : next.observed = world.observed

structure Rests (world next : World B T D) : Prop where
  main : next.directory.names .main = world.directory.names .main
  entries : next.directory.entries .main ⊆ world.directory.entries .main
  touched : next.directory.touched .main ⊆ world.directory.touched .main

structure Quiet (holds : Record T D → Prop) (world next : World B T D) : Prop
    extends Rests world next where
  bytes : next.bytes = world.bytes
  synced : ∀ inode, world.synced inode → next.synced inode
  record : holds world.record → holds next.record
  observed : next.observed = world.observed

theorem Rests.refl (world : World B T D) : Rests world world :=
  ⟨rfl, fun _ found => found, fun _ found => found⟩

variable {world next : World B T D}

theorem Rests.trans {middle : World B T D} (first : Rests world middle) (second : Rests middle next) :
    Rests world next :=
  ⟨second.main.trans first.main, fun _ found => first.entries (second.entries found),
    fun _ found => first.touched (second.touched found)⟩

theorem Rests.of_directory (same : next.directory = world.directory) : Rests world next := by
  constructor <;> rw [same]
  · exact fun _ found => found
  · exact fun _ found => found

instance : IsPreorder (World B T D) Same where
  refl _ := ⟨rfl, rfl, rfl, rfl, rfl⟩
  trans _ _ _ first second :=
    ⟨second.directory.trans first.directory, second.bytes.trans first.bytes,
      second.synced.trans first.synced, second.record.trans first.record,
      second.observed.trans first.observed⟩

instance (holds : Record T D → Prop) : IsPreorder (World B T D) (Quiet holds) where
  refl world := ⟨.refl world, rfl, fun _ kept => kept, fun kept => kept, rfl⟩
  trans _ _ _ first second :=
    ⟨first.toRests.trans second.toRests, second.bytes.trans first.bytes,
      fun inode kept => second.synced inode (first.synced inode kept),
      fun kept => second.record (first.record kept), second.observed.trans first.observed⟩

theorem Same.quiet {holds : Record T D → Prop} (same : Same world next) :
    Quiet holds world next where
  toRests := .of_directory same.directory
  bytes := same.bytes
  synced := by rw [same.synced]; exact fun _ kept => kept
  record := by rw [same.record]; exact id
  observed := same.observed

section Performed

variable {relation : World B T D → World B T D → Prop} [IsPreorder (World B T D) relation]

omit [IsPreorder (World B T D) relation] in
theorem keeps_perform {world : World B T D} {effect : World B T D → World B T D}
    {post : Unit → World B T D → Prop} (idle : ∀ faults, relation world { world with faults })
    (moved : ∀ faults, relation world (effect { world with faults }))
    (holds : ∀ faults, post () (effect { world with faults })) :
    Keeps relation (perform effect) world post := by
  obtain ⟨directory, bytes, synced, record, faults, observed⟩ := world
  cases faults with
  | nil => exact ⟨moved [], holds []⟩
  | cons fault rest =>
    cases fault with
    | pass => exact ⟨moved rest, holds rest⟩
    | refuse problem => exact idle rest
    | unreported problem => exact moved rest
    | crash => exact idle rest

end Performed

section Reads

variable {world : World B T D}

theorem same_faults (world : World B T D) (faults : List Fault) :
    Same world { world with faults } := ⟨rfl, rfl, rfl, rfl, rfl⟩

theorem step_same : Keeps Same (step : Call B T D Unit) world fun _ _ => True :=
  keeps_perform (same_faults world) (same_faults world) fun _ => trivial

theorem require_same (condition : World B T D → Bool) (problem : Problem) :
    Keeps Same (require condition problem) world fun _ next => condition next = true := by
  refine step_same.bind fun _ next _ _ => Keeps.get_bind ?_
  by_cases met : condition next = true
  · rw [if_pos met]
    exact .pure met
  · rw [if_neg met]
    exact .throw

theorem entry_same (name : Name) :
    Keeps Same (entry name) world fun found (next : World B T D) =>
      next.directory.names name = found :=
  step_same.bind fun _ _ _ _ => Keeps.get_bind (.pure rfl)

theorem regularLinkCount_same (inode : Inode) :
    Keeps Same (regularLinkCount inode) world fun links (next : World B T D) =>
      next.links inode = links :=
  step_same.bind fun _ _ _ _ => Keeps.get_bind (.pure rfl)

theorem verifyName_same (name : Name) (expected : Inode) :
    Keeps Same (verifyName name expected) world fun _ (next : World B T D) =>
      next.directory.names name = some expected := by
  refine (entry_same name).bind fun found next _ holds => ?_
  cases found with
  | none => exact .throw
  | some found =>
    by_cases expectedFound : found = expected
    · subst expectedFound
      simp only [if_true]
      refine Keeps.get_bind ?_
      split
      · exact .pure holds
      · exact .throw
    · simp only [if_neg expectedFound]
      exact .throw

theorem requireAbsent_same (name : Name) :
    Keeps Same (requireAbsent name) world fun _ (next : World B T D) =>
      next.directory.names name = none := by
  refine (entry_same name).bind fun found next _ holds => ?_
  cases found with
  | none => exact .pure holds
  | some found => exact .throw

theorem openRegular_same (name : Name) :
    Keeps Same (openRegular name) world fun found (next : World B T D) =>
      next.directory.names name = found := by
  refine (entry_same name).bind fun found next _ holds => ?_
  cases found with
  | none => exact .pure holds
  | some found =>
    refine Keeps.get_bind ?_
    split
    · exact .pure holds
    · exact .throw

end Reads

def Calm (relation : World B T D → World B T D → Prop) (call : Call B T D α) : Prop :=
  ∀ world, Keeps relation call world fun _ _ => True

namespace Calm

variable {relation : World B T D → World B T D → Prop}

variable {call : Call B T D α}

theorem of_keeps {post : α → World B T D → Prop} (run : ∀ world, Keeps relation call world post) :
    Calm relation call :=
  fun world => (run world).mono fun _ _ _ _ => trivial

theorem quiet {holds : Record T D → Prop} (calm : Calm Same call) : Calm (Quiet holds) call :=
  fun world => (calm world).weaken fun _ same => same.quiet

theorem outcomeOf (calm : Calm relation call) : Calm relation (outcomeOf call) :=
  of_keeps fun world => (calm world).outcomeOf

theorem get_bind {next : World B T D → Call B T D α} (calm : ∀ read, Calm relation (next read)) :
    Calm relation (get >>= next) :=
  fun world => Keeps.get_bind (calm world world)

theorem ite {condition : Prop} [Decidable condition] {left right : Call B T D α}
    (onTrue : Calm relation left) (onFalse : Calm relation right) :
    Calm relation (if condition then left else right) := by
  split
  · exact onTrue
  · exact onFalse

variable [IsPreorder (World B T D) relation]

theorem pure (value : α) : Calm relation (pure value : Call B T D α) :=
  fun _ => Keeps.pure trivial

theorem fail (problem : Problem) : Calm relation (fail problem : Call B T D α) :=
  fun _ => Keeps.throw

theorem bind {next : α → Call B T D β} (first : Calm relation call)
    (second : ∀ value, Calm relation (next value)) : Calm relation (call >>= next) :=
  fun world => (first world).bind fun value reached _ _ => second value reached

theorem map (calm : Calm relation call) (f : α → β) : Calm relation (f <$> call) := by
  rw [← bind_pure_comp]
  exact calm.bind fun _ => .pure _

theorem forM {items : Option α} {next : α → Call B T D PUnit}
    (calm : ∀ item, Calm relation (next item)) : Calm relation (items.forM next) := by
  cases items with
  | none => exact .pure _
  | some item => exact calm item

theorem isOk (calm : Calm relation call) : Calm relation (isOk call) :=
  calm.outcomeOf.bind fun outcome => by cases outcome <;> exact .pure _

end Calm

section Checks

variable {world : World B T D}

theorem step_calm : Calm Same (step : Call B T D Unit) := fun _ => step_same

theorem requireAbsent_calm (name : Name) : Calm Same (requireAbsent name : Call B T D Unit) :=
  .of_keeps fun _ => requireAbsent_same name

theorem verifyName_calm (name : Name) (expected : Inode) :
    Calm Same (verifyName name expected : Call B T D Unit) :=
  .of_keeps fun _ => verifyName_same name expected

theorem regularLinkCount_calm (inode : Inode) :
    Calm Same (regularLinkCount inode : Call B T D Nat) :=
  .of_keeps fun _ => regularLinkCount_same inode

theorem verifyPrivateOrRetired_calm (previous : Previous D) :
    Calm Same (verifyPrivateOrRetired previous : Call B T D Unit) := by
  refine step_calm.bind fun _ => (regularLinkCount_calm _).bind fun links => ?_
  split
  · exact requireAbsent_calm _
  · exact verifyName_calm _ _
  · exact .fail _

theorem verifyRetired_calm (previous : Previous D) :
    Calm Same (verifyRetired previous : Call B T D Unit) := by
  refine step_calm.bind fun _ => (requireAbsent_calm _).bind fun _ => ?_
  refine (regularLinkCount_calm _).bind fun links => ?_
  split
  · exact .pure _
  · exact .fail _

theorem verifyCanonicalNamespace_same (previous : Previous D) :
    Keeps Same (verifyCanonicalNamespace previous) world fun _ (next : World B T D) =>
      next.directory.names .main = some previous.identity :=
  step_same.bind fun _ _ _ _ => verifyName_same _ _

theorem verifyDestinationBeforeMain_same (output : Attempt T D) :
    Keeps Same (verifyDestinationBeforeMain output) world fun _ (next : World B T D) =>
      next.directory.names .main = output.previous.map Previous.identity := by
  unfold verifyDestinationBeforeMain
  cases output.previous with
  | none => exact requireAbsent_same _
  | some previous => exact verifyCanonicalNamespace_same previous

variable [DecidableEq T] [DecidableEq D] (reading : Reading B T D)

omit [DecidableEq D] in
theorem inspectExact_same (tuple : T) (location : Location) :
    Keeps Same (inspectExact reading tuple location) world fun _ next =>
      next.directory.names location.outputName = some .output ∧
        reading.openMeta (next.bytes .output) = some tuple := by
  refine (verifyName_same location.outputName .output).bind fun _ next _ named => ?_
  refine (require_same _ _).mono fun _ reached same met => ?_
  rw [same.directory]
  exact ⟨named, by simpa using met⟩

omit [DecidableEq T] in
theorem verifyContent_calm (previous : Previous D) : Calm Same (verifyContent reading previous) :=
  (Calm.of_keeps fun _ => verifyCanonicalNamespace_same previous).bind fun _ =>
    .of_keeps fun _ => require_same _ _

omit [DecidableEq D] in
theorem verifyMain_same (output : Attempt T D) :
    Keeps Same (verifyMain reading output) world fun _ next =>
      next.directory.names .main = some .output := by
  refine (inspectExact_same reading _ .canonical).bind fun _ next _ exact_ => ?_
  have named : next.directory.names .main = some .output := exact_.1
  cases output.previous with
  | none =>
    refine (requireAbsent_same _).mono fun _ reached same _ => ?_
    rw [same.directory, named]
  | some previous =>
    refine (verifyPrivateOrRetired_calm previous next).mono fun _ reached same _ => ?_
    rw [same.directory, named]

omit [DecidableEq D] in
theorem verifyOutputAt_same (output : Attempt T D) (location : Location) :
    Keeps Same (verifyOutputAt reading output location) world fun _ next =>
      next.directory.names location.outputName = some .output := by
  cases location with
  | private_ => exact (inspectExact_same reading _ .private_).mono fun _ _ _ exact_ => exact_.1
  | canonical => exact verifyMain_same reading output

theorem verifyReservation_same (output : Attempt T D) (header : Header T D)
    (reservation location : Location) :
    Keeps Same (verifyReservation reading output header reservation location) world
      fun _ next => next.directory.names location.outputName = some .output := by
  refine (verifyOutputAt_same reading output location).bind fun _ placed _ named => ?_
  have rest : Calm Same (do
      verifyDirectory
      verifyName reservation.reservationName .reservation
      if reservation = .canonical then requireAbsent .privateReservation
      require (fun world : World B T D => world.record.select = some header) .headerChanged) := by
    refine step_calm.bind fun _ => (verifyName_calm _ _).bind fun _ => ?_
    refine Calm.ite ?_ ?_
    · exact (requireAbsent_calm _).bind fun _ =>
        .of_keeps fun _ => require_same _ _
    · exact .of_keeps fun _ => require_same _ _
  refine (rest placed).mono fun _ reached same _ => ?_
  rw [same.directory, named]

end Checks

section Changes

variable {holds : Record T D → Prop} {world : World B T D}

theorem quiet_faults (world : World B T D) (faults : List Fault) :
    Quiet holds world { world with faults } := (same_faults world faults).quiet

theorem change_quiet {made : Change Name Inode} (elsewhere : made.touches .main = false) :
    Calm (Quiet holds) (change made : Call B T D Unit) := by
  intro world
  refine keeps_perform (quiet_faults world) (fun faults => ?_) fun _ => trivial
  have kept := Change.run_of_not_touches elsewhere world.directory.names
  refine ⟨⟨?_, ?_, ?_⟩, rfl, fun _ kept => kept, id, rfl⟩
  · simp only [Directory.names_perform, kept]
  · intro found member
    rw [Directory.entries_perform, kept] at member
    rcases List.mem_append.mp member with earlier | last
    · exact earlier
    · rw [List.mem_singleton.mp last]
      exact world.directory.names_mem_entries .main
  · intro found member
    simpa [Directory.touched_perform, elsewhere] using member

theorem create_quiet {name : Name} (elsewhere : name ≠ .main) (inode : Inode) :
    Calm (Quiet holds) (create name inode : Call B T D Unit) := by
  refine .get_bind fun read => .ite (.fail _) (change_quiet ?_)
  simpa [Change.touches] using elsewhere

theorem unlinkExact_quiet {name : Name} (elsewhere : name ≠ .main) (expected : Inode) :
    Calm (Quiet holds) (unlinkExact name expected : Call B T D Bool) := by
  refine (Calm.of_keeps fun _ => entry_same name).quiet.bind fun found => ?_
  cases found with
  | none => exact .pure _
  | some found =>
    refine .ite (.get_bind fun read => .ite ?_ (.fail _)) (.fail _)
    refine (change_quiet ?_).bind fun _ => .pure _
    simpa [Change.touches] using elsewhere

theorem renameReservation_quiet :
    Calm (Quiet holds)
      (renameNoreplace .privateReservation .coordination : Call B T D Unit) :=
  .get_bind fun _ => .ite (.fail _) (.ite (.fail _) (change_quiet (by decide)))

theorem syncDirectory_quiet :
    Keeps (Quiet holds) (syncDirectory : Call B T D Unit) world fun _ next =>
      next.directory.touched .main = [] := by
  refine keeps_perform (quiet_faults world) (fun faults => ?_) fun _ => rfl
  refine ⟨⟨rfl, ?_, ?_⟩, rfl, fun _ kept => kept, id, rfl⟩
  · intro found member
    rw [List.mem_singleton.mp member]
    exact world.directory.names_mem_entries .main
  · intro found member
    cases member

theorem syncFile_quiet (inode : Inode) :
    Keeps (Quiet holds) (syncFile inode : Call B T D Unit) world fun _ next =>
      next.synced inode = true := by
  refine keeps_perform (quiet_faults world) (fun faults => ?_) fun _ => by simp
  refine ⟨.of_directory rfl, rfl, fun kept synced => ?_, id, rfl⟩
  by_cases same : kept = inode
  · simp [same]
  · simpa [Function.update_of_ne same] using synced

theorem record_quiet (edit : Record T D → Record T D)
    (kept : ∀ record, holds record → holds (edit record)) :
    Calm (Quiet holds) (perform fun world : World B T D =>
      { world with record := edit world.record }) :=
  fun world => keeps_perform (quiet_faults world)
    (fun _ => ⟨.of_directory rfl, rfl, fun _ kept => kept, kept world.record, rfl⟩)
    fun _ => trivial

end Changes

section Removals

variable {holds : Record T D → Prop}

variable {names : List Name}

theorem unlinkNames_quiet (identity : Inode) (elsewhere : .main ∉ names) (problem : Option Problem) :
    Calm (Quiet holds) (unlinkNames identity names problem : Call B T D Bool) := by
  induction names generalizing problem with
  | nil => cases problem <;> first | exact .pure _ | exact .fail _
  | cons name rest ih =>
    obtain ⟨notMain, others⟩ : Name.main ≠ name ∧ Name.main ∉ rest := by simpa using elsewhere
    unfold unlinkNames
    refine (unlinkExact_quiet (Ne.symm notMain) identity).outcomeOf.bind fun outcome => ?_
    split
    · exact .pure _
    · exact ih others problem
    · exact ih others problem
    · exact ih others problem
    · exact .fail _
    · exact ih others _

theorem remove_quiet (identity : Inode) (elsewhere : .main ∉ names) :
    Calm (Quiet holds) (remove identity names : Call B T D Unit) := by
  have count : Calm (Quiet holds) (regularLinkCount identity : Call B T D Nat) :=
    (regularLinkCount_calm identity).quiet
  refine count.bind fun links => ?_
  split
  · exact .pure _
  · refine (unlinkNames_quiet identity elsewhere none).bind fun unlinked => .ite ?_ ?_ <;>
    · refine count.bind fun links => ?_
      split
      · exact .pure _
      · exact .fail _
  · exact .fail _

theorem removal_quiet (kind : ArtifactKind) (identity : Inode) (elsewhere : .main ∉ names) :
    Calm (Quiet holds) (removal kind identity names : Call B T D Removal) :=
  (remove_quiet identity elsewhere).outcomeOf.bind fun _ => .pure _

theorem removeOutput_quiet (identity : Option Inode) :
    Calm (Quiet holds) (removeOutput identity : Call B T D (Option Removal)) := by
  cases identity with
  | none => exact .pure _
  | some identity => exact (removal_quiet _ _ (by decide)).map _

theorem removeReservation_quiet (location : Option ReservationLocation) :
    Calm (Quiet holds) (removeReservation location : Call B T D (Option Removal)) := by
  cases location with
  | none => exact .pure _
  | some location => exact (removal_quiet _ _ (by cases location <;> decide)).map _

theorem syncRemovals_quiet (needed : Bool) :
    Calm (Quiet holds) (syncRemovals needed : Call B T D (Option Problem)) := by
  refine .ite ?_ (.pure _)
  refine (Calm.outcomeOf ?_).bind fun outcome => by cases outcome <;> exact .pure _
  exact (Calm.of_keeps fun _ => syncDirectory_quiet).bind fun _ => step_calm.quiet

theorem finishRemoval_calm (sync : Option Problem) (removal : Option Removal) :
    Calm Same (finishRemoval sync removal : Call B T D (List Artifact)) := by
  unfold finishRemoval
  split
  · exact .pure _
  · split
    · exact .pure _
    · exact .pure _
    · refine Calm.bind ?_ fun problem => by cases problem <;> exact .pure _
      refine (regularLinkCount_calm _).outcomeOf.bind fun outcome => ?_
      split <;> exact .pure _

theorem discardOwners_quiet (output : Option Inode) (reservation : Option ReservationLocation) :
    Calm (Quiet holds) (discardOwners output reservation : Call B T D Summary) := by
  refine (removeOutput_quiet output).bind fun outputRemoval => ?_
  refine (removeReservation_quiet reservation).bind fun reservationRemoval => ?_
  refine (syncRemovals_quiet _).bind fun sync => ?_
  refine (finishRemoval_calm sync outputRemoval).quiet.bind fun _ => ?_
  refine (finishRemoval_calm sync reservationRemoval).quiet.bind fun _ => ?_
  refine (requireAbsent_calm .main).isOk.quiet.bind fun _ => ?_
  exact (requireAbsent_calm .coordination).isOk.quiet.bind fun _ => .pure _

end Removals

end IpRange.Publication
