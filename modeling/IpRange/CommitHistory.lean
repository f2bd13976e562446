import IpRange.CommitHistoryCore

/-!
Histories of commit attempts on one file: writers that publish, fail or crash at
any point, storage that writes pages back when it likes, and power losses. What a
resolver answers about an attempt agrees with what became of its generation.
-/

namespace IpRange.Meta

open List hiding modify

def Torn (page : Bytes) : Prop := ∀ value, identityReadable page ≠ .ok value

/-- What happens to the pages without a writer. After a power loss a page is what the
storage had, what was written last, or torn if these differ. -/
inductive Settles (file : MetaFile) : MetaFile → Prop
  | sync : Settles file file.sync
  | writeback (slot : Fin 2) :
      Settles file { file with durable := Function.update file.durable slot (file.visible slot) }
  | powerLoss {pages : Pages} (survives : ∀ slot, pages slot = file.durable slot ∨
      pages slot = file.visible slot ∨ (file.durable slot ≠ file.visible slot ∧ Torn (pages slot))) :
      Settles file { visible := pages, durable := pages }

structure DraftOf (base value : MetaV4) : Prop where
  identity : value.staticIdentityEq base = true
  next : draftTxn base.txnId = .ok value.txnId

structure Moment where
  file : MetaFile
  attempt : Option MetaV4

def Known (history : List Moment) (value : MetaV4) : Prop :=
  ∃ moment ∈ history, moment.attempt = some value ∨
    ∃ slot, identityReadable (moment.file.visible slot) = .ok value

def leaves {ε α : Type} (program : EStateM ε MetaFile α) (file : MetaFile) : MetaFile :=
  match program file with
  | .ok _ reached => reached
  | .error _ reached => reached

/-- Moments of a file, the last one first. Attempts are told apart by their transaction
and nonce. -/
inductive History : List Moment → Prop
  | opened {file : MetaFile} {physicalBytes : Nat} {base : Bootstrap} :
      file.durable = file.visible → openMetaPages file.visible physicalBytes .writer = .ok base →
      History [{ file, attempt := none }]
  | settles {now : Moment} {past : List Moment} {next : MetaFile} :
      History (now :: past) → Settles now.file next →
      History ({ file := next, attempt := none } :: now :: past)
  | attempts {now : Moment} {past : List Moment} {physicalBytes : Nat} {base : Bootstrap}
      {value : MetaV4} {around : Surroundings} :
      History (now :: past) → openMetaPages now.file.visible physicalBytes .writer = .ok base →
      DraftOf base.value value → Torn around.torn →
      (∀ other, Known (now :: past) other →
        ¬ (other.txnId = value.txnId ∧ other.commitNonce = value.commitNonce)) →
      History ({ file := leaves (publish around base value) now.file, attempt := some value } ::
        now :: past)

def Published (history : List Moment) (value : MetaV4) : Prop :=
  ∃ moment ∈ history, ∃ slot, identityReadable (moment.file.durable slot) = .ok value

def Attempted (history : List Moment) (value : MetaV4) : Prop :=
  ∃ moment ∈ history, moment.attempt = some value

section Publish

variable {around : Surroundings} {base : Bootstrap} {value : MetaV4} {file : MetaFile}

inductive PublishLeaves (around : Surroundings) (target : Fin 2) (value : MetaV4) (file : MetaFile) :
    MetaFile → Prop
  | untouched : PublishLeaves around target value file file
  | synced : PublishLeaves around target value file file.sync
  | torn : PublishLeaves around target value file (file.sync.write target around.torn)
  | written : PublishLeaves around target value file (file.sync.write target (encodeMapped value))
  | published :
      PublishLeaves around target value file (file.sync.write target (encodeMapped value)).sync

variable {α : Type} {next : EStateM (Option PublishOutcome) MetaFile α} {holds : MetaFile → Prop}

theorem leaves_reach {point : Point} {outcome : PublishOutcome} (here : holds file)
    (later : holds (leaves next file)) :
    holds (leaves (do reach around point outcome; next) file) := by
  cases fault : around.fault point with
  | pass =>
    rw [reach, fault]
    exact later
  | refuse =>
    rw [reach, fault]
    exact here
  | crash =>
    rw [reach, fault]
    exact here

theorem leaves_sync : leaves (do modify MetaFile.sync; next) file = leaves next file.sync := rfl

theorem leaves_encodeTarget {target : Fin 2} (stopped : holds (file.write target around.torn))
    (later : holds (leaves next (file.write target (encodeMapped value)))) :
    holds (leaves (do encodeTarget around target value; next) file) := by
  cases fault : around.fault .encode with
  | pass =>
    rw [encodeTarget, fault]
    exact later
  | refuse =>
    rw [encodeTarget, fault]
    exact stopped
  | crash =>
    rw [encodeTarget, fault]
    exact stopped

theorem publish_leaves : PublishLeaves around (1 - base.selectedMetaPage) value file
    (leaves (publish around base value) file) := by
  rw [publish]
  refine leaves_reach .untouched (leaves_reach .untouched (leaves_reach .untouched
    (leaves_reach .untouched (leaves_reach .untouched ?_))))
  rw [leaves_sync]
  refine leaves_reach .synced (leaves_reach .synced (leaves_reach .synced
    (leaves_encodeTarget .torn ?_)))
  refine leaves_reach .written (leaves_reach .written (leaves_reach .written ?_))
  rw [leaves_sync]
  exact leaves_reach .published .published

end Publish

section Generations

variable {published larger : MetaV4 → Prop} {file next : MetaFile} {top value : MetaV4} {slot : Fin 2}

/-- What can be said of a file whose storage held the generations `published`: the last of
them, `top`, is on its page for good. The other page may be about to become the next
generation, but nothing else that anyone could select. -/
structure Settled (published : MetaV4 → Prop) (file : MetaFile) (top : MetaV4) (slot : Fin 2) :
    Prop where
  current : identityReadable (file.durable slot) = .ok top
  same : file.visible slot = file.durable slot
  placed : parity top.txnId = slot
  durable : ∀ page value, identityReadable (file.durable page) = .ok value → published value
  beside : file.visible (1 - slot) = file.durable (1 - slot) ∨
    ∀ value, identityReadable (file.visible (1 - slot)) = .ok value →
      value.txnId.toNat = top.txnId.toNat + 1
  bounded : ∀ value, published value → value.txnId.toNat ≤ top.txnId.toNat
  unique : ∀ left right, published left → published right → left.txnId = right.txnId → left = right

theorem eq_or_other (slot page : Fin 2) : page = slot ∨ page = 1 - slot := by
  revert slot page
  decide

theorem other_ne (slot : Fin 2) : 1 - slot ≠ slot := by
  revert slot
  decide

theorem other_other (slot : Fin 2) : 1 - (1 - slot) = slot := by
  revert slot
  decide

theorem parity_next {low high : UInt64} (next : high.toNat = low.toNat + 1) :
    parity high = 1 - parity low := by
  apply Fin.ext
  simp only [parity, Fin.ofNat, next]
  have cases := Nat.mod_two_eq_zero_or_one low.toNat
  rcases cases with even | odd
  · simp [Nat.add_mod, even]
  · simp [Nat.add_mod, odd]

theorem Settled.restrict (settled : Settled larger file top slot)
    (inside : ∀ value, published value → larger value)
    (durable : ∀ page value, identityReadable (file.durable page) = .ok value → published value) :
    Settled published file top slot where
  current := settled.current
  same := settled.same
  placed := settled.placed
  durable := durable
  beside := settled.beside
  bounded value member := settled.bounded value (inside value member)
  unique left right first second := settled.unique left right (inside _ first) (inside _ second)

section

variable (settled : Settled published file top slot) (kept : next.durable slot = file.durable slot)
  (seen : next.visible slot = file.visible slot)

include settled kept seen

theorem Settled.stay
    (other : next.durable (1 - slot) = file.durable (1 - slot) ∨ Torn (next.durable (1 - slot)))
    (beside : next.visible (1 - slot) = next.durable (1 - slot) ∨
      ∀ value, identityReadable (next.visible (1 - slot)) = .ok value →
        value.txnId.toNat = top.txnId.toNat + 1) :
    Settled published next top slot where
  current := by rw [kept, settled.current]
  same := by rw [kept, seen, settled.same]
  placed := settled.placed
  durable page value read := by
    rcases eq_or_other slot page with rfl | rfl
    · exact settled.durable page value (kept ▸ read)
    · rcases other with same | torn
      · exact settled.durable _ value (same ▸ read)
      · exact absurd read (torn value)
  beside := beside
  bounded := settled.bounded
  unique := settled.unique

theorem Settled.advance (read : identityReadable (next.durable (1 - slot)) = .ok value)
    (same : next.visible (1 - slot) = next.durable (1 - slot))
    (later : value.txnId.toNat = top.txnId.toNat + 1) :
    Settled (fun other => published other ∨ other = value) next value (1 - slot) where
  current := read
  same := same
  placed := by rw [parity_next later, settled.placed]
  durable page other held := by
    rcases eq_or_other slot page with rfl | rfl
    · exact Or.inl (settled.durable page other (kept ▸ held))
    · exact Or.inr (Except.ok.inj (held.symm.trans read))
  beside := by
    rw [other_other, kept, seen]
    exact Or.inl settled.same
  bounded := by
    rintro other (earlier | rfl)
    · have bound := settled.bounded other earlier
      omega
    · exact le_rfl
  unique := by
    rintro left right (first | rfl) (second | rfl) equal
    · exact settled.unique left right first second equal
    · have bound := settled.bounded left first
      rw [equal] at bound
      omega
    · have bound := settled.bounded right second
      rw [← equal] at bound
      omega
    · rfl

end

def Grown (published : MetaV4 → Prop) (file : MetaFile) : Prop :=
  ∃ larger : MetaV4 → Prop, (∀ value, published value → larger value) ∧
    ∃ top slot, Settled larger file top slot

theorem Settled.grown (settled : Settled published file top slot) : Grown published file :=
  ⟨published, fun _ member => member, top, slot, settled⟩

theorem Settled.grown_advance
    (settled : Settled (fun other => published other ∨ other = value) file top slot) :
    Grown published file :=
  ⟨_, fun _ member => Or.inl member, top, slot, settled⟩

section

variable (settled : Settled published file top slot)

include settled

theorem Settled.beside_cases :
    file.visible (1 - slot) = file.durable (1 - slot) ∨ Torn (file.visible (1 - slot)) ∨
      ∃ value, identityReadable (file.visible (1 - slot)) = .ok value ∧
        value.txnId.toNat = top.txnId.toNat + 1 := by
  rcases settled.beside with same | pending
  · exact Or.inl same
  · cases read : identityReadable (file.visible (1 - slot)) with
    | error problem => exact Or.inr (Or.inl fun value held => by rw [read] at held; cases held)
    | ok value => exact Or.inr (Or.inr ⟨value, rfl, pending value read⟩)

theorem Settled.flush
    (kept : next.durable slot = file.durable slot) (seen : next.visible slot = file.visible slot)
    (flushed : next.durable (1 - slot) = file.visible (1 - slot))
    (same : next.visible (1 - slot) = next.durable (1 - slot)) : Grown published next := by
  rcases settled.beside_cases with equal | torn | ⟨value, read, later⟩
  · exact (settled.stay kept seen (Or.inl (flushed.trans equal)) (Or.inl same)).grown
  · exact (settled.stay kept seen (Or.inr (flushed ▸ torn)) (Or.inl same)).grown
  · exact (settled.advance kept seen (flushed ▸ read) same later).grown_advance

theorem Settled.settles (step : Settles file next) : Grown published next := by
  cases step with
  | sync => exact settled.flush settled.same rfl rfl rfl
  | writeback page =>
    rcases eq_or_other slot page with rfl | rfl
    · have unchanged : Function.update file.durable page (file.visible page) = file.durable := by
        rw [settled.same, Function.update_eq_self]
      rw [unchanged]
      exact settled.grown
    · have flushed : Function.update file.durable (1 - slot) (file.visible (1 - slot)) (1 - slot) =
          file.visible (1 - slot) := Function.update_self _ _ _
      exact settled.flush (Function.update_of_ne (other_ne slot).symm _ _) rfl flushed flushed.symm
  | @powerLoss pages survives =>
    have kept : pages slot = file.durable slot := by
      rcases survives slot with old | new | ⟨differ, _⟩
      · exact old
      · exact new.trans settled.same
      · exact absurd settled.same.symm differ
    have seen : pages slot = file.visible slot := kept.trans settled.same.symm
    rcases survives (1 - slot) with old | new | ⟨_, torn⟩
    · exact (settled.stay kept seen (Or.inl old) (Or.inl rfl)).grown
    · exact settled.flush kept seen new rfl
    · exact (settled.stay kept seen (Or.inr torn) (Or.inl rfl)).grown

variable {selected : MetaV4} {page : Fin 2}

theorem Settled.selects (paired : Paired file.visible selected page) :
    (selected = top ∧ page = slot ∧ file.visible (1 - slot) = file.durable (1 - slot)) ∨
      (page = 1 - slot ∧ selected.txnId.toNat = top.txnId.toNat + 1) := by
  have last : identityReadable (file.visible slot) = .ok top := by rw [settled.same, settled.current]
  obtain ⟨lower, readLower, order⟩ := paired.previous
  rcases eq_or_other slot page with rfl | rfl
  · have isTop : selected = top := Except.ok.inj (paired.current.symm.trans last)
    subst isTop
    rcases settled.beside with same | pending
    · exact Or.inl ⟨rfl, rfl, same⟩
    · have later := pending lower readLower
      rcases order with rfl | less <;> omega
  · rw [other_other] at readLower
    have isTop : lower = top := Except.ok.inj (readLower.symm.trans last)
    subst isTop
    rcases order with rfl | next
    · -- both pages would hold the last generation, and its page is the other one
      have placed := paired.parity
      rw [settled.placed] at placed
      exact absurd placed.symm (other_ne slot)
    · exact Or.inr ⟨rfl, next.symm⟩

end

theorem draftTxn_toNat {base next : UInt64} (drafted : draftTxn base = .ok next) :
    next.toNat = base.toNat + 1 := by
  rw [draftTxn] at drafted
  split at drafted
  · rename_i room
    cases drafted
    rw [UInt64.toNat_add, Nat.mod_eq_of_lt]
    · rfl
    · exact room
  · cases drafted

theorem Settled.sync_selected (settled : Settled published file top slot)
    (paired : Paired file.visible selected page) :
    ∃ larger : MetaV4 → Prop, (∀ value, published value → larger value) ∧
      Settled larger file.sync selected page := by
  rcases settled.selects paired with ⟨rfl, rfl, same⟩ | ⟨rfl, later⟩
  · exact ⟨published, fun _ member => member, settled.stay settled.same rfl (Or.inl same) (Or.inl rfl)⟩
  · refine ⟨fun other => published other ∨ other = selected, fun _ member => Or.inl member, ?_⟩
    exact settled.advance settled.same rfl paired.current rfl later

theorem Settled.write_other {page : Bytes} (settled : Settled published file top slot)
    (allowed : ∀ value, identityReadable page = .ok value → value.txnId.toNat = top.txnId.toNat + 1) :
    Settled published (file.write (1 - slot) page) top slot := by
  refine settled.stay rfl ?_ (Or.inl rfl) (Or.inr ?_)
  · exact Function.update_of_ne (other_ne slot).symm _ _
  · intro value read
    simp only [MetaFile.write, Function.update_self] at read
    exact allowed value read

theorem Settled.publishes {around : Surroundings} (settled : Settled published file top slot)
    (paired : Paired file.visible selected page) (torn : Torn around.torn)
    (later : value.txnId.toNat = selected.txnId.toNat + 1)
    (readable : identityReadable (encodeMapped value) = .ok value)
    (leaves : PublishLeaves around (1 - page) value file next) : Grown published next := by
  obtain ⟨larger, inside, synced⟩ := settled.sync_selected paired
  have written : Settled larger (file.sync.write (1 - page) (encodeMapped value)) selected page := by
    refine synced.write_other ?_
    intro other read
    rw [← Except.ok.inj (readable.symm.trans read), later]
  have grown {reached : MetaFile} (done : Grown larger reached) : Grown published reached := by
    obtain ⟨more, further, rest⟩ := done
    exact ⟨more, fun other member => further other (inside other member), rest⟩
  cases leaves with
  | untouched => exact settled.grown
  | synced => exact grown synced.grown
  | torn => exact grown (synced.write_other fun other read => absurd read (torn other)).grown
  | written => exact grown written.grown
  | published => exact grown (written.settles .sync)

end Generations

section Runs

variable {history past future : List Moment} {now moment : Moment} {value attempt : MetaV4}

theorem Known.mono (known : Known past value) (inside : past ⊆ history) : Known history value := by
  obtain ⟨moment, member, held⟩ := known
  exact ⟨moment, inside member, held⟩

variable {physicalBytes : Nat} {next file : MetaFile} {selected : MetaV4} {slot page : Fin 2}
  {around : Surroundings} {published : MetaV4 → Prop}

theorem encoded_readable {base : Bootstrap} {pages : Pages}
    (opened : openMetaPages pages physicalBytes .writer = .ok base)
    (drafted : DraftOf base.value value) :
    identityReadable (encodeMapped value) = .ok value := by
  apply identityReadable_encodeMapped
  obtain ⟨slot, read⟩ := open_reads opened
  have identity := drafted.identity
  simp only [MetaV4.staticIdentityEq, Bool.and_eq_true, decide_eq_true_eq] at identity
  rw [identity.2]
  exact (identityReadable_decodes read).2

theorem Grown.settled_published {attempt : Option MetaV4} (grown : Grown (Published past) next) :
    ∃ top slot, Settled (Published ({ file := next, attempt } :: past)) next top slot := by
  obtain ⟨larger, inside, top, slot, settled⟩ := grown
  refine ⟨top, slot, settled.restrict ?_ ?_⟩
  · rintro value ⟨moment, member, page, held⟩
    rcases mem_cons.mp member with rfl | earlier
    · exact settled.durable page value held
    · exact inside value ⟨moment, earlier, page, held⟩
  · intro page value held
    exact ⟨_, mem_cons_self, page, held⟩

theorem Paired.reads {pages : Pages} (paired : Paired pages selected slot)
    (read : identityReadable (pages page) = .ok value) :
    value = selected ∨ value.txnId.toNat + 1 = selected.txnId.toNat := by
  rcases eq_or_other slot page with rfl | rfl
  · exact Or.inl (Except.ok.inj (read.symm.trans paired.current))
  · obtain ⟨lower, readLower, order⟩ := paired.previous
    rw [Except.ok.inj (read.symm.trans readLower)]
    exact order

theorem Paired.settled (paired : Paired file.visible selected slot)
    (same : file.durable = file.visible) :
    Settled (Published [{ file, attempt := none }]) file selected slot := by
  have only {value : MetaV4} (published : Published [{ file, attempt := none }] value) :
      ∃ page, identityReadable (file.visible page) = .ok value := by
    obtain ⟨moment, member, page, held⟩ := published
    obtain rfl := mem_singleton.mp member
    exact ⟨page, same ▸ held⟩
  refine ⟨?_, ?_, paired.parity, ?_, ?_, ?_, ?_⟩
  · rw [same]
    exact paired.current
  · rw [same]
  · intro page value held
    exact ⟨_, mem_singleton_self _, page, held⟩
  · rw [same]
    exact Or.inl rfl
  · intro value published
    obtain ⟨page, held⟩ := only published
    rcases paired.reads held with rfl | next <;> omega
  · intro left right first second equal
    obtain ⟨pageLeft, heldLeft⟩ := only first
    obtain ⟨pageRight, heldRight⟩ := only second
    have numbers : left.txnId.toNat = right.txnId.toNat := congrArg UInt64.toNat equal
    by_cases here : pageLeft = pageRight
    · subst here
      exact Except.ok.inj (heldLeft.symm.trans heldRight)
    · -- one of the two pages is the selected one
      have chosen : left = selected ∨ right = selected := by
        rcases eq_or_other slot pageLeft with rfl | rfl
        · exact Or.inl (Except.ok.inj (heldLeft.symm.trans paired.current))
        · rcases eq_or_other slot pageRight with rfl | rfl
          · exact Or.inr (Except.ok.inj (heldRight.symm.trans paired.current))
          · exact absurd rfl here
      rcases chosen with rfl | rfl
      · rcases paired.reads heldRight with rfl | next
        · rfl
        · omega
      · rcases paired.reads heldLeft with rfl | next
        · rfl
        · omega

theorem History.settled (run : History (now :: past)) :
    ∃ top slot, Settled (Published (now :: past)) now.file top slot := by
  generalize whole : now :: past = history at run
  induction run generalizing now past with
  | @opened file physicalBytes base same opened =>
    cases whole
    exact ⟨_, _, (open_paired opened (by nofun)).settled same⟩
  | settles _ step ih =>
    cases whole
    obtain ⟨top, slot, settled⟩ := ih rfl
    exact (settled.settles step).settled_published
  | attempts _ opened drafted torn _ ih =>
    cases whole
    obtain ⟨top, slot, settled⟩ := ih rfl
    have paired := open_paired opened (by nofun)
    have grown := settled.publishes paired torn (draftTxn_toNat drafted.next)
      (encoded_readable opened drafted) publish_leaves
    exact grown.settled_published

theorem Settles.held (step : Settles file next)
    (read : identityReadable (next.visible page) = .ok value ∨
      identityReadable (next.durable page) = .ok value) :
    identityReadable (file.visible page) = .ok value ∨
      identityReadable (file.durable page) = .ok value := by
  cases step with
  | sync => exact Or.inl (read.elim id id)
  | writeback slot =>
    by_cases here : page = slot
    · subst here
      simp only [Function.update_self] at read
      exact Or.inl (read.elim id id)
    · simp only [Function.update_of_ne here] at read
      exact read
  | @powerLoss pages survives =>
    have held : identityReadable (pages page) = .ok value := read.elim id id
    rcases survives page with old | new | ⟨_, torn⟩
    · exact Or.inr (old ▸ held)
    · exact Or.inl (new ▸ held)
    · exact absurd held (torn value)

theorem PublishLeaves.held {target : Fin 2} {attempt : MetaV4}
    (leaves : PublishLeaves around target attempt file next) (torn : Torn around.torn)
    (readable : identityReadable (encodeMapped attempt) = .ok attempt)
    (read : identityReadable (next.visible page) = .ok value ∨
      identityReadable (next.durable page) = .ok value) :
    identityReadable (file.visible page) = .ok value ∨
      identityReadable (file.durable page) = .ok value ∨ value = attempt := by
  have afterWrite {bytes : Bytes}
      (read : identityReadable (Function.update file.visible target bytes page) = .ok value) :
      identityReadable (file.visible page) = .ok value ∨ identityReadable bytes = .ok value := by
    by_cases here : page = target
    · subst here
      rw [Function.update_self] at read
      exact Or.inr read
    · rw [Function.update_of_ne here] at read
      exact Or.inl read
  have encoded (held : identityReadable (encodeMapped attempt) = .ok value) : value = attempt :=
    Except.ok.inj (held.symm.trans readable)
  cases leaves with
  | untouched => exact read.imp id Or.inl
  | synced => exact Or.inl (read.elim id id)
  | torn =>
    rcases read with seen | stored
    · exact (afterWrite seen).imp id fun held => absurd held (torn value)
    · exact Or.inl stored
  | written =>
    rcases read with seen | stored
    · exact (afterWrite seen).imp id fun held => Or.inr (encoded held)
    · exact Or.inl stored
  | published =>
    exact (afterWrite (read.elim id id)).imp id fun held => Or.inr (encoded held)

theorem History.durable_known (run : History (now :: past))
    (read : identityReadable (now.file.durable page) = .ok value) : Known (now :: past) value := by
  generalize whole : now :: past = history at run
  induction run generalizing now past with
  | opened same _ =>
    cases whole
    exact ⟨_, mem_singleton_self _, Or.inr ⟨page, same ▸ read⟩⟩
  | @settles before earlier next _ step ih =>
    cases whole
    rcases step.held (Or.inr read) with seen | stored
    · exact ⟨before, by simp, Or.inr ⟨page, seen⟩⟩
    · exact (ih stored rfl).mono (subset_cons_self _ _)
  | @attempts before earlier _ _ made _ _ opened drafted torn _ ih =>
    cases whole
    rcases publish_leaves.held torn (encoded_readable opened drafted) (Or.inr read) with
      seen | stored | rfl
    · exact ⟨before, by simp, Or.inr ⟨page, seen⟩⟩
    · exact (ih stored rfl).mono (subset_cons_self _ _)
    · exact ⟨_, mem_cons_self, Or.inl rfl⟩

theorem Known.settles (run : History (now :: past)) (step : Settles now.file next)
    (known : Known ({ file := next, attempt := none } :: now :: past) value) :
    Known (now :: past) value := by
  obtain ⟨moment, member, held⟩ := known
  rcases mem_cons.mp member with rfl | earlier
  · rcases held with impossible | ⟨page, read⟩
    · cases impossible
    · rcases step.held (Or.inl read) with seen | stored
      · exact ⟨now, mem_cons_self, Or.inr ⟨page, seen⟩⟩
      · exact run.durable_known stored
  · exact ⟨moment, earlier, held⟩

theorem Known.attempts {target : Fin 2} (run : History (now :: past))
    (leaves : PublishLeaves around target attempt now.file next) (torn : Torn around.torn)
    (readable : identityReadable (encodeMapped attempt) = .ok attempt)
    (known : Known ({ file := next, attempt := some attempt } :: now :: past) value) :
    Known (now :: past) value ∨ value = attempt := by
  obtain ⟨moment, member, held⟩ := known
  rcases mem_cons.mp member with rfl | earlier
  · rcases held with made | ⟨page, read⟩
    · exact Or.inr (Option.some.inj made).symm
    · rcases leaves.held torn readable (Or.inl read) with seen | stored | same
      · exact Or.inl ⟨now, mem_cons_self, Or.inr ⟨page, seen⟩⟩
      · exact Or.inl (run.durable_known stored)
      · exact Or.inr same
  · exact Or.inl ⟨moment, earlier, held⟩

theorem History.known_unique (run : History history) {left right : MetaV4}
    (first : Known history left) (second : Known history right)
    (txn : left.txnId = right.txnId) (nonce : left.commitNonce = right.commitNonce) : left = right := by
  induction run with
  | @opened file _ _ same opened =>
    have stored {value : MetaV4} (known : Known [{ file, attempt := none }] value) :
        Published [{ file, attempt := none }] value := by
      obtain ⟨moment, member, held⟩ := known
      obtain rfl := mem_singleton.mp member
      rcases held with impossible | ⟨page, read⟩
      · cases impossible
      · exact ⟨_, mem_singleton_self _, page, same ▸ read⟩
    have settled := (open_paired opened (by nofun)).settled same
    exact settled.unique left right (stored first) (stored second) txn
  | settles run step ih => exact ih (first.settles run step) (second.settles run step)
  | attempts run opened drafted torn fresh ih =>
    have readable := encoded_readable opened drafted
    rcases first.attempts run publish_leaves torn readable with before | rfl
    · rcases second.attempts run publish_leaves torn readable with earlier | rfl
      · exact ih before earlier
      · exact absurd ⟨txn, nonce⟩ (fresh left before)
    · rcases second.attempts run publish_leaves torn readable with earlier | rfl
      · exact absurd ⟨txn.symm, nonce.symm⟩ (fresh right earlier)
      · rfl

def Absent (file : MetaFile) (value : MetaV4) : Prop :=
  ∀ page, identityReadable (file.visible page) ≠ .ok value ∧
    identityReadable (file.durable page) ≠ .ok value

theorem History.stays_absent (run : History (future ++ now :: past))
    (known : Known (now :: past) attempt)
    (gone : Absent now.file attempt) : ∀ moment ∈ future ++ [now], Absent moment.file attempt := by
  induction future with
  | nil =>
    intro moment member
    rw [mem_singleton.mp member]
    exact gone
  | cons last rest ih =>
    obtain ⟨before, earlier, split⟩ : ∃ before earlier, rest ++ now :: past = before :: earlier := by
      cases rest with
      | nil => exact ⟨now, past, rfl⟩
      | cons before others => exact ⟨before, others ++ now :: past, rfl⟩
    have among : before ∈ rest ++ [now] := by
      cases rest with
      | nil =>
        cases split
        simp
      | cons other others =>
        cases split
        simp
    have stillKnown : Known (before :: earlier) attempt :=
      known.mono (split ▸ subset_append_right _ _)
    rw [cons_append, split] at run
    have absent (run : History (before :: earlier)) : Absent before.file attempt :=
      ih (split ▸ run) before among
    intro moment member
    cases run with
    | settles run step =>
      rcases mem_cons.mp member with rfl | older
      · refine fun page => not_or.mp fun read => ?_
        rcases step.held read with seen | stored
        · exact (absent run page).1 seen
        · exact (absent run page).2 stored
      · exact ih (split ▸ run) moment older
    | attempts run opened drafted torn fresh =>
      rcases mem_cons.mp member with rfl | older
      · refine fun page => not_or.mp fun read => ?_
        rcases publish_leaves.held torn (encoded_readable opened drafted) read
          with seen | stored | rfl
        · exact (absent run page).1 seen
        · exact (absent run page).2 stored
        · exact fresh attempt stillKnown ⟨rfl, rfl⟩
      · exact ih (split ▸ run) moment older

theorem Settled.le_selected {top : MetaV4} (settled : Settled published file top slot)
    (paired : Paired file.visible selected page) : top.txnId.toNat ≤ selected.txnId.toNat := by
  rcases settled.selects paired with ⟨rfl, _⟩ | ⟨_, next⟩
  · exact le_rfl
  · omega

theorem Settled.same_generation {top other : MetaV4} (settled : Settled published file top slot)
    (stored : published other) (read : identityReadable (file.visible page) = .ok value)
    (txn : value.txnId = other.txnId) :
    value = other := by
  have bound := settled.bounded other stored
  rw [← txn] at bound
  rcases eq_or_other slot page with rfl | rfl
  · rw [settled.same] at read
    exact settled.unique _ _ (settled.durable _ _ read) stored txn
  · rcases settled.beside with same | pending
    · rw [same] at read
      exact settled.unique _ _ (settled.durable _ _ read) stored txn
    · have later := pending value read
      omega

theorem History.not_published (run : History (now :: past))
    (paired : Paired now.file.visible selected slot)
    (resolves : Resolves now.file.visible attempt.txnId attempt.commitNonce .notCommitted selected) :
    ¬ Published (now :: past) attempt := by
  intro published
  obtain ⟨top, page, settled⟩ := run.settled
  rcases resolves.notCommitted rfl with below | ⟨other, value, read, txn⟩
  · have bound := settled.bounded attempt published
    have order := settled.le_selected paired
    have less := UInt64.lt_iff_toNat_lt.mp below
    omega
  · obtain rfl := settled.same_generation published read txn
    exact resolves.absent (by nofun) other value read rfl rfl

theorem History.superseded (run : History (now :: past))
    (paired : Paired now.file.visible selected slot)
    (resolves : Resolves now.file.visible attempt.txnId attempt.commitNonce .supersededUnknown
      selected) :
    ∃ later, Published (now :: past) later ∧ attempt.txnId.toNat < later.txnId.toNat := by
  obtain ⟨top, page, settled⟩ := run.settled
  obtain ⟨above, missing⟩ := resolves.superseded rfl
  have less := UInt64.lt_iff_toNat_lt.mp above
  refine ⟨top, settled.durable _ _ settled.current, ?_⟩
  have shown : identityReadable (now.file.visible page) = .ok top := by
    rw [settled.same, settled.current]
  have differs : top.txnId.toNat ≠ attempt.txnId.toNat := fun equal =>
    missing page top shown (UInt64.toNat_inj.mp equal)
  rcases settled.selects paired with ⟨rfl, _⟩ | ⟨_, next⟩ <;> omega

theorem Attempted.known (made : Attempted history attempt) : Known history attempt := by
  obtain ⟨moment, member, same⟩ := made
  exact ⟨moment, member, Or.inl same⟩

theorem History.committed (run : History (now :: past)) (made : Attempted (now :: past) attempt)
    (resolves : Resolves now.file.visible attempt.txnId attempt.commitNonce .committed selected) :
    ∃ page, identityReadable (now.file.visible page) = .ok attempt := by
  obtain ⟨page, value, read, txn, nonce⟩ := resolves.committed rfl
  have known : Known (now :: past) value := ⟨now, mem_cons_self, Or.inr ⟨page, read⟩⟩
  rw [← run.known_unique known made.known txn nonce]
  exact ⟨page, read⟩

theorem resolveLocked_committed {reached : MetaFile} {syncs : Bool}
    (resolved : resolveLocked file physicalBytes attempt syncs = (reached, .committed)) :
    reached = file.sync ∧ resolveCommitAttempt file.visible physicalBytes attempt.databaseId
      attempt.txnId attempt.commitNonce = .ok .committed := by
  rw [resolveLocked] at resolved
  cases classified : classify file.visible physicalBytes attempt with
  | error problem =>
    rw [classified] at resolved
    cases resolved
  | ok first =>
    have again : classify file.sync.visible physicalBytes attempt = .ok first := classified
    obtain ⟨selected, _, rest⟩ := bind_eq_ok.mp classified
    obtain ⟨resolution, known, same⟩ := bind_eq_ok.mp rest
    cases same
    cases syncs with
    | false =>
      rw [classified] at resolved
      cases resolved
    | true =>
      simp only [classified, again, Bool.not_true, Bool.false_eq_true, if_false, ne_eq,
        not_true_eq_false, Prod.mk.injEq] at resolved
      refine ⟨resolved.1.symm, ?_⟩
      rw [known]
      cases resolution
      · rfl
      · cases resolved.2
      · cases resolved.2

/-- What a resolver answers about an attempt is what became of it, over every history of
attempts that end in any way. If it reads the attempt as committed, its page is complete,
and the resolver itself answers so only once that page is durable. If it reads it as not
committed, the generation never was durable, and nobody will ever select it. A superseded
attempt has a later durable generation. Transaction ids are compared as numbers: they
never wrap. -/
theorem commit_attempts_resolve (run : History (now :: past)) (made : Attempted (now :: past) attempt)
    (physicalBytes : Nat) :
    (∀ resolution, resolveCommitAttempt now.file.visible physicalBytes attempt.databaseId attempt.txnId
        attempt.commitNonce = .ok resolution →
      (resolution = .committed → ∃ page, identityReadable (now.file.visible page) = .ok attempt) ∧
      (resolution = .notCommitted → ∀ future, History (future ++ now :: past) →
        ¬ Published (future ++ now :: past) attempt ∧
        ∀ moment ∈ future ++ [now], ∀ size mode base,
          openMetaPages moment.file.visible size mode = .ok base → base.value ≠ attempt) ∧
      (resolution = .supersededUnknown →
        ∃ later, Published (now :: past) later ∧ attempt.txnId.toNat < later.txnId.toNat)) ∧
    (∀ file syncs, resolveLocked now.file physicalBytes attempt syncs = (file, .committed) →
      Published ({ file, attempt := none } :: now :: past) attempt) ∧
    ∀ base, openMetaPages now.file.visible physicalBytes .writer = .ok base →
      (∀ page value, identityReadable (now.file.visible page) = .ok value →
        value.txnId.toNat ≤ base.value.txnId.toNat ∧
          base.value.txnId.toNat ≤ value.txnId.toNat + 1) ∧
      ∀ next, draftTxn base.value.txnId = .ok next → next.toNat = base.value.txnId.toNat + 1 := by
  refine ⟨?_, ?_, ?_⟩
  · intro resolution resolved
    obtain ⟨selected, slot, paired, resolves⟩ := resolveCommitAttempt_resolves resolved
    refine ⟨?_, ?_, ?_⟩
    · rintro rfl
      exact run.committed made resolves
    · rintro rfl future longer
      have unpublished := run.not_published paired resolves
      have gone : Absent now.file attempt := by
        intro page
        refine ⟨fun read => ?_, fun read => unpublished ⟨now, mem_cons_self, page, read⟩⟩
        exact resolves.absent (by nofun) page attempt read rfl rfl
      have absent := longer.stays_absent made.known gone
      constructor
      · rintro ⟨moment, member, page, read⟩
        rcases mem_append.mp member with later | earlier
        · exact (absent moment (mem_append_left _ later) page).2 read
        · exact unpublished ⟨moment, earlier, page, read⟩
      · rintro moment member size mode base opened rfl
        obtain ⟨page, read⟩ := open_reads opened
        exact (absent moment member page).1 read
    · rintro rfl
      exact run.superseded paired resolves
  · intro file syncs resolved
    obtain ⟨rfl, known⟩ := resolveLocked_committed resolved
    obtain ⟨selected, slot, _, resolves⟩ := resolveCommitAttempt_resolves known
    obtain ⟨page, read⟩ := run.committed made resolves
    exact ⟨_, mem_cons_self, page, read⟩
  · intro base opened
    refine ⟨?_, fun next drafted => draftTxn_toNat drafted⟩
    intro page value read
    rcases (open_paired opened (by nofun)).reads read with rfl | next <;> omega

/-- No durable generation is rolled back: the newest one stays on a page of its own, and
whoever opens the file to write or to follow it selects it or its successor. -/
theorem durable_generations_last (run : History (now :: past)) :
    ∃ top slot, identityReadable (now.file.durable slot) = .ok top ∧
      now.file.visible slot = now.file.durable slot ∧
      (∀ value, Published (now :: past) value → value.txnId.toNat ≤ top.txnId.toNat ∧
        (value.txnId = top.txnId → value = top)) ∧
      ∀ size mode base, openMetaPages now.file.visible size mode = .ok base →
        mode ≠ .immutableReader →
        base.value = top ∨ base.value.txnId.toNat = top.txnId.toNat + 1 := by
  obtain ⟨top, slot, settled⟩ := run.settled
  refine ⟨top, slot, settled.current, settled.same, fun value stored => ⟨settled.bounded value stored,
    settled.unique value top stored (settled.durable slot top settled.current)⟩, ?_⟩
  intro size mode base opened live
  exact (settled.selects (open_paired opened live)).imp And.left And.right

end Runs

def sampleArray (byte : UInt8) : Array16 := ⟨List.replicate 16 byte, by simp⟩

def sampleMeta (txnId : UInt64) (nonce : UInt8) : MetaV4 where
  addressFamily := .ipv4
  valueKind := .direct
  structureKindCode := 0
  valueTag := ⟨Array16.zero, by decide⟩
  databaseId := sampleArray 7
  txnId
  commitNonce := sampleArray nonce
  pageCount := 2
  rangeRecordCount := 0
  activeFeedCount := 0
  feedIndexLimit := 0
  membershipEntryCount := 0
  membershipIdLimit := 0
  metadataUncompressedLen := 0
  metadataCompressedLen := 0
  retiredExtentCount := 0
  rangeRoot := 0
  catalogNameRoot := 0
  catalogIndexRoot := 0
  feedUsedRoot := 0
  membershipIdRoot := 0
  membershipHashRoot := 0
  membershipUsedRoot := 0
  metadataRoot := 0
  freeBitmapRoot := 0
  retirementRoot := 0
  allocatorReserve := (0, 0, 0, 0)
  structureEntryCount := 0
  structureIdLimit := 0
  structureIdRoot := 0
  structureHashRoot := 0
  structureUsedRoot := 0

def sampleFile : MetaFile where
  visible _ := encodeMapped (sampleMeta 1 1)
  durable _ := encodeMapped (sampleMeta 1 1)

def sampleSurroundings : Surroundings where
  fault point := if point = .metaSync then .refuse else .pass
  torn := []

def sampleBase : Bootstrap where
  value := sampleMeta 1 1
  selection := .provenCurrent
  selectedMetaPage := 1
  committedBytes := 8192
  physicalBytes := 8192

def sampleAttempt : Moment where
  file := leaves (publish sampleSurroundings sampleBase (sampleMeta 2 2)) sampleFile
  attempt := some (sampleMeta 2 2)

theorem sample_readable (txnId : UInt64) (nonce : UInt8) :
    identityReadable (encodeMapped (sampleMeta txnId nonce)) = .ok (sampleMeta txnId nonce) := by
  have known : sampleArray 7 ≠ Array16.zero := by decide
  exact identityReadable_encodeMapped known

theorem sample_candidate {txnId : UInt64} {nonce : UInt8} {pages : Pages} {slot : Fin 2}
    (page : pages slot = encodeMapped (sampleMeta txnId nonce))
    (valid : bootstrapValid (sampleMeta txnId nonce) 8192 = .ok (sampleMeta txnId nonce)) :
    candidate pages 8192 slot = .ok (sampleMeta txnId nonce) := by
  rw [candidate, page, sample_readable]
  exact valid

theorem sample_leaves (value : MetaV4) (file : MetaFile) :
    leaves (publish sampleSurroundings sampleBase value) file =
      file.sync.write 0 (encodeMapped value) := rfl

theorem sample_pages : sampleAttempt.file.visible 0 = encodeMapped (sampleMeta 2 2) ∧
    sampleAttempt.file.visible 1 = encodeMapped (sampleMeta 1 1) := by
  rw [sampleAttempt, sample_leaves]
  simp [MetaFile.write, MetaFile.sync, sampleFile]

theorem selectPair_same (page : Bytes) (value : MetaV4) :
    selectPair (fun _ => page) value value = .ok (value, .provenCurrent, parity value.txnId) :=
  (if_pos rfl).trans (if_pos rfl)

theorem sample_opened : openMetaPages sampleFile.visible 8192 .writer = .ok sampleBase := by
  have read (slot : Fin 2) : identityReadable (sampleFile.visible slot) = .ok (sampleMeta 1 1) :=
    sample_readable 1 1
  have valid (slot : Fin 2) : candidate sampleFile.visible 8192 slot = .ok (sampleMeta 1 1) :=
    sample_candidate rfl (by decide +kernel)
  have chosen : selectCandidates sampleFile.visible 8192 = .ok (sampleMeta 1 1, .provenCurrent, 1) :=
    (selectCandidates_pair (valid 0) (valid 1)).trans (selectPair_same _ _)
  rw [openMetaPages, requireSameIdentity_of_eq (read 0) (read 1) (by decide +kernel), chosen]
  decide +kernel

theorem sample_resolved : resolveCommitAttempt sampleAttempt.file.visible 8192 (sampleArray 7) 2
    (sampleArray 2) = .ok .committed := by
  have read0 := congrArg identityReadable sample_pages.1
  have read1 := congrArg identityReadable sample_pages.2
  rw [sample_readable] at read0 read1
  have valid0 : candidate sampleAttempt.file.visible 8192 0 = .ok (sampleMeta 2 2) :=
    sample_candidate sample_pages.1 (by decide +kernel)
  have valid1 : candidate sampleAttempt.file.visible 8192 1 = .ok (sampleMeta 1 1) :=
    sample_candidate sample_pages.2 (by decide +kernel)
  have chosen : selectCandidates sampleAttempt.file.visible 8192 =
      .ok (sampleMeta 2 2, .provenCurrent, 0) := by
    rw [selectCandidates_pair valid0 valid1, selectPair, if_neg (by decide +kernel)]
    decide +kernel
  have opened : openMetaPages sampleAttempt.file.visible 8192 .writer =
      .ok { sampleBase with value := sampleMeta 2 2, selectedMetaPage := 0 } := by
    rw [openMetaPages, requireSameIdentity_of_eq read0 read1 (by decide +kernel), chosen]
    decide +kernel
  exact (resolveCommitAttempt_eq opened valid0 valid1).trans (by decide +kernel)

theorem sample_history : History [sampleAttempt, { file := sampleFile, attempt := none }] := by
  refine .attempts (.opened rfl sample_opened) sample_opened ⟨by decide +kernel, by decide +kernel⟩ ?_ ?_
  · intro value read
    have refused : identityReadable [] = .error .magic := by decide +kernel
    rw [sampleSurroundings, refused] at read
    cases read
  · rintro other ⟨moment, member, held⟩ ⟨txn, _⟩
    obtain rfl := mem_singleton.mp member
    rcases held with impossible | ⟨slot, read⟩
    · cases impossible
    · rw [sampleFile, sample_readable] at read
      cases read
      exact absurd txn (by decide)

theorem commit_attempts_resolve_sample :
    resolveCommitAttempt sampleAttempt.file.visible 8192 (sampleArray 7) 2 (sampleArray 2) =
      .ok .committed ∧
    ∃ page, identityReadable (sampleAttempt.file.visible page) = .ok (sampleMeta 2 2) := by
  have made : Attempted [sampleAttempt, { file := sampleFile, attempt := none }] (sampleMeta 2 2) :=
    ⟨sampleAttempt, mem_cons_self, rfl⟩
  obtain ⟨answers, _⟩ := commit_attempts_resolve sample_history made 8192
  exact ⟨sample_resolved, (answers _ sample_resolved).1 rfl⟩

theorem durable_generations_last_sample :
    ∃ top slot, identityReadable (sampleAttempt.file.durable slot) = .ok top := by
  obtain ⟨top, slot, read, _⟩ := durable_generations_last sample_history
  exact ⟨top, slot, read⟩

end IpRange.Meta
