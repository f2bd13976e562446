import Mathlib.Data.List.Basic

/-!
A directory as a map from names to inodes whose changes are atomic but survive a
power loss for certain only once the directory has been synchronised. A power
loss keeps some prefix of the changes made since the last synchronisation.
-/

namespace IpRange

open List

inductive Change (Name Inode : Type) where
  | create (name : Name) (inode : Inode)
  | rename (source target : Name)
  | exchange (left right : Name)
  | unlink (name : Name)
deriving DecidableEq, Repr

namespace Change

variable {Name Inode : Type} [DecidableEq Name]

def run (names : Name → Option Inode) : Change Name Inode → Name → Option Inode
  | .create name inode => Function.update names name (some inode)
  | .rename source target => Function.update (Function.update names target (names source)) source none
  | .exchange left right =>
    Function.update (Function.update names left (names right)) right (names left)
  | .unlink name => Function.update names name none

def touches (name : Name) : Change Name Inode → Bool
  | .create created _ => created == name
  | .rename source target => source == name || target == name
  | .exchange left right => left == name || right == name
  | .unlink unlinked => unlinked == name

theorem run_of_not_touches {change : Change Name Inode} {name : Name}
    (untouched : change.touches name = false) (names : Name → Option Inode) :
    change.run names name = names name := by
  cases change with
  | create created inode =>
    have other : name ≠ created := by
      rintro rfl
      simp [touches] at untouched
    simp [run, other]
  | rename source target =>
    obtain ⟨notSource, notTarget⟩ : source ≠ name ∧ target ≠ name := by
      simpa [touches] using untouched
    simp [run, notSource.symm, notTarget.symm]
  | exchange left right =>
    obtain ⟨notLeft, notRight⟩ : left ≠ name ∧ right ≠ name := by
      simpa [touches] using untouched
    simp [run, notLeft.symm, notRight.symm]
  | unlink unlinked =>
    have other : name ≠ unlinked := by
      rintro rfl
      simp [touches] at untouched
    simp [run, other]

end Change

structure Directory (Name Inode : Type) where
  durable : Name → Option Inode
  pending : List (Change Name Inode)

namespace Directory

variable {Name Inode : Type} [DecidableEq Name]

section

variable (directory : Directory Name Inode)

def names : Name → Option Inode :=
  directory.pending.foldl Change.run directory.durable

def perform (change : Change Name Inode) : Directory Name Inode :=
  { directory with pending := directory.pending ++ [change] }

def sync : Directory Name Inode :=
  { durable := directory.names, pending := [] }

/-- A power loss that keeps the first `kept` pending changes. -/
def lose (kept : Nat) : Directory Name Inode :=
  { durable := (directory.pending.take kept).foldl Change.run directory.durable, pending := [] }

end

def entriesAlong (name : Name) : (Name → Option Inode) → List (Change Name Inode) →
    List (Option Inode)
  | names, [] => [names name]
  | names, change :: rest => names name :: entriesAlong name (change.run names) rest

/-- Everything `name` may hold after a power loss. -/
def entries (directory : Directory Name Inode) (name : Name) : List (Option Inode) :=
  entriesAlong name directory.durable directory.pending

def touchedAlong (name : Name) : (Name → Option Inode) → List (Change Name Inode) →
    List (Option Inode)
  | _, [] => []
  | names, change :: rest =>
    if change.touches name then names name :: touchedAlong name (change.run names) rest
    else touchedAlong name (change.run names) rest

def touched (directory : Directory Name Inode) (name : Name) : List (Option Inode) :=
  touchedAlong name directory.durable directory.pending

def Synced (directory : Directory Name Inode) (name : Name) : Prop :=
  ∀ change ∈ directory.pending, change.touches name = false

@[simp] theorem names_perform (directory : Directory Name Inode) (change : Change Name Inode) :
    (directory.perform change).names = change.run directory.names := by
  simp [names, perform]

section Along

variable (name : Name)

section

variable (names : Name → Option Inode) (changes : List (Change Name Inode))

theorem entriesAlong_append (change : Change Name Inode) :
    entriesAlong name names (changes ++ [change]) =
      entriesAlong name names changes ++ [change.run (changes.foldl Change.run names) name] := by
  induction changes generalizing names with
  | nil => rfl
  | cons first rest ih => simp [entriesAlong, ih]

theorem touchedAlong_append (change : Change Name Inode) :
    touchedAlong name names (changes ++ [change]) =
      touchedAlong name names changes ++
        (if change.touches name then [changes.foldl Change.run names name] else []) := by
  induction changes generalizing names with
  | nil => by_cases named : change.touches name <;> simp [touchedAlong, named]
  | cons first rest ih =>
    by_cases named : first.touches name <;> simp [touchedAlong, named, ih]

theorem last_mem_entriesAlong :
    changes.foldl Change.run names name ∈ entriesAlong name names changes := by
  induction changes generalizing names with
  | nil => simp [entriesAlong]
  | cons first rest ih => exact mem_cons_of_mem _ (ih _)

theorem touchedAlong_subset :
    touchedAlong name names changes ⊆ entriesAlong name names changes := by
  induction changes generalizing names with
  | nil => simp [touchedAlong]
  | cons first rest ih =>
    by_cases named : first.touches name
    · simp only [touchedAlong, named, if_true, entriesAlong]
      exact cons_subset_cons _ (ih _)
    · simp only [touchedAlong, named, entriesAlong]
      exact fun entry found => mem_cons_of_mem _ (ih _ found)

end

variable {names : Name → Option Inode} {changes : List (Change Name Inode)} {entry : Option Inode}

theorem mem_entriesAlong (found : entry ∈ entriesAlong name names changes) :
    ∃ kept, (changes.take kept).foldl Change.run names name = entry := by
  induction changes generalizing names with
  | nil =>
    simp only [entriesAlong, mem_singleton] at found
    exact ⟨0, found.symm⟩
  | cons first rest ih =>
    rcases mem_cons.mp found with first | later
    · exact ⟨0, first.symm⟩
    · obtain ⟨kept, held⟩ := ih later
      exact ⟨kept + 1, held⟩

theorem take_mem_entriesAlong (names : Name → Option Inode) (changes : List (Change Name Inode))
    (kept : Nat) :
    (changes.take kept).foldl Change.run names name ∈ entriesAlong name names changes := by
  induction changes generalizing names kept with
  | nil => simp [entriesAlong]
  | cons first rest ih =>
    cases kept with
    | zero => simp [entriesAlong]
    | succ kept => exact mem_cons_of_mem _ (ih _ kept)

theorem entriesAlong_eq_of_untouched (untouched : ∀ change ∈ changes, change.touches name = false)
    (found : entry ∈ entriesAlong name names changes) : entry = names name := by
  induction changes generalizing names with
  | nil => simpa [entriesAlong] using found
  | cons first rest ih =>
    rcases mem_cons.mp found with same | later
    · exact same
    · rw [ih (fun change member => untouched change (mem_cons_of_mem _ member)) later,
        Change.run_of_not_touches (untouched first mem_cons_self)]

theorem exists_touched (names : Name → Option Inode) {change : Change Name Inode}
    (member : change ∈ changes) (named : change.touches name) :
    ∃ entry, entry ∈ touchedAlong name names changes := by
  induction changes generalizing names with
  | nil => cases member
  | cons first rest ih =>
    rcases mem_cons.mp member with same | later
    · subst same
      exact ⟨names name, by simp [touchedAlong, named]⟩
    · obtain ⟨entry, found⟩ := ih (first.run names) later
      refine ⟨entry, ?_⟩
      unfold touchedAlong
      split
      · exact mem_cons_of_mem _ found
      · exact found

theorem touchedAlong_eq_nil (names : Name → Option Inode)
    (untouched : ∀ change ∈ changes, change.touches name = false) :
    touchedAlong name names changes = [] := by
  induction changes generalizing names with
  | nil => rfl
  | cons first rest ih =>
    simp only [touchedAlong, untouched first mem_cons_self]
    exact ih _ fun change member => untouched change (mem_cons_of_mem _ member)

end Along

variable (directory : Directory Name Inode) (name : Name)

theorem names_mem_entries : directory.names name ∈ directory.entries name :=
  last_mem_entriesAlong name directory.durable directory.pending

theorem touched_subset_entries : directory.touched name ⊆ directory.entries name :=
  touchedAlong_subset name directory.durable directory.pending

theorem entries_perform (change : Change Name Inode) :
    (directory.perform change).entries name =
      directory.entries name ++ [change.run directory.names name] :=
  entriesAlong_append name directory.durable directory.pending change

theorem touched_perform (change : Change Name Inode) :
    (directory.perform change).touched name =
      directory.touched name ++ (if change.touches name then [directory.names name] else []) :=
  touchedAlong_append name directory.durable directory.pending change

theorem entries_lose_subset (kept : Nat) :
    (directory.lose kept).entries name ⊆ directory.entries name := by
  intro entry found
  rw [mem_singleton.mp found]
  exact take_mem_entriesAlong name directory.durable directory.pending kept

variable {entry : Option Inode}

theorem exists_lose (found : entry ∈ directory.entries name) :
    ∃ kept, (directory.lose kept).names name = entry :=
  mem_entriesAlong name found

theorem entries_eq_of_synced (synced : directory.Synced name)
    (found : entry ∈ directory.entries name) : entry = directory.names name := by
  have first := entriesAlong_eq_of_untouched name synced found
  have last := entriesAlong_eq_of_untouched name synced (directory.names_mem_entries name)
  rw [first, last]

theorem touched_eq_nil_iff : directory.touched name = [] ↔ directory.Synced name := by
  constructor
  · intro nothing change member
    by_contra named
    obtain ⟨entry, found⟩ := exists_touched name directory.durable member (by simpa using named)
    rw [touched] at nothing
    rw [nothing] at found
    cases found
  · exact touchedAlong_eq_nil name directory.durable

end Directory

end IpRange
