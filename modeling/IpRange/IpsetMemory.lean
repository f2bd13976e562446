import IpRange.IpsetDiff

/-!
The array of a set, IPv4 and IPv6: what is allocated against the `entries_max` that
`ipset_grow` goes by. A write past the allocation ends the run, as nothing is known after it.
-/

namespace IpRange.Memory

open Ipset

/-- What the two kinds of sets differ in. A record that was written becomes at most one entry. -/
structure Family where
  sizeMax : Nat
  recordSize : Nat
  addrMax : Nat
  next : Nat → Nat
  addedEntry : Ipset → Interval → Ipset
  appends : ∀ ips entry, (addedEntry ips entry).entries ≤ ips.entries + 1

/-- A set and how many records its array has room for. -/
structure Stored where
  ips : Ipset
  entriesMax : Nat
  allocated : Nat
deriving DecidableEq

inductive Stop where
  | exits
  | overruns
deriving DecidableEq

inductive Call where
  | addIpRange (from_ to_ : Nat)
  | merge (add : Stored)
  | optimize
deriving DecidableEq

section Model

variable (family : Family) (allocates : Nat → Bool)

/-- `ipset_create`, with no entries and no flag; nothing stands for `NULL`. -/
def create (entries : Nat) : Option Stored :=
  let entriesMax := max entries entriesIncreaseStep
  if family.sizeMax / family.recordSize < entriesMax then none
  else if !allocates (entriesMax * family.recordSize) then none
  else some { ips := Ipset.create, entriesMax, allocated := entriesMax }

def growInternal (stored : Stored) (needed : Nat) : Except Stop Stored :=
  let entriesMax := stored.entriesMax + max needed entriesIncreaseStep
  if family.sizeMax < entriesMax ∨ family.sizeMax / family.recordSize < entriesMax then
    .error .exits
  else if !allocates (entriesMax * family.recordSize) then .error .exits
  else .ok { stored with entriesMax, allocated := entriesMax }

def grow (stored : Stored) (needed : Nat) : Except Stop Stored :=
  if stored.entriesMax - stored.ips.entries < max needed 1 then
    growInternal family allocates stored (max needed 1)
  else .ok stored

def addIpRange (stored : Stored) (from_ to_ : Nat) : Except Stop Stored := do
  let stored ← grow family allocates stored 1
  if stored.allocated ≤ stored.ips.entries then .error .overruns
  else .ok { stored with ips := family.addedEntry stored.ips { low := from_, high := to_ } }

/-- `ipset_merge`, which leaves the set alone when it refuses. -/
def merge (to_ add : Stored) : Except Stop Stored :=
  let totalEntries := to_.ips.entries + add.ips.entries
  let totalLines := to_.ips.lines + add.ips.lines
  if to_.entriesMax < to_.ips.entries ∨ add.entriesMax < add.ips.entries ∨
      family.sizeMax < totalEntries ∨ family.sizeMax / family.recordSize < totalEntries ∨
      family.sizeMax < totalLines then .ok to_
  else do
    let grown ← grow family allocates to_ add.ips.entries
    if grown.allocated < totalEntries then .error .overruns
    else .ok { grown with
      ips := { grown.ips with
        netaddrs := grown.ips.netaddrs ++ add.ips.netaddrs
        lines := totalLines
        optimized := false } }

/-- `ipset_optimize`: the new array is as long as there are entries, whatever `entries_max`. -/
def optimize (stored : Stored) : Except Stop Stored :=
  if stored.ips.optimized then .ok stored
  else
    match stored.ips.netaddrs.mergeSort comparNetaddr with
    | [] => .ok { stored with ips := { stored.ips with optimized := true, uniqueIps := 0 } }
    | first :: rest =>
      if !allocates (stored.ips.entries * family.recordSize) then .error .exits
      else do
        let done ← coalesceLoop family.addrMax family.next
          (fun stored lo hi => do addIpRange family allocates (← stored) lo hi)
          (.ok { stored with
            ips := { stored.ips with netaddrs := [], uniqueIps := 0, lines := 0 }
            allocated := stored.ips.entries })
          first.low first.high rest
        .ok { done with ips := { done.ips with lines := stored.ips.lines, optimized := true } }

def perform (stored : Stored) : Call → Except Stop Stored
  | .addIpRange from_ to_ => addIpRange family allocates stored from_ to_
  | .merge add => merge family allocates stored add
  | .optimize => optimize family allocates stored

end Model

def ipv4 (machine : Machine) : Family where
  sizeMax := machine.sizeMax
  recordSize := Ipset.recordSize
  addrMax := IpRange.addrMax
  next := machine.next
  addedEntry := Ipset.addedEntry machine
  appends ips entry := by
    simp only [Ipset.addedEntry, Ipset.entries]
    grind

def ipv6 (machine : Machine) : Family where
  sizeMax := machine.sizeMax
  recordSize := 32
  addrMax := Ipset6.addrMax
  next address := Ipset6.u128 (address + 1)
  addedEntry := Ipset6.addedEntry machine
  appends ips entry := by
    simp only [Ipset6.addedEntry, Ipset.entries]
    grind

section Runs

variable {family : Family} {allocates : Nat → Bool} {stored : Stored}

def Roomy (stored : Stored) : Prop := stored.entriesMax ≤ stored.allocated

/-- At every point of a run the array has room for `entries_max` records, and no call writes
past it. -/
def Safe (family : Family) (stored : Stored) : List (Call × (Nat → Bool)) → Prop
  | [] => Roomy stored
  | (call, allocates) :: calls =>
    Roomy stored ∧ perform family allocates stored call ≠ .error .overruns ∧
      ∀ next, perform family allocates stored call = .ok next → Safe family next calls

/-- Every optimization of the run finds the flag, no entries, or a full array. -/
def Careful (family : Family) (stored : Stored) : List (Call × (Nat → Bool)) → Prop
  | [] => True
  | (call, allocates) :: calls =>
    ∀ next, perform family allocates stored call = .ok next →
      (call = .optimize → stored.ips.optimized = true ∨ stored.ips.entries = 0 ∨
        stored.ips.entries = stored.entriesMax) ∧
      Careful family next calls

theorem addIpRange_inside (from_ to_ : Nat) (below : stored.ips.entries < stored.entriesMax)
    (inside : stored.ips.entries < stored.allocated) :
    addIpRange family allocates stored from_ to_ =
      .ok { stored with ips := family.addedEntry stored.ips { low := from_, high := to_ } } := by
  have still : grow family allocates stored 1 = .ok stored := by
    rw [grow, if_neg (by omega)]
  rw [addIpRange, still]
  exact if_neg (by omega)

theorem coalesceLoop_inside (lo hi : Nat) {rest : List Interval}
    (below : stored.ips.entries + rest.length < stored.entriesMax)
    (inside : stored.ips.entries + rest.length < stored.allocated) :
    ∃ ips : Ipset, coalesceLoop family.addrMax family.next
        (fun stored lo hi => do addIpRange family allocates (← stored) lo hi)
        (.ok stored) lo hi rest = .ok { stored with ips } ∧
      ips.entries ≤ stored.ips.entries + rest.length + 1 := by
  induction rest generalizing stored lo hi with
  | nil => exact ⟨_, addIpRange_inside lo hi below inside, family.appends _ _⟩
  | cons entry rest ih =>
    rw [List.length_cons] at below inside ⊢
    unfold coalesceLoop
    split
    · obtain ⟨ips, runs, few⟩ := @ih stored lo hi (by omega) (by omega)
      exact ⟨ips, runs, by omega⟩
    · split
      · obtain ⟨ips, runs, few⟩ := @ih stored lo entry.high (by omega) (by omega)
        exact ⟨ips, runs, by omega⟩
      · have added := family.appends stored.ips { low := lo, high := hi }
        obtain ⟨ips, runs, few⟩ := @ih
          { stored with ips := family.addedEntry stored.ips { low := lo, high := hi } }
          entry.low entry.high (by dsimp only; omega) (by dsimp only; omega)
        refine ⟨ips, ?_, by dsimp only at few; omega⟩
        rw [← runs]
        exact congrArg (fun sum => coalesceLoop _ _ _ sum _ _ rest)
          (addIpRange_inside lo hi (by omega) (by omega))

variable (within : stored.ips.entries ≤ stored.entriesMax) (roomy : Roomy stored)

include within roomy

theorem grow_spec (needed : Nat) : grow family allocates stored needed = .error .exits ∨
    ∃ entriesMax allocated, grow family allocates stored needed =
      .ok { stored with entriesMax, allocated } ∧ entriesMax ≤ allocated ∧
        stored.ips.entries + max needed 1 ≤ entriesMax := by
  rw [grow]
  split
  · rw [growInternal]
    split
    · exact Or.inl rfl
    · split
      · exact Or.inl rfl
      · exact Or.inr ⟨_, _, rfl, le_rfl, by omega⟩
  · exact Or.inr ⟨stored.entriesMax, stored.allocated, rfl, roomy, by omega⟩

/-- From an array as long as it says no call writes past it, and only an optimization can leave
a shorter one. -/
theorem perform_spec (call : Call) : perform family allocates stored call = .error .exits ∨
    ∃ next, perform family allocates stored call = .ok next ∧
      next.ips.entries ≤ next.entriesMax ∧
      (Roomy next ↔ (call = .optimize → stored.ips.optimized = true ∨ stored.ips.entries = 0 ∨
        stored.ips.entries = stored.entriesMax)) := by
  cases call with
  | addIpRange from_ to_ =>
    rw [perform, addIpRange]
    rcases @grow_spec family allocates stored within roomy 1 with
      ends | ⟨entriesMax, allocated, grown, room, enough⟩
    · exact Or.inl (by rw [ends]; rfl)
    · have added := family.appends stored.ips { low := from_, high := to_ }
      refine Or.inr ⟨_, by rw [grown]; exact if_neg (by dsimp only; omega), ?_,
        iff_of_true (show _ ≤ _ from room) nofun⟩
      dsimp only
      omega
  | merge add =>
    rw [perform, merge]
    split
    · exact Or.inr ⟨stored, rfl, within, iff_of_true roomy nofun⟩
    rcases @grow_spec family allocates stored within roomy add.ips.entries with
      ends | ⟨entriesMax, allocated, grown, room, enough⟩
    · exact Or.inl (by rw [ends]; rfl)
    · refine Or.inr ⟨_, by rw [grown]; exact if_neg (by dsimp only; omega), ?_,
        iff_of_true (show _ ≤ _ from room) nofun⟩
      simp only [Ipset.entries, List.length_append] at enough ⊢
      omega
  | optimize =>
    rw [perform, optimize]
    split
    · next flag => exact Or.inr ⟨stored, rfl, within, iff_of_true roomy fun _ => Or.inl flag⟩
    · next flag =>
        have length : (stored.ips.netaddrs.mergeSort comparNetaddr).length = stored.ips.entries :=
          List.length_mergeSort _
        split
        · next empty =>
            rw [empty] at length
            exact Or.inr ⟨_, rfl, within, iff_of_true roomy fun _ => Or.inr (Or.inl length.symm)⟩
        · next first rest sorted =>
            rw [sorted, List.length_cons] at length
            split
            · exact Or.inl rfl
            · obtain ⟨ips, runs, few⟩ := @coalesceLoop_inside family allocates
                { stored with
                  ips := { stored.ips with netaddrs := [], uniqueIps := 0, lines := 0 }
                  allocated := stored.ips.entries } first.low first.high rest
                (by show 0 + rest.length < stored.entriesMax; omega)
                (by show 0 + rest.length < stored.ips.entries; omega)
              replace few : ips.entries ≤ 0 + rest.length + 1 := few
              refine Or.inr ⟨_, by rw [runs]; rfl, ?_, ?_⟩
              · show ips.entries ≤ stored.entriesMax
                omega
              · show stored.entriesMax ≤ stored.ips.entries ↔ _
                simp only [flag, forall_const, Bool.false_eq_true, false_or]
                omega

theorem safe_iff_careful (calls : List (Call × (Nat → Bool))) :
    Safe family stored calls ↔ Careful family stored calls := by
  induction calls generalizing stored with
  | nil => exact iff_of_true roomy trivial
  | cons turn calls ih =>
    obtain ⟨call, allocates⟩ := turn
    rw [Safe, Careful]
    rcases @perform_spec family allocates stored within roomy call with
      ends | ⟨next, runs, inside, room⟩
    · simp [ends, roomy]
    · simp only [runs, roomy, Except.ok.injEq, forall_eq', true_and, ne_eq, reduceCtorEq,
        not_false_eq_true, ← room]
      constructor
      · intro safe
        have still : Roomy next := by
          cases calls with
          | nil => exact safe
          | cons turn calls => exact safe.1
        exact ⟨still, (ih inside still).mp safe⟩
      · rintro ⟨still, careful⟩
        exact (ih inside still).mpr careful

end Runs

/-- Over every run of calls on a set that was created, of either kind: its array always has room
for `entries_max` records, and no call writes past it, exactly when each optimization that is
done finds the set flagged, without entries, or with as many as `entries_max`. -/
theorem allocation_holds_iff (machine : Machine) :
    ∀ family ∈ [ipv4 machine, ipv6 machine], ∀ allocates entries start,
      create family allocates entries = some start → ∀ calls,
        (Safe family start calls ↔ Careful family start calls) := by
  intro family _ allocates entries start created calls
  rw [create] at created
  split at created
  · cases created
  · split at created
    · cases created
    · cases created
      exact safe_iff_careful (Nat.zero_le _) (show _ ≤ _ from le_rfl) calls

def fresh : Stored := { ips := Ipset.create, entriesMax := 1024, allocated := 1024 }

/-- A run that writes past the array: one entry, optimized, and a second one. -/
def Overruns (family : Family) : Prop :=
  create family (fun _ => true) 0 = some fresh ∧
    perform family (fun _ => true) fresh (.addIpRange 1 1) =
      .ok ⟨{ single 1 with optimized := false }, 1024, 1024⟩ ∧
    perform family (fun _ => true) ⟨{ single 1 with optimized := false }, 1024, 1024⟩ .optimize =
      .ok ⟨single 1, 1024, 1⟩ ∧
    perform family (fun _ => true) ⟨single 1, 1024, 1⟩ (.addIpRange 3 3) = .error .overruns

theorem optimized_array_overrun : Overruns (ipv4 wide) ∧ Overruns (ipv6 wide) := by
  simp only [Overruns, perform, optimize, single, List.mergeSort_singleton]
  decide +kernel

/-- Optimized while it is empty and while it is flagged, appended to in between and after. -/
def carefulCalls : List (Call × (Nat → Bool)) :=
  [.optimize, .addIpRange 1 1, .optimize, .addIpRange 3 3].map fun call => (call, fun _ => true)

theorem allocation_holds_sample : Safe (ipv4 wide) fresh carefulCalls := by
  have emptied : perform (ipv4 wide) (fun _ => true) fresh .optimize =
      .ok { fresh with ips := { Ipset.create with optimized := true } } := by
    simp [perform, optimize, fresh, Ipset.create]
  refine (allocation_holds_iff _ _ (List.mem_cons_self ..) (fun _ => true) 0 _
    (by decide +kernel) _).mpr ?_
  intro next ran
  rw [emptied] at ran
  cases ran
  refine ⟨fun _ => Or.inr (Or.inl rfl), ?_⟩
  rintro _ ⟨⟩
  refine ⟨fun optimizes => Call.noConfusion optimizes, ?_⟩
  rintro _ ⟨⟩
  refine ⟨fun _ => Or.inl rfl, ?_⟩
  rintro _ ⟨⟩
  exact ⟨fun optimizes => Call.noConfusion optimizes, trivial⟩

end IpRange.Memory
