import IpRange.IpsetBinary

/-!
IPv6 sets and their binary format. Addresses and counts are 128-bit numbers; the number of
addresses saturates when a set is built and wraps around when a file is checked.
-/

namespace IpRange.Ipset6

open List Text Ipset

def addrMax : Nat := 2 ^ 128 - 1

def u128 (value : Nat) : Nat := value % 2 ^ 128

def rangeSize (lo hi : Nat) : Nat := u128 (u128 (hi + 2 ^ 128 - lo) + 1)

/-- The count of `ipset6_added_entry`, which stops at the largest number. -/
def countEntry (uniqueIps lo hi : Nat) : Nat :=
  if lo = 0 ∧ hi = addrMax then addrMax
  else
    let size := rangeSize lo hi
    if u128 (addrMax + 2 ^ 128 - size) < uniqueIps then addrMax else u128 (uniqueIps + size)

section Model

variable (machine : Machine)

def addedEntry (ips : Ipset) (entry : Interval) : Ipset :=
  let ips := { ips with
    lines := machine.sizeSum ips.lines 1
    uniqueIps := countEntry ips.uniqueIps entry.low entry.high }
  let appended := ips.netaddrs ++ [entry]
  match ips.netaddrs.getLast? with
  | none => { ips with netaddrs := appended }
  | some last =>
    if !ips.optimized then { ips with netaddrs := appended }
    else if last.high != addrMax && entry.low == u128 (last.high + 1) then
      { ips with netaddrs := ips.netaddrs.dropLast ++ [{ last with high := entry.high }] }
    else if last.high < entry.low then { ips with netaddrs := appended }
    else { ips with netaddrs := appended, optimized := false }

def addIpRange (ips : Ipset) (from_ to_ : Nat) : Ipset :=
  addedEntry machine ips { low := from_, high := to_ }

def parseLoop (result : Nat) : Bytes → Option (Nat × Bytes)
  | [] => some (result, [])
  | character :: rest =>
    if isDigit character then
      let next := u128 (u128 (result * 10) + (character.toNat - 48))
      if next < result then none else parseLoop next rest
    else some (result, character :: rest)

def parseBinary6U128Field (value : Bytes) : Option Nat :=
  if !(value.head?.any isDigit) then none
  else do
    let (result, rest) ← parseLoop 0 value
    if rest ≠ [] ∧ rest.head? ≠ some newline then none else some result

def misplaced (prev curr : Interval) : Bool :=
  decide (curr.low < prev.low) || decide (curr.low ≤ prev.high) ||
    (prev.high != addrMax && curr.low == u128 (prev.high + 1))

def payloadIsOptimized : List Interval → Bool
  | prev :: curr :: rest => !misplaced prev curr && payloadIsOptimized (curr :: rest)
  | _ => true

/-- `binary6_validate_payload`; the count of records that are not in order is trusted. -/
def binary6ValidatePayload (headerOptimized : Bool) (entries : List Interval) (expected : Nat) :
    Option Bool :=
  if entries = [] then if expected ≠ 0 then none else some true
  else if entries.any fun entry => entry.high < entry.low then none
  else
    let optimized := payloadIsOptimized entries
    let actual :=
      if optimized then
        entries.foldl (fun total entry => u128 (total + rangeSize entry.low entry.high)) 0
      else expected
    if expected ≠ actual then none
    else if headerOptimized && !optimized then none
    else some optimized

def formatV20 : Format where
  width := 16
  parseUnique := parseBinary6U128Field
  enoughUnique unique records := !(decide (unique < records) && unique != 0)
  validate := binary6ValidatePayload

/-- `ipset6_save_binary_v20`; `u128_to_dec` writes the count. -/
def saveBinaryV20 (ips : Ipset) : Bytes :=
  if ips.entries = 0 then []
  else binaryHeaderV20 ++ ascii "ipv6\n" ++ saveRecords machine formatV20 ips

def expectLine (text : Bytes) (stream : Bytes) : Option Bytes := do
  let (line, stream) ← fgets maxLine stream
  if cString line = text then some stream else none

def loadBinaryV20 (firstLineMissing : Bool) (stream : Bytes) : Option Ipset := do
  let stream ← if firstLineMissing then some stream else expectLine binaryHeaderV20 stream
  let stream ← expectLine (ascii "ipv6\n") stream
  loadRecords machine formatV20 stream

end Model

variable {machine : Machine} {ips : Ipset} {entries : List Interval}

theorem rangeSize_eq {lo hi : Nat} (proper : lo ≤ hi) (bound : hi ≤ addrMax) :
    rangeSize lo hi = (hi - lo + 1) % 2 ^ 128 := by
  rw [addrMax] at bound
  have inner : u128 (hi + 2 ^ 128 - lo) = hi - lo := by
    rw [u128]
    omega
  rw [rangeSize, inner, u128]

structure Counted (ips : Ipset) : Prop where
  apart : Apart 1 ips.netaddrs
  bounded : ∀ entry ∈ ips.netaddrs, entry.high ≤ addrMax
  unique : ips.uniqueIps = min (total ips.netaddrs) addrMax

theorem total_le (apart : Apart 1 entries) (bounded : ∀ entry ∈ entries, entry.high ≤ addrMax) :
    total entries ≤ 2 ^ 128 :=
  apart.total_le fun entry member => by
    have bound := bounded entry member
    rw [addrMax] at bound
    omega

/-- Some digit takes the value modulo `2 ^ 128` below the value of the digits before it. -/
def Falls (digits : Bytes) : Prop :=
  ∃ front character, front ++ [character] <+: digits ∧
    u128 (number (front ++ [character])) < u128 (number front)

theorem not_falls_of_lt {digits : Bytes} (small : number digits < 2 ^ 128) : ¬ Falls digits := by
  rintro ⟨front, character, ⟨rest, rfl⟩, falls⟩
  have grows : number (front ++ [character]) ≤ number (front ++ [character] ++ rest) := by
    clear small
    induction rest using List.reverseRecOn with
    | nil => simp
    | append_singleton rest last ih =>
      rw [← append_assoc, number_append (_ ++ rest)]
      omega
  rw [number_append] at grows falls
  rw [u128, u128] at falls
  omega

section Digits

variable {digits rest : Bytes} (inside : ∀ character ∈ digits, isDigit character = true)
  (stop : ∀ character ∈ rest.head?, isDigit character = false)

include inside stop

theorem parseLoop_read {front : Bytes} (calm : ¬ Falls front) :
    (Falls (front ++ digits) → parseLoop (u128 (number front)) (digits ++ rest) = none) ∧
      (¬ Falls (front ++ digits) → parseLoop (u128 (number front)) (digits ++ rest) =
        some (u128 (number (front ++ digits)), rest)) := by
  induction digits generalizing front with
  | nil =>
    rw [append_nil, nil_append]
    refine ⟨fun falls => absurd falls calm, fun _ => ?_⟩
    cases rest with
    | nil => rfl
    | cons character rest =>
      rw [parseLoop, if_neg (by simp [stop character (by simp)])]
  | cons character digits ih =>
    have next : u128 (u128 (u128 (number front) * 10) + (character.toNat - 48)) =
        u128 (number (front ++ [character])) := by
      rw [number_append]
      simp only [u128]
      omega
    have shape : front ++ character :: digits = front ++ [character] ++ digits := by simp
    rw [cons_append, parseLoop, if_pos (inside character (by simp)), next, shape]
    dsimp only
    split
    · next falls =>
        have fallen : Falls (front ++ [character] ++ digits) :=
          ⟨front, character, prefix_append _ _, falls⟩
        exact ⟨fun _ => rfl, fun calm => absurd fallen calm⟩
    · next rises =>
        refine ih (fun other member => inside other (by simp [member])) ?_
        rintro ⟨early, last, start, falls⟩
        rcases prefix_concat_iff.mp start with whole | earlier
        · obtain ⟨rfl, same⟩ := append_inj' whole rfl
          rw [List.cons.inj same |>.1] at falls
          exact rises falls
        · exact calm ⟨early, last, earlier, falls⟩

theorem parseBinary6U128Field_digits (some_ : digits ≠ []) :
    (Falls digits → parseBinary6U128Field (digits ++ rest) = none) ∧
      (¬ Falls digits → parseBinary6U128Field (digits ++ rest) =
        if rest ≠ [] ∧ rest.head? ≠ some newline then none else some (u128 (number digits))) := by
  have leads : (digits ++ rest).head?.any isDigit = true := by
    cases digits with
    | nil => exact absurd rfl some_
    | cons first digits => simp [inside first (by simp)]
  have empty : ¬ Falls [] := not_falls_of_lt (by decide)
  obtain ⟨falls, calm⟩ := parseLoop_read inside stop empty
  rw [nil_append, show u128 (number []) = 0 from rfl] at falls calm
  rw [parseBinary6U128Field, leads]
  exact ⟨fun fallen => by rw [falls fallen]; rfl, fun still => by rw [calm still]; rfl⟩

/-- Digits are read as the number they write exactly if it fits and ends the line or the
string; a larger number is refused. -/
def ReadsExactly (digits rest : Bytes) : Prop :=
  (parseBinary6U128Field (digits ++ rest) = some (number digits) ↔
      number digits ≤ addrMax ∧ (rest = [] ∨ rest.head? = some newline)) ∧
    (addrMax < number digits → parseBinary6U128Field (digits ++ rest) = none)

/-- `parse_binary6_u128_field` compares each value only with the one before it, so it is right
exactly for numbers that fit, for numbers that something else follows, and for larger ones of
which some digit takes the wrapped value below the one before it. -/
theorem readsExactly_iff (some_ : digits ≠ []) :
    ReadsExactly digits rest ↔ number digits ≤ addrMax ∨
      ¬ (rest = [] ∨ rest.head? = some newline) ∨ Falls digits := by
  obtain ⟨falls, calm⟩ := parseBinary6U128Field_digits inside stop some_
  rw [ReadsExactly]
  by_cases ends : rest = [] ∨ rest.head? = some newline
  · rw [if_neg (by tauto)] at calm
    by_cases fits : number digits ≤ addrMax
    · have small : number digits < 2 ^ 128 := by
        rw [addrMax] at fits
        omega
      rw [u128, Nat.mod_eq_of_lt small] at calm
      simp [calm (not_falls_of_lt small), fits, ends]
    · by_cases fallen : Falls digits
      · simp [falls fallen, fits, fallen]
      · simp [calm fallen, fits, fallen, ends, not_le.mp fits]
  · rw [if_pos (by tauto)] at calm
    have refused : parseBinary6U128Field (digits ++ rest) = none := by
      by_cases fallen : Falls digits
      · exact falls fallen
      · exact calm fallen
    simp [refused, ends]

end Digits

/-- 4 · 10 ^ 38 wraps around to a larger number than the 4 · 10 ^ 37 before its last digit. -/
theorem wrapped_number_accepted :
    parseBinary6U128Field (ascii "400000000000000000000000000000000000000\n") =
        some 59717633079061536536625392568231788544 ∧
      addrMax < number (ascii "400000000000000000000000000000000000000") := by
  decide +kernel

/-- 2 ^ 128 wraps around to 0 and is refused. -/
theorem readsExactly_two_pow :
    ReadsExactly (ascii "340282366920938463463374607431768211456") [newline] :=
  (readsExactly_iff (by decide +kernel) (by decide +kernel) (by decide +kernel)).mpr (Or.inr (Or.inr
    ⟨ascii "34028236692093846346337460743176821145", byte '6', by decide +kernel, by decide +kernel⟩))

theorem parseBinary6U128Field_decimal {value : Nat} (small : value < 2 ^ 128) :
    parseBinary6U128Field (decimal value ++ [newline]) = some value := by
  have same := number_decimal value
  have ends : ∀ character ∈ [newline].head?, isDigit character = false := by decide +kernel
  have parsed := (parseBinary6U128Field_digits (decimal_digits value)
    ends (decimal_ne_nil value)).2 (not_falls_of_lt (by rwa [same]))
  rwa [if_neg (by simp), same, u128, Nat.mod_eq_of_lt small] at parsed

theorem payloadIsOptimized_of_apart (apart : Apart 1 entries)
    (bounded : ∀ entry ∈ entries, entry.high ≤ addrMax) : payloadIsOptimized entries = true := by
  induction entries with
  | nil => rfl
  | cons prev rest ih =>
    cases rest with
    | nil => rfl
    | cons curr rest =>
      obtain ⟨proper, after, tail⟩ := apart_cons.mp apart
      have gap := after curr (by simp)
      have placed : misplaced prev curr = false := by
        by_cases edge : prev.high = addrMax
        · simp [misplaced, edge]
          omega
        · have bound := bounded prev (by simp)
          have next : u128 (prev.high + 1) = prev.high + 1 := by
            rw [addrMax] at edge bound
            rw [u128]
            omega
          simp [misplaced, edge, next]
          omega
      rw [payloadIsOptimized, placed, ih tail fun entry member =>
        bounded entry (mem_cons_of_mem _ member)]
      rfl

theorem foldl_rangeSize (proper : ∀ entry ∈ entries, entry.low ≤ entry.high)
    (bounded : ∀ entry ∈ entries, entry.high ≤ addrMax) (start : Nat) :
    u128 (entries.foldl (fun total entry => u128 (total + rangeSize entry.low entry.high)) start) =
      u128 (start + total entries) := by
  induction entries generalizing start with
  | nil => rfl
  | cons entry entries ih =>
    rw [foldl_cons, ih (fun other member => proper other (mem_cons_of_mem _ member))
      (fun other member => bounded other (mem_cons_of_mem _ member)),
      rangeSize_eq (proper entry (by simp)) (bounded entry (by simp)), total_cons, Interval.size]
    simp only [u128]
    omega

theorem foldl_rangeSize_lt (start : Nat) (small : start < 2 ^ 128) :
    entries.foldl (fun total entry => u128 (total + rangeSize entry.low entry.high)) start <
      2 ^ 128 := by
  induction entries generalizing start with
  | nil => exact small
  | cons entry entries ih => exact ih _ (Nat.mod_lt _ (by decide))

theorem binary6ValidatePayload_counted (counted : Counted ips) (some_ : ips.entries ≠ 0) :
    binary6ValidatePayload ips.optimized ips.netaddrs ips.uniqueIps =
      if total ips.netaddrs < 2 ^ 128 then some true else none := by
  have present : ips.netaddrs ≠ [] := fun empty => some_ (by simp [Ipset.entries, empty])
  have proper : ¬(ips.netaddrs.any fun entry => decide (entry.high < entry.low)) = true := by
    simpa using counted.apart.proper
  have ordered := payloadIsOptimized_of_apart counted.apart counted.bounded
  have actual : ips.netaddrs.foldl
      (fun total entry => u128 (total + rangeSize entry.low entry.high)) 0 =
        u128 (total ips.netaddrs) := by
    have sum := foldl_rangeSize counted.apart.proper counted.bounded 0
    rwa [u128, Nat.mod_eq_of_lt (foldl_rangeSize_lt 0 (by decide)), Nat.zero_add] at sum
  have bound := total_le counted.apart counted.bounded
  rw [binary6ValidatePayload, if_neg present, if_neg proper, ordered, counted.unique]
  simp only [if_true, actual, Bool.not_true, Bool.and_false, Bool.false_eq_true, if_false]
  by_cases below : total ips.netaddrs < 2 ^ 128
  · rw [if_pos below, if_neg]
    rw [addrMax, u128, Nat.mod_eq_of_lt below]
    omega
  · rw [if_neg below, if_pos]
    have whole : total ips.netaddrs = 2 ^ 128 := by omega
    rw [whole, addrMax]
    decide

theorem total_lt_iff (apart : Apart 1 entries) (bounded : ∀ entry ∈ entries, entry.high ≤ addrMax) :
    total entries < 2 ^ 128 ↔ covered entries ≠ Set.Icc 0 addrMax := by
  have space : (Set.Icc 0 addrMax).ncard = 2 ^ 128 := by
    exact Interval.ncard_members (show Interval.low ⟨0, addrMax⟩ ≤ addrMax from Nat.zero_le _)
  have inside : covered entries ⊆ Set.Icc 0 addrMax := by
    rintro number ⟨entry, member, _, high⟩
    exact ⟨Nat.zero_le _, high.trans (bounded entry member)⟩
  constructor
  · intro few whole
    rw [← apart.ncard, whole, space] at few
    exact lt_irrefl _ few
  · intro different
    by_contra many
    apply different
    refine Set.eq_of_subset_of_ncard_le inside ?_ (Set.finite_Icc _ _)
    rw [space, apart.ncard]
    omega

structure Canonical (machine : Machine) (ips : Ipset) : Prop where
  counted : Counted ips
  records : ips.entries ≤ machine.sizeMax
  lines : ips.lines ≤ machine.sizeMax

theorem writable_v20 (sizes : Machine.Common machine) (canonical : Canonical machine ips) :
    Writable machine formatV20 ips where
  recordSize := Or.inr rfl
  records := by
    have few := canonical.records
    rcases sizes with narrow | wide <;> omega
  lines := canonical.lines
  unique := by
    rw [canonical.counted.unique, addrMax]
    omega
  parsed := by
    apply parseBinary6U128Field_decimal
    rw [canonical.counted.unique, addrMax]
    omega
  proper := canonical.counted.apart.proper
  small := by
    intro entry member
    have bound := canonical.counted.bounded entry member
    rw [addrMax] at bound
    show entry.high < 256 ^ 16
    omega

theorem expectLine_written {text : Bytes} (stream : Bytes) (clean : Clean text)
    (short : text.length < maxLine) :
    expectLine (text ++ [newline]) (text ++ newline :: stream) = some stream := by
  rw [expectLine, (fgets_clean stream clean short).1]
  simp only [Option.bind_eq_bind, Option.bind_some]
  rw [(fgets_clean stream clean short).2, if_pos rfl]

/-- A canonical set in the binary format loads as it was exactly when it is not the whole
address space, has no more entries than lines, and its array is possible. -/
theorem saved_v20_loads_iff (sizes : Machine.Common machine) (canonical : Canonical machine ips)
    (some_ : ips.entries ≠ 0) :
    loadBinaryV20 machine false (saveBinaryV20 machine ips) = some ips ↔
      ips.addresses ≠ Set.Icc 0 addrMax ∧ ips.entries ≤ ips.lines ∧
        canGrow machine formatV20 ips.entries = true := by
  have counted := canonical.counted
  have first : binaryHeaderV20 = ascii "iprange binary format v2.0" ++ [newline] := by decide
  have family : ascii "ipv6\n" = ascii "ipv6" ++ [newline] := by decide
  have whole : saveBinaryV20 machine ips = ascii "iprange binary format v2.0" ++ newline ::
      (ascii "ipv6" ++ newline :: saveRecords machine formatV20 ips) := by
    rw [saveBinaryV20, if_neg some_, first, family]
    simp only [append_assoc, cons_append, nil_append]
  have read : loadBinaryV20 machine false (saveBinaryV20 machine ips) =
      loadRecords machine formatV20 (saveRecords machine formatV20 ips) := by
    rw [loadBinaryV20, whole, first, family]
    simp only [Bool.false_eq_true, if_false]
    rw [expectLine_written _ (by decide) (by decide)]
    simp only [Option.bind_eq_bind, Option.bind_some]
    rw [expectLine_written _ (by decide) (by decide), Option.bind_some]
  have valid : formatV20.validate ips.optimized ips.netaddrs ips.uniqueIps =
      if total ips.netaddrs < 2 ^ 128 then some true else none :=
    binary6ValidatePayload_counted counted some_
  have roomy : Roomy machine formatV20 ips ↔
      ips.entries ≤ ips.lines ∧ canGrow machine formatV20 ips.entries = true := by
    have enough : formatV20.enoughUnique ips.uniqueIps ips.entries = true := by
      have few : ips.entries ≤ ips.uniqueIps := by
        have least := length_le_total ips.netaddrs
        have small := (writable_v20 sizes canonical).records
        rw [counted.unique, addrMax, Ipset.entries] at *
        omega
      simp [formatV20, few]
    exact ⟨fun room => ⟨room.1, room.2.1⟩, fun room => ⟨room.1, room.2, enough⟩⟩
  rw [read, loadRecords_saved sizes (writable_v20 sizes canonical), valid, addresses,
    ← total_lt_iff counted.apart counted.bounded, ← roomy]
  by_cases room : Roomy machine formatV20 ips
  · rw [if_pos room]
    by_cases below : total ips.netaddrs < 2 ^ 128
    · rw [if_pos below, Option.map_some, Bool.and_true]
      exact ⟨fun _ => ⟨below, room⟩, fun _ => rfl⟩
    · rw [if_neg below]
      exact ⟨fun loaded => (by cases loaded), fun possible => absurd possible.1 below⟩
  · rw [if_neg room]
    exact ⟨fun loaded => (by cases loaded), fun possible => absurd possible.2 room⟩

theorem whole_space_rejected :
    addIpRange (.wrapping (2 ^ 64 - 1) false) opened 0 addrMax =
        { lines := 1, netaddrs := [{ low := 0, high := addrMax }], uniqueIps := addrMax,
          optimized := true } ∧
      loadBinaryV20 (.wrapping (2 ^ 64 - 1) false) false
        (saveBinaryV20 (.wrapping (2 ^ 64 - 1) false)
          { lines := 1, netaddrs := [{ low := 0, high := addrMax }], uniqueIps := addrMax,
            optimized := true }) = none := by
  decide +kernel

theorem saved_v20_loads_rest :
    loadBinaryV20 (.wrapping (2 ^ 64 - 1) false) false
        (saveBinaryV20 (.wrapping (2 ^ 64 - 1) false)
          { lines := 1, netaddrs := [{ low := 0, high := addrMax - 1 }], uniqueIps := addrMax,
            optimized := true }) =
      some { lines := 1, netaddrs := [{ low := 0, high := addrMax - 1 }], uniqueIps := addrMax,
             optimized := true } := by
  have counted : Counted { lines := 1, netaddrs := [{ low := 0, high := addrMax - 1 }],
                           uniqueIps := addrMax, optimized := true } :=
    ⟨by decide, by simp, by decide⟩
  refine (saved_v20_loads_iff (Or.inr rfl) ⟨counted, by decide, by decide⟩ (by decide)).mpr
    ⟨?_, by decide, by decide⟩
  intro whole
  have last : addrMax ∈ Set.Icc 0 addrMax := ⟨Nat.zero_le _, le_rfl⟩
  rw [← whole] at last
  obtain ⟨entry, member, _, high⟩ := last
  rw [mem_singleton.mp member] at high
  exact absurd high (by decide)

end IpRange.Ipset6
