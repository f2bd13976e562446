import IpRange.IpsetLoading

/-!
Reading back what was written in the binary format.
-/

namespace IpRange.Ipset

open Option List Text

variable {machine : Machine} {environment : Environment} {ips : Ipset} {entries : List Interval}

section Fields

def Clean (text : Bytes) : Prop := ∀ character ∈ text, character ≠ newline ∧ character ≠ 0

instance (text : Bytes) : Decidable (Clean text) :=
  List.decidableBAll _ text

theorem Clean.append {first second : Bytes} (clean1 : Clean first) (clean2 : Clean second) :
    Clean (first ++ second) := by
  intro character member
  rcases mem_append.mp member with early | late
  · exact clean1 character early
  · exact clean2 character late

theorem clean_of_digits {text : Bytes} (digits : ∀ character ∈ text, isDigit character = true) :
    Clean text := by
  intro character member
  have range := digits character member
  simp only [isDigit, decide_eq_true_eq] at range
  constructor
  · rintro rfl
    exact absurd range.1 (by decide)
  · rintro rfl
    exact absurd range.1 (by decide)

theorem clean_decimal (value : Nat) : Clean (decimal value) := clean_of_digits (decimal_digits value)

theorem fgets_clean {text : Bytes} (stream : Bytes) (clean : Clean text)
    (short : text.length < maxLine) :
    fgets maxLine (text ++ newline :: stream) = some (text ++ [newline], stream) ∧
      cString (text ++ [newline]) = text ++ [newline] := by
  refine ⟨fgets_line short fun character member => (clean character member).1, ?_⟩
  apply cString_clean
  intro character member
  rcases mem_append.mp member with inside | last
  · exact (clean character inside).2
  · rw [mem_singleton.mp last]
    decide

variable {value : Nat}

theorem parseBinaryField_decimal {limit : Nat} (small : value < 2 ^ 64) :
    parseBinaryField limit (decimal value ++ [newline]) =
      if value ≤ limit then some value else none := by
  have stop : ∀ character ∈ [newline].head?, isDigit character = false := by
    simp only [head?_cons, mem_def, Option.some.injEq, forall_eq']
    decide
  have digits := takeWhile_token (decimal_digits value) stop
  have rest := dropWhile_token (decimal_digits value) stop
  unfold parseBinaryField
  dsimp only
  rw [digits, rest, number_decimal, if_neg (decimal_ne_nil value), if_neg (by omega),
    if_neg (by simp)]
  by_cases within : value ≤ limit
  · rw [if_neg (by omega), if_pos within]
  · rw [if_pos (by omega), if_neg within]

theorem headerField_written {label : Bytes} (parse : Bytes → Option Nat) (stream : Bytes)
    (clean : Clean label) (short : label.length ≤ 12) (small : value < 10 ^ 40) :
    headerField label parse (label ++ decimal value ++ newline :: stream) =
      (parse (decimal value ++ [newline])).map fun value => (value, stream) := by
  have places : (decimal value).length ≤ 40 := decimal_length small
  obtain ⟨read, whole⟩ := fgets_clean stream (clean.append (clean_decimal value)) (by
    simp only [length_append, maxLine]
    omega)
  unfold headerField
  rw [read]
  simp only [bind_eq_bind, bind_some]
  rw [whole, append_assoc, drop_left, if_neg (by simp)]
  cases parse (decimal value ++ [newline]) <;> rfl

theorem sizeField_written {label : Bytes} {limit : Nat} (stream : Bytes) (clean : Clean label)
    (short : label.length ≤ 12) (small : value < 2 ^ 64) :
    headerField label (parseBinaryField limit) (label ++ decimal value ++ newline :: stream) =
      if value ≤ limit then some (value, stream) else none := by
  rw [headerField_written _ _ clean short (by omega), parseBinaryField_decimal small]
  split <;> rfl

end Fields

theorem fromMemory_inMemory {width value : Nat} (small : value < 256 ^ width) :
    fromMemory machine (inMemory machine width value) = value := by
  unfold fromMemory inMemory
  split
  · rw [reverse_reverse, fromLeBytes_toLeBytes width value small]
  · exact fromLeBytes_toLeBytes width value small

theorem readRecords_written {width : Nat} {rest : Bytes}
    (proper : ∀ entry ∈ entries, entry.low ≤ entry.high)
    (small : ∀ entry ∈ entries, entry.high < 256 ^ width) :
    readRecords machine width entries.length
      (entries.flatMap (recordBytes machine width) ++ rest) = some (entries, rest) := by
  induction entries with
  | nil => rfl
  | cons entry entries ih =>
    have low := proper entry (by simp)
    have high := small entry (by simp)
    rw [length_cons, readRecords, flatMap_cons, recordBytes, if_neg (by
      simp only [length_append, inMemory_length]
      omega)]
    have tail : (inMemory machine width entry.low ++ inMemory machine width entry.high ++
        entries.flatMap (recordBytes machine width) ++ rest).drop (2 * width) =
          entries.flatMap (recordBytes machine width) ++ rest := by
      rw [append_assoc, drop_left' (by simp [inMemory_length]; omega)]
    have first : (inMemory machine width entry.low ++ inMemory machine width entry.high ++
        entries.flatMap (recordBytes machine width) ++ rest).take width =
          inMemory machine width entry.low := by
      rw [append_assoc, append_assoc, take_left' (inMemory_length _ _)]
    have second : ((inMemory machine width entry.low ++ inMemory machine width entry.high ++
        entries.flatMap (recordBytes machine width) ++ rest).drop width).take width =
          inMemory machine width entry.high := by
      rw [append_assoc, append_assoc, drop_left' (inMemory_length _ _),
        take_left' (inMemory_length _ _)]
    rw [tail, first, second, fromMemory_inMemory (by omega), fromMemory_inMemory high,
      ih (fun other member => proper other (by simp [member]))
        (fun other member => small other (by simp [member]))]
    rfl

section RoundTrip

def Machine.Common (machine : Machine) : Prop :=
  machine.sizeMax = 2 ^ 32 - 1 ∨ machine.sizeMax = 2 ^ 64 - 1

variable {format : Format}

structure Writable (machine : Machine) (format : Format) (ips : Ipset) : Prop where
  recordSize : format.recordSize = 8 ∨ format.recordSize = 32
  records : ips.entries < 2 ^ 64
  lines : ips.lines ≤ machine.sizeMax
  unique : ips.uniqueIps < 10 ^ 40
  parsed : format.parseUnique (decimal ips.uniqueIps ++ [newline]) = some ips.uniqueIps
  proper : ∀ entry ∈ ips.netaddrs, entry.low ≤ entry.high
  small : ∀ entry ∈ ips.netaddrs, entry.high < 256 ^ format.width

theorem readHeader_written (sizes : Machine.Common machine) (writable : Writable machine format ips) :
    readHeader machine format (saveRecords machine format ips) =
      if ips.entries ≤ machine.sizeMax then
        some ({ optimized := ips.optimized, records := ips.entries,
                bytes := machine.sizeSum (format.recordSize * ips.entries) 4, lines := ips.lines,
                uniqueIps := ips.uniqueIps },
          inMemory machine 4 endianness ++
            ips.netaddrs.flatMap (recordBytes machine format.width))
      else none := by
  have bytes : machine.sizeSum (format.recordSize * ips.entries) 4 ≤ machine.sizeMax :=
    sizeSum_le _ _
  have width : machine.sizeMax < 2 ^ 64 := by
    rcases sizes with narrow | wide <;> omega
  have size : format.recordSize ≤ machine.sizeMax := by
    rcases sizes with narrow | wide <;> rcases writable.recordSize with four | six <;> omega
  have lines := writable.lines
  -- the flag is one of two lines, told apart when it is read
  obtain ⟨text, written, clean, short, known, told⟩ :
      ∃ text, (if ips.optimized then ascii "optimized" else ascii "non-optimized") = text ∧
        Clean text ∧ text.length < maxLine ∧
        ¬(text ++ [newline] ≠ ascii "optimized\n" ∧ text ++ [newline] ≠ ascii "non-optimized\n") ∧
        decide (text ++ [newline] = ascii "optimized\n") = ips.optimized := by
    refine ⟨_, rfl, ?_⟩
    cases ips.optimized <;> decide
  unfold readHeader saveRecords
  rw [written, (fgets_clean _ clean short).1]
  simp only [bind_eq_bind, bind_some]
  rw [(fgets_clean [] clean short).2, if_neg known,
    sizeField_written _ (by decide) (by decide) (by omega), if_pos size]
  simp only [bind_some]
  rw [if_neg (by simp), sizeField_written _ (by decide) (by decide) writable.records]
  by_cases counted : ips.entries ≤ machine.sizeMax
  · rw [if_pos counted, if_pos counted]
    simp only [bind_some]
    rw [sizeField_written _ (by decide) (by decide) (by omega), if_pos bytes]
    simp only [bind_some]
    rw [sizeField_written _ (by decide) (by decide) (by omega), if_pos lines]
    simp only [bind_some]
    rw [headerField_written _ _ (by decide) (by decide) writable.unique, writable.parsed]
    simp only [map_some, bind_some, told]
    rfl
  · rw [if_neg counted, if_neg counted]
    rfl

theorem canGrow_iff (needed : Nat) : canGrow machine format needed = true ↔
    needed ≤ entriesIncreaseStep ∨
      entriesIncreaseStep + needed ≤ machine.sizeMax / format.recordSize := by
  simp [canGrow]

def Roomy (machine : Machine) (format : Format) (ips : Ipset) : Prop :=
  ips.entries ≤ ips.lines ∧ canGrow machine format ips.entries = true ∧
    format.enoughUnique ips.uniqueIps ips.entries = true

instance : Decidable (Roomy machine format ips) :=
  inferInstanceAs (Decidable (_ ∧ _ ∧ _))

theorem loadRecords_saved (sizes : Machine.Common machine) (writable : Writable machine format ips) :
    loadRecords machine format (saveRecords machine format ips) =
      if Roomy machine format ips then
        (format.validate ips.optimized ips.netaddrs ips.uniqueIps).map fun optimized =>
          { ips with optimized := ips.optimized && optimized }
      else none := by
  have wide : 2 ^ 32 - 1 ≤ machine.sizeMax := by
    rcases sizes with narrow | wide <;> omega
  rw [loadRecords, readHeader_written sizes writable]
  by_cases roomy : Roomy machine format ips
  · obtain ⟨lines, grows, enough⟩ := roomy
    have room : ips.entries ≤ (machine.sizeMax - 4) / format.recordSize ∧
        ips.entries ≤ machine.sizeMax - entriesIncreaseStep ∧
        format.recordSize * ips.entries + 4 ≤ machine.sizeMax := by
      have limits := (canGrow_iff ips.entries).mp grows
      rw [entriesIncreaseStep] at limits ⊢
      rcases writable.recordSize with size | size <;> rw [size] at limits ⊢ <;> omega
    have bytes : machine.sizeSum (format.recordSize * ips.entries) 4 =
        format.recordSize * ips.entries + 4 := by
      rw [Machine.sizeSum, Nat.mod_eq_of_lt (by omega)]
    have records : readRecords machine format.width ips.entries
        (ips.netaddrs.flatMap (recordBytes machine format.width)) = some (ips.netaddrs, []) := by
      rw [← append_nil (ips.netaddrs.flatMap _)]
      exact readRecords_written writable.proper writable.small
    have word : fromMemory machine (inMemory machine 4 endianness) = endianness :=
      fromMemory_inMemory (by decide)
    rw [if_pos (lines.trans writable.lines), if_pos ⟨lines, grows, enough⟩]
    simp only [bind_eq_bind, bind_some]
    unfold loadPayload
    dsimp only
    rw [if_neg (by omega), if_neg (by omega), if_neg (by simp [bytes]),
      if_neg (by simp [inMemory_length]), take_left' (inMemory_length _ _),
      drop_left' (inMemory_length _ _), if_neg (by simp [word]), if_neg (by simp [enough]),
      if_neg (by omega), if_neg (by simp [grows]), records]
    simp only [bind_eq_bind, bind_some, ne_eq, not_true, if_false]
    cases format.validate ips.optimized ips.netaddrs ips.uniqueIps <;> rfl
  · rw [if_neg roomy]
    split
    · simp only [bind_eq_bind, bind_some]
      unfold loadPayload
      dsimp only
      -- one of the three checks refuses
      by_cases lines : ips.entries ≤ ips.lines
      · by_cases grows : canGrow machine format ips.entries = true
        · have few : (!format.enoughUnique ips.uniqueIps ips.entries) = true := by
            simpa using fun enough => roomy ⟨lines, grows, enough⟩
          simp only [few, if_true, ite_self]
        · have stuck : (!canGrow machine format ips.entries) = true := by simpa using grows
          simp only [stuck, if_true, ite_self]
      · simp only [show ips.lines < ips.entries by omega, if_true, ite_self]
    · rfl

theorem foldlM_addUniqueIps_some {start : Nat} (small : start + total entries < 2 ^ 64) :
    entries.foldlM (fun total entry => addUniqueIps total entry.low entry.high) start =
      some (start + total entries) := by
  induction entries generalizing start with
  | nil => rfl
  | cons entry entries ih =>
    rw [total_cons, Interval.size] at small
    have added : addUniqueIps start entry.low entry.high =
        some (start + (entry.high - entry.low + 1)) := by
      rw [addUniqueIps]
      exact if_neg (by omega)
    rw [foldlM_cons, added]
    simp only [bind_eq_bind, bind_some]
    rw [ih (by omega), total_cons, Interval.size, Nat.add_assoc]

theorem binaryValidatePayload_counted (exact_ : machine.Exact) (counted : Counted 0 ips)
    (some_ : ips.entries ≠ 0) :
    binaryValidatePayload machine true ips.netaddrs ips.uniqueIps =
      if Apart 1 ips.netaddrs then some true else none := by
  have canonical := payloadIsOptimized_iff exact_ counted.apart.proper counted.bounded
  have present : ips.netaddrs ≠ [] := fun empty => some_ (by simp [entries, empty])
  have proper : ¬(ips.netaddrs.any fun entry => decide (entry.high < entry.low)) = true := by
    simpa using counted.apart.proper
  rw [binaryValidatePayload, if_neg present, if_neg proper]
  dsimp only
  by_cases apart : Apart 1 ips.netaddrs
  · have small := total_lt counted.apart counted.bounded
    have sum : actualUniqueIps machine ips.netaddrs = some (0 + total ips.netaddrs) := by
      rw [actualUniqueIps, if_pos (canonical.mpr apart)]
      exact foldlM_addUniqueIps_some (by omega)
    rw [sum, counted.unique, if_pos apart]
    simp [canonical.mpr apart]
  · have unordered : payloadIsOptimized machine ips.netaddrs = false := by
      simpa using fun ordered => apart (canonical.mp ordered)
    rw [if_neg apart]
    cases actualUniqueIps machine ips.netaddrs with
    | none => rfl
    | some actual => simp [unordered]

/-- The records do not touch, there are as many lines, and the array of the new set is
possible. -/
def Loadable (machine : Machine) (ips : Ipset) : Prop :=
  Apart 1 ips.netaddrs ∧ ips.entries ≤ ips.lines ∧
    canGrow machine (formatV10 machine) ips.entries = true

instance : Decidable (Loadable machine ips) :=
  inferInstanceAs (Decidable (_ ∧ _ ∧ _))

theorem writable_v10 (printable : Printable machine 0 ips) :
    Writable machine (formatV10 machine) ips where
  recordSize := Or.inl rfl
  records := Nat.lt_of_le_of_lt (length_le_total ips.netaddrs)
    (total_lt printable.counted.apart printable.counted.bounded)
  lines := printable.lines
  unique := by
    have small := total_lt printable.counted.apart printable.counted.bounded
    rw [printable.counted.unique]
    omega
  parsed := by
    have small := total_lt printable.counted.apart printable.counted.bounded
    rw [← printable.counted.unique] at small
    exact (parseBinaryField_decimal small).trans (if_pos (by omega))
  proper := printable.counted.apart.proper
  small := by
    intro entry member
    have bound := printable.counted.bounded entry member
    rw [addrMax] at bound
    show entry.high < 256 ^ 4
    omega

theorem load_saved (exact_ : machine.Exact) (sizes : Machine.Common machine)
    (printable : Printable machine 0 ips) (some_ : ips.entries ≠ 0) :
    load environment machine (saveBinaryV10 machine ips) =
      if Loadable machine ips then some ips else none := by
  have counted := printable.counted
  have first : Clean (ascii "iprange binary format v1.0") := by decide
  have header : binaryHeaderV10 = ascii "iprange binary format v1.0" ++ [newline] := by decide
  have enough : (formatV10 machine).enoughUnique ips.uniqueIps ips.entries = true := by
    rw [counted.unique]
    exact decide_eq_true (length_le_total ips.netaddrs)
  have valid : (formatV10 machine).validate ips.optimized ips.netaddrs ips.uniqueIps =
      if Apart 1 ips.netaddrs then some true else none := by
    rw [printable.flag]
    exact binaryValidatePayload_counted exact_ counted some_
  rw [saveBinaryV10, if_neg some_, header, append_assoc, singleton_append, load,
    (fgets_clean _ first (by decide)).1]
  dsimp only
  rw [(fgets_clean [] first (by decide)).2, if_pos (by decide), loadBinaryV10,
    loadRecords_saved sizes (writable_v10 printable), valid]
  by_cases roomy : Roomy machine (formatV10 machine) ips
  · rw [if_pos roomy]
    by_cases apart : Apart 1 ips.netaddrs
    · rw [if_pos apart, if_pos ⟨apart, roomy.1, roomy.2.1⟩, map_some, Bool.and_true]
    · rw [if_neg apart, if_neg fun loadable => apart loadable.1]
      rfl
  · rw [if_neg roomy, if_neg fun loadable => roomy ⟨loadable.2.1, loadable.2.2, enough⟩]

theorem apart_iff_untouched (apart : Apart 0 entries) :
    Apart 1 entries ↔ entries.Pairwise fun earlier later => earlier.high + 1 ≠ later.low := by
  constructor
  · intro canonical
    exact canonical.ordered.imp fun {earlier later} gap => by omega
  · intro untouched
    refine ⟨apart.proper, (apart.ordered.and untouched).imp ?_⟩
    rintro earlier later ⟨after, untouched⟩
    omega

/-- What a mode prints in the binary format, over sets loaded from any files: it loads
again as it was exactly when no two neighbouring entries touch, it has no more entries than
lines, and the array of the new set is possible, and is rejected otherwise. Only `diff`
prints entries that touch, and with a 64-bit `size_t` the array always is possible. -/
theorem printed_binary_loads_iff (exact_ : machine.Exact) (sizes : Machine.Common machine)
    {enabled : Nat → Bool} {mode : Mode} {roots seconds : List Ipset} {set : Ipset}
    (loaded1 : ∀ ips ∈ roots, ∃ around file, load around machine file = some ips)
    (loaded2 : ∀ ips ∈ seconds, ∃ around file, load around machine file = some ips)
    (run : runMode machine mode roots seconds = some set)
    (some_ : (set.optimize machine).entries ≠ 0) :
    (load environment machine (set.print machine enabled .binary) = some (set.optimize machine) ↔
      ((set.optimize machine).netaddrs.Pairwise fun earlier later =>
          earlier.high + 1 ≠ later.low) ∧
        (set.optimize machine).entries ≤ (set.optimize machine).lines ∧
        canGrow machine (formatV10 machine) (set.optimize machine).entries = true) ∧
      (load environment machine (set.print machine enabled .binary) ≠ some (set.optimize machine) →
        load environment machine (set.print machine enabled .binary) = none) ∧
      (mode ≠ .diff → (set.optimize machine).netaddrs.Pairwise fun earlier later =>
        earlier.high + 1 ≠ later.low) ∧
      (machine.sizeMax = 2 ^ 64 - 1 →
        canGrow machine (formatV10 machine) (set.optimize machine).entries = true) := by
  have usable1 : ∀ ips ∈ roots, Usable machine ips := by
    intro ips member
    obtain ⟨around, file, loaded⟩ := loaded1 ips member
    exact load_usable exact_ loaded
  have usable2 : ∀ ips ∈ seconds, Usable machine ips := by
    intro ips member
    obtain ⟨around, file, loaded⟩ := loaded2 ips member
    exact load_usable exact_ loaded
  obtain ⟨printable, canonical⟩ := runMode_printable exact_ usable1 usable2 run
  have saved : load environment machine (set.print machine enabled .binary) =
      if Loadable machine (set.optimize machine) then some (set.optimize machine) else none :=
    load_saved exact_ sizes printable some_
  rw [saved]
  refine ⟨?_, ?_, ?_, ?_⟩
  · rw [← apart_iff_untouched printable.counted.apart]
    by_cases loadable : Loadable machine (set.optimize machine)
    · exact ⟨fun _ => loadable, fun _ => if_pos loadable⟩
    · rw [if_neg loadable]
      exact ⟨fun loaded => (nomatch loaded), fun possible => absurd possible loadable⟩
  · split
    · exact fun different => absurd rfl different
    · exact fun _ => rfl
  · intro other
    exact (apart_iff_untouched printable.counted.apart).mp (canonical other).counted.apart
  · intro wide
    have few : (set.optimize machine).entries ≤ 2 ^ 32 :=
      (length_le_total _).trans (printable.counted.apart.total_le fun entry member => by
        have high := printable.counted.bounded entry member
        rw [addrMax] at high
        omega)
    rw [canGrow_iff, wide, entriesIncreaseStep]
    show _ ∨ _ ≤ (2 ^ 64 - 1) / 8
    omega

def oneRange (low high : Nat) : Ipset :=
  { lines := 1, netaddrs := [{ low, high }], uniqueIps := high - low + 1, optimized := true }

theorem load_quad_ranges :
    load quadEnvironment (.wrapping (2 ^ 64 - 1) false) (ascii "0.0.0.1-0.0.0.10\n") =
        some (oneRange 1 10) ∧
      load quadEnvironment (.wrapping (2 ^ 64 - 1) false) (ascii "0.0.0.11-0.0.0.20\n") =
        some (oneRange 11 20) := by
  decide +kernel

def touchingRanges : Ipset :=
  { lines := 2, netaddrs := [{ low := 1, high := 10 }, { low := 11, high := 20 }],
    uniqueIps := 20, optimized := true }

theorem touching_diff_rejected :
    load quadEnvironment (.wrapping (2 ^ 64 - 1) false) (ascii "0.0.0.1-0.0.0.10\n") =
        some (oneRange 1 10) ∧
      load quadEnvironment (.wrapping (2 ^ 64 - 1) false) (ascii "0.0.0.11-0.0.0.20\n") =
        some (oneRange 11 20) ∧
      runMode (.wrapping (2 ^ 64 - 1) false) .diff [oneRange 1 10] [oneRange 11 20] =
        some touchingRanges ∧
      load quadEnvironment (.wrapping (2 ^ 64 - 1) false)
        (touchingRanges.print (.wrapping (2 ^ 64 - 1) false) (fun _ => true) .binary) = none := by
  refine ⟨load_quad_ranges.1, load_quad_ranges.2, by decide +kernel, ?_⟩
  have counted : Counted 0 touchingRanges :=
    ⟨by decide, by simp [Bounded, touchingRanges, addrMax], by decide⟩
  refine (load_saved (Machine.exact_wrapping (2 ^ 64 - 1) false) (Or.inr rfl)
    ⟨rfl, counted, by decide⟩ (by decide)).trans ?_
  decide +kernel

def twoRanges : Ipset :=
  { lines := 2, netaddrs := [{ low := 1, high := 4 }, { low := 9, high := 10 }], uniqueIps := 6,
    optimized := true }

theorem printed_binary_loads_sample :
    load quadEnvironment (.wrapping (2 ^ 64 - 1) false)
        (twoRanges.print (.wrapping (2 ^ 64 - 1) false) (fun _ => true) .binary) =
      some twoRanges := by
  have loaded : load quadEnvironment (.wrapping (2 ^ 64 - 1) false) (ascii "0.0.0.5-0.0.0.8\n") =
      some (oneRange 5 8) := by decide +kernel
  have run : runMode (.wrapping (2 ^ 64 - 1) false) .excludeNext [oneRange 1 10] [oneRange 5 8] =
      some twoRanges := by decide +kernel
  refine (printed_binary_loads_iff (Machine.exact_wrapping (2 ^ 64 - 1) false) (Or.inr rfl)
    ?_ ?_ run (by decide)).1.mpr (by decide)
  · intro ips member
    rw [mem_singleton.mp member]
    exact ⟨_, _, load_quad_ranges.1⟩
  · intro ips member
    rw [mem_singleton.mp member]
    exact ⟨_, _, loaded⟩

end RoundTrip

end IpRange.Ipset
