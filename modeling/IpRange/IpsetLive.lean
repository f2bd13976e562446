import IpRange.IpsetLoading

/-!
Loading a binary file into a set that already holds entries: its array, which takes the
records before they are checked, and what a refused file leaves of the set.
-/

namespace IpRange.Ipset

open List Text

/-- An `ipset` with its array as it lies in memory, `entries_max` long: the entries, and room
behind them. -/
structure LiveIpset where
  lines : Nat
  entries : Nat
  uniqueIps : Nat
  flags : BitVec 32
  netaddrs : List Interval
  fits : entries ≤ netaddrs.length
deriving DecidableEq

def flagOptimized : BitVec 32 := 1

structure Surroundings where
  readError : Bool
  /-- Whether memory for so many bytes can be had. -/
  allocates : Nat → Bool
  /-- What lies at an index of the array where no whole record was stored. -/
  garbage : Nat → Interval

inductive Ending where
  | returns (code : Nat) (ips : LiveIpset)
  | exits
deriving DecidableEq

section Load

variable (machine : Machine) (around : Surroundings)

namespace LiveIpset

section

variable (ips : LiveIpset)

def growInternal (needed : Nat) : Option LiveIpset :=
  let increase := max needed entriesIncreaseStep
  let entriesMax := ips.netaddrs.length + increase
  if machine.sizeMax < entriesMax ∨ machine.sizeMax / recordSize < entriesMax then none
  else if !around.allocates (entriesMax * recordSize) then none
  else some { ips with
    netaddrs := ips.netaddrs ++ (List.range' ips.netaddrs.length increase).map around.garbage
    fits := by
      rw [length_append]
      exact Nat.le_add_right_of_le ips.fits }

/-- `ipset_grow`; nothing stands for the end of the program. -/
def grow (needed : Nat) : Option LiveIpset :=
  if ips.netaddrs.length - ips.entries < max needed 1 then
    ips.growInternal machine around (max needed 1)
  else some ips

def write (records : List Interval) : LiveIpset :=
  { ips with
    netaddrs := ips.netaddrs.take ips.entries ++
      (records ++ ips.netaddrs.drop (ips.entries + records.length))
    fits := by
      rw [length_append, length_take, Nat.min_eq_left ips.fits]
      exact Nat.le_add_right _ _ }

/-- `binary_validate_payload` of the records behind the entries; to sort them takes memory. -/
def validate (header : Header) : Option Bool :=
  let payload := (ips.netaddrs.drop ips.entries).take header.records
  if !payloadIsOptimized machine payload && !around.allocates (header.records * recordSize) then none
  else binaryValidatePayload machine header.optimized payload header.uniqueIps

def accept (header : Header) (loaded : Nat) (payloadIsOptimized : Bool)
    (room : ips.entries + loaded ≤ ips.netaddrs.length) : LiveIpset :=
  let flags := ips.flags &&& ~~~flagOptimized
  { ips with
    entries := ips.entries + loaded
    lines := machine.sizeSum ips.lines header.lines
    uniqueIps := u64 (ips.uniqueIps + header.uniqueIps)
    flags := if header.optimized && payloadIsOptimized then flags ||| flagOptimized else flags
    fits := room }

theorem room_written (records more : List Interval) :
    (ips.write (records ++ more)).entries + records.length ≤
      (ips.write (records ++ more)).netaddrs.length := by
  simp only [write, length_append, length_take, Nat.min_eq_left ips.fits]
  omega

end

end LiveIpset

def fread (count : Nat) (stream : Bytes) : List Interval × Bytes :=
  (readRecords machine 4 (min count (stream.length / recordSize)) stream).getD ([], stream)

def loadPayloadInto (header : Header) (stream : Bytes) (ips : LiveIpset) : Ending :=
  if (machine.sizeMax - 4) / recordSize < header.records ∨
      machine.sizeMax - ips.netaddrs.length < header.records ∨
      header.bytes ≠ recordSize * header.records + 4 ∨ stream.length < 4 ∨
      fromMemory machine (stream.take 4) ≠ endianness ∨ header.uniqueIps < header.records ∨
      header.lines < header.records then .returns 1 ips
  else
    match ips.grow machine around header.records with
    | none => .exits
    | some grown =>
      let read := (fread machine header.records (stream.drop 4)).1
      let left := (fread machine header.records (stream.drop 4)).2
      -- a record that is cut short is stored too, and its value is not known
      let torn := if read.length ≠ header.records ∧ left ≠ [] then
        [around.garbage (ips.entries + read.length)] else []
      let filled := grown.write (read ++ torn)
      if read.length ≠ header.records ∨ left ≠ [] ∨ around.readError = true then .returns 1 filled
      else
        match filled.validate machine around header with
        | none => .returns 1 filled
        | some optimized =>
          .returns 0 (filled.accept machine header read.length optimized
            (grown.room_written read torn))

/-- The lines of the header; nothing stands for one that is not as it should be. -/
def headerLines (firstLineMissing : Bool) (stream : Bytes) : Option (Header × Bytes) :=
  if firstLineMissing then readHeader machine (formatV10 machine) stream
  else do
    let (line, stream) ← fgets maxLine stream
    if cString line ≠ binaryHeaderV10 then none
    else readHeader machine (formatV10 machine) stream

def loadBinaryV10Into (firstLineMissing : Bool) (stream : Bytes) (ips : LiveIpset) : Ending :=
  match headerLines machine firstLineMissing stream with
  | none => .returns 1 ips
  | some (header, stream) => loadPayloadInto machine around header stream ips

end Load

/-- What a refused file leaves of a set: all but the room behind its entries. -/
structure Unchanged (ips after : LiveIpset) : Prop where
  lines : after.lines = ips.lines
  entries : after.entries = ips.entries
  uniqueIps : after.uniqueIps = ips.uniqueIps
  flags : after.flags = ips.flags
  records : after.netaddrs.take ips.entries = ips.netaddrs.take ips.entries

/-- A file that is loaded: nothing but the header, the word and its records, of which the
header tells the truth. -/
structure Loads (machine : Machine) (firstLineMissing : Bool) (stream : Bytes)
    (ips after : LiveIpset) (header : Header) (records : List Interval) : Prop where
  whole : ∃ text, HeaderText FieldLine header text ∧
    stream = (if firstLineMissing then [] else binaryHeaderV10) ++ (text ++
      (inMemory machine 4 endianness ++ records.flatMap (recordBytes machine 4)))
  declared : header.records = records.length
  proper : ∀ record ∈ records, record.low ≤ record.high
  unique : header.uniqueIps = (covered records).ncard
  flag : after.flags &&& flagOptimized ≠ 0 → Apart 1 records
  stored : after.netaddrs.take after.entries = ips.netaddrs.take ips.entries ++ records

variable {machine : Machine} {around : Surroundings} {ips after : LiveIpset} {header : Header}
  {stream : Bytes} {code : Nat}

theorem grow_unchanged {needed : Nat} {grown : LiveIpset}
    (done : ips.grow machine around needed = some grown) : Unchanged ips grown := by
  unfold LiveIpset.grow at done
  split at done
  · unfold LiveIpset.growInternal at done
    dsimp only at done
    split at done
    · cases done
    · split at done
      · cases done
      · cases done
        exact ⟨rfl, rfl, rfl, rfl, take_append_of_le_length ips.fits⟩
  · cases done
    exact ⟨rfl, rfl, rfl, rfl, rfl⟩

theorem write_take (ips : LiveIpset) (records more : List Interval) :
    (ips.write (records ++ more)).netaddrs.take (ips.entries + records.length) =
      ips.netaddrs.take ips.entries ++ records := by
  have long : (ips.netaddrs.take ips.entries ++ records).length = ips.entries + records.length := by
    rw [length_append, length_take, Nat.min_eq_left ips.fits]
  show (ips.netaddrs.take ips.entries ++ (records ++ more ++ _)).take _ = _
  rw [append_assoc, ← append_assoc, take_left' long]

theorem Unchanged.write (unchanged : Unchanged ips after) (records : List Interval) :
    Unchanged ips (after.write records) := by
  refine ⟨unchanged.lines, unchanged.entries, unchanged.uniqueIps, unchanged.flags, ?_⟩
  have kept := write_take after [] records
  simp only [nil_append, length_nil, Nat.add_zero, append_nil] at kept
  rw [unchanged.entries] at kept
  rw [kept, unchanged.records]

theorem fread_spec (count : Nat) (stream : Bytes) :
    stream = (fread machine count stream).1.flatMap (recordBytes machine 4) ++
        (fread machine count stream).2 ∧
      Bounded (fread machine count stream).1 := by
  unfold fread
  cases read : readRecords machine 4 (min count (stream.length / recordSize)) stream with
  | none => exact ⟨rfl, by simp [Bounded]⟩
  | some result => exact readRecords_spec read

theorem validate_spec (exact_ : machine.Exact) {records : List Interval} {optimized : Bool}
    (bounded : Bounded records) (declared : records.length = header.records)
    (valid : (ips.write records).validate machine around header = some optimized) :
    (∀ record ∈ records, record.low ≤ record.high) ∧ header.uniqueIps = (covered records).ncard ∧
      (optimized = true → Apart 1 records) := by
  have payload : ((ips.write records).netaddrs.drop ips.entries).take header.records = records := by
    show ((ips.netaddrs.take ips.entries ++ _).drop ips.entries).take header.records = records
    rw [drop_left' (by rw [length_take, Nat.min_eq_left ips.fits]),
      take_left' declared]
  unfold LiveIpset.validate at valid
  dsimp only at valid
  split at valid
  · cases valid
  · exact binaryValidatePayload_spec exact_ bounded (payload ▸ valid)

theorem loadPayloadInto_spec (exact_ : machine.Exact)
    (ran : loadPayloadInto machine around header stream ips = .returns code after) :
    code = 1 ∧ Unchanged ips after ∨ code = 0 ∧ ∃ records,
      stream = inMemory machine 4 endianness ++ records.flatMap (recordBytes machine 4) ∧
      header.records = records.length ∧ (∀ record ∈ records, record.low ≤ record.high) ∧
      header.uniqueIps = (covered records).ncard ∧
      (after.flags &&& flagOptimized ≠ 0 → Apart 1 records) ∧
      after.netaddrs.take after.entries = ips.netaddrs.take ips.entries ++ records := by
  unfold loadPayloadInto at ran
  split at ran
  · cases ran
    exact Or.inl ⟨rfl, rfl, rfl, rfl, rfl, rfl⟩
  next checked =>
  obtain ⟨_, _, _, word, endian, _, _⟩ : _ ∧ _ ∧ _ ∧ ¬ stream.length < 4 ∧
      ¬ fromMemory machine (stream.take 4) ≠ endianness ∧ _ ∧ _ := by
    simpa only [not_or] using checked
  split at ran
  · cases ran
  next grown grows =>
  have unchanged := grow_unchanged grows
  obtain ⟨split, bounded⟩ : _ ∧ Bounded (fread machine header.records (stream.drop 4)).1 :=
    fread_spec header.records (stream.drop 4)
  generalize fread machine header.records (stream.drop 4) = result at ran split bounded
  obtain ⟨read, left⟩ := result
  dsimp only at ran split bounded
  split at ran
  · cases ran
    exact Or.inl ⟨rfl, unchanged.write _⟩
  next good =>
  obtain ⟨declared, rfl, _⟩ : read.length = header.records ∧ left = [] ∧ _ := by
    simpa only [not_or, not_not] using good
  simp only [ne_eq, not_true_eq_false, and_false, if_false] at ran
  split at ran
  · cases ran
    exact Or.inl ⟨rfl, unchanged.write _⟩
  next optimized valid =>
  cases ran
  rw [append_nil] at split valid
  obtain ⟨proper, unique, canonical⟩ := validate_spec exact_ bounded declared valid
  refine Or.inr ⟨rfl, read, ?_, declared.symm, proper, unique, fun flag => ?_, ?_⟩
  · have width : (stream.take 4).length = 4 := by
      simp
      omega
    have start := inMemory_fromMemory machine (stream.take 4)
    rw [width, not_not.mp endian] at start
    rw [start, ← split, take_append_drop]
  · cases ordered : optimized with
    | true => exact canonical ordered
    | false =>
      refine absurd ?_ flag
      simp [LiveIpset.accept, ordered, BitVec.and_assoc]
  · show ((grown.write (read ++ [])).netaddrs.take (grown.entries + read.length)) = _
    rw [write_take, ← unchanged.records, unchanged.entries]

theorem headerLines_spec {firstLineMissing : Bool} {rest : Bytes}
    (read : headerLines machine firstLineMissing stream = some (header, rest)) :
    ∃ text, (rest ≠ [] → HeaderText FieldLine header text) ∧
      stream = (if firstLineMissing then [] else binaryHeaderV10) ++ (text ++ rest) := by
  unfold headerLines at read
  split at read
  · next missing =>
      obtain ⟨_, text, whole, lines⟩ := readHeader_spec read
      exact ⟨text, lines, by rw [if_pos missing, whole, nil_append]⟩
  · next present =>
      obtain ⟨⟨line, left⟩, got, read⟩ := Option.bind_eq_some_iff.mp read
      dsimp only at read
      split at read
      · cases read
      next known =>
      obtain ⟨first, -, ends⟩ := fgets_spec got
      obtain ⟨_, text, whole, lines⟩ := readHeader_spec read
      have line : line = binaryHeaderV10 :=
        (ends (ascii "iprange binary format v1.0") [] (by rw [not_not.mp known]; decide)).2.trans
          (by decide)
      exact ⟨text, lines, by rw [if_neg present, first, whole, line]⟩

/-- `ipset_load_binary_v10` into any set, from any stream: if it returns 0 the stream is a
header, in lines as `fgets` reads them, the endianness word and the records it declares, and no
more; each record is a range, the declared addresses are those of all records together, and the
flag is only set if the records are sorted, disjoint and do not touch. If it does not return 0 it
returns 1 and leaves the set as it was. -/
theorem loadBinaryV10Into_all_or_nothing (exact_ : machine.Exact) {firstLineMissing : Bool}
    (ran : loadBinaryV10Into machine around firstLineMissing stream ips = .returns code after) :
    code = 1 ∧ Unchanged ips after ∨
      code = 0 ∧ ∃ header records, Loads machine firstLineMissing stream ips after header records := by
  unfold loadBinaryV10Into at ran
  split at ran
  · cases ran
    exact Or.inl ⟨rfl, rfl, rfl, rfl, rfl, rfl⟩
  next header rest read =>
  obtain ⟨text, lines, whole⟩ := headerLines_spec read
  rcases loadPayloadInto_spec exact_ ran with refused | ⟨rfl, records, rfl, loaded⟩
  · exact Or.inl refused
  · obtain ⟨declared, proper, unique, flag, stored⟩ := loaded
    have word : inMemory machine 4 endianness ≠ [] :=
      ne_nil_of_length_pos (by rw [inMemory_length]; decide)
    have behind := append_ne_nil_of_left_ne_nil word (records.flatMap (recordBytes machine 4))
    exact Or.inr ⟨rfl, header, records, ⟨text, lines behind, whole⟩, declared, proper, unique, flag,
      stored⟩

def oneEntry : LiveIpset :=
  { lines := 1, entries := 1, uniqueIps := 1, flags := 1, netaddrs := [⟨1, 1⟩, ⟨0, 0⟩],
    fits := by decide }

def twoEntries : LiveIpset :=
  { lines := 2, entries := 2, uniqueIps := 4, flags := 1, netaddrs := [⟨1, 1⟩, ⟨5, 7⟩],
    fits := by decide }

def oneRecordFile : Bytes :=
  ascii "optimized\nrecord size 8\nrecords 1\nbytes 12\nlines 1\nunique ips 3\n" ++
    [0x4d, 0x3c, 0x2b, 0x1a, 5, 0, 0, 0, 7, 0, 0, 0]

theorem one_record_loads : ∃ header records,
    Loads (.wrapping (2 ^ 64 - 1) false) true oneRecordFile oneEntry twoEntries header records := by
  have ran : loadBinaryV10Into (.wrapping (2 ^ 64 - 1) false)
      { readError := false, allocates := fun _ => true, garbage := fun _ => ⟨0, 0⟩ } true
      oneRecordFile oneEntry = .returns 0 twoEntries := by
    decide +kernel
  rcases loadBinaryV10Into_all_or_nothing (Machine.exact_wrapping _ _) ran with ⟨no, _⟩ | ⟨_, loads⟩
  · cases no
  · exact loads

/-- A line of the header as the format has it. -/
def PlainLine (label : Bytes) (value : Nat) (line : Bytes) : Prop :=
  ∃ digits, line = label ++ (digits ++ [newline]) ∧
    (∀ character ∈ digits, isDigit character = true) ∧ number digits = value

def junkFile : Bytes :=
  ascii "optimized\nrecord size 8" ++ [0] ++ ascii "junk\nrecords 1\nbytes 12\nlines 1\n" ++
    ascii "unique ips 3\n" ++ [0x4d, 0x3c, 0x2b, 0x1a, 5, 0, 0, 0, 7, 0, 0, 0]

theorem junk_in_header_loads :
    loadBinaryV10Into (.wrapping (2 ^ 64 - 1) false)
      { readError := false, allocates := fun _ => true, garbage := fun _ => ⟨0, 0⟩ } true
      junkFile oneEntry = .returns 0 twoEntries ∧
    ∀ header text rest, HeaderText PlainLine header text → junkFile ≠ text ++ rest := by
  refine ⟨by decide +kernel, ?_⟩
  rintro header text rest ⟨size, records, bytes, lines, unique, rfl, ⟨digits, rfl, plain, -⟩, -⟩ same
  cases flag : header.optimized with
  | false =>
    rw [flag] at same
    exact absurd (Option.some.inj (congrArg head? same)) (by decide)
  | true =>
    rw [flag, if_pos rfl] at same
    have start : junkFile = ascii "optimized\nrecord size " ++
        (byte '8' :: 0 :: junkFile.drop 24) := by
      decide +kernel
    have label : ascii "optimized\nrecord size " = ascii "optimized\n" ++ ascii "record size " := by
      decide +kernel
    rw [start, label] at same
    simp only [append_assoc, append_cancel_left_eq] at same
    rcases digits with _ | ⟨first, _ | ⟨second, others⟩⟩
    · exact absurd (List.cons.inj same).1 (by decide)
    · exact absurd (List.cons.inj (List.cons.inj same).2).1 (by decide)
    · obtain rfl := (List.cons.inj (List.cons.inj same).2).1
      exact absurd (plain 0 (by simp)) (by decide)

end IpRange.Ipset
