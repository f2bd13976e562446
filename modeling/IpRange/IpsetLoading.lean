import IpRange.IpsetFormatCore
import IpRange.IpsetSweeps

/-!
What every loaded set keeps, whatever its file holds, and what a mode hands to the
printer.
-/

namespace IpRange.Ipset

open Option List Text

variable {machine : Machine} {environment : Environment} {ips : Ipset}

theorem foldlM_keeps {α β : Type} {step : β → α → Option β} {good : β → Prop}
    (keeps : ∀ state value next, good state → step state value = some next → good next)
    {values : List α} {start stop : β} (begin_ : good start)
    (done : values.foldlM step start = some stop) : good stop := by
  induction values generalizing start with
  | nil =>
    cases done
    exact begin_
  | cons value values ih =>
    rw [foldlM_cons] at done
    obtain ⟨next, first, rest⟩ := bind_eq_some_iff.mp done
    exact ih (keeps start value next begin_ first) rest

structure Usable (machine : Machine) (ips : Ipset) : Prop where
  kept : Kept ips ips.addresses
  lines : ips.lines ≤ machine.sizeMax

theorem sizeSum_le (left right : Nat) : machine.sizeSum left right ≤ machine.sizeMax := by
  exact Nat.le_of_lt_succ (Nat.mod_lt (left + right) (Nat.succ_pos machine.sizeMax))

theorem addIpRange_lines (from_ to_ : Nat) :
    (ips.addIpRange machine from_ to_).lines = machine.sizeSum ips.lines 1 := by
  unfold addIpRange addedEntry
  dsimp only
  split
  · rfl
  · split
    · rfl
    · split
      · rfl
      · split <;> rfl

theorem Kept.self {addresses : Set Nat} (kept : Kept ips addresses) : Kept ips ips.addresses :=
  ⟨kept.ranges, rfl, kept.flagged⟩

theorem Usable.add (usable : Usable machine ips) (exact_ : machine.Exact) {lo hi : Nat}
    (proper : lo ≤ hi) (bound : hi ≤ addrMax) : Usable machine (ips.addIpRange machine lo hi) :=
  ⟨(usable.kept.add exact_ proper bound).self, by
    rw [addIpRange_lines]
    exact sizeSum_le _ _⟩

theorem usable_opened : Usable machine opened :=
  ⟨⟨canonical_opened.counted.ranges, rfl, fun _ => canonical_opened.counted⟩, Nat.zero_le _⟩

theorem addr_le (addr : Addr) : addr.toNat ≤ addrMax := by
  have := addr.isLt
  rw [addrMax]
  omega

theorem str2netaddr_proper {text : Bytes} {entry : Interval}
    (read : str2netaddr environment text = some entry) :
    entry.low ≤ entry.high ∧ entry.high ≤ addrMax := by
  unfold str2netaddr at read
  obtain ⟨length, _, read⟩ := bind_eq_some_iff.mp read
  obtain ⟨address, _, read⟩ := bind_eq_some_iff.mp read
  cases read
  refine ⟨?_, addr_le _⟩
  rw [broadcast, BitVec.toNat_or]
  exact Nat.left_le_or

theorem Usable.addIpstr (usable : Usable machine ips) (exact_ : machine.Exact) {text : Bytes}
    {grown : Ipset} (added : addIpstr environment machine ips text = some grown) :
    Usable machine grown := by
  obtain ⟨entry, read, same⟩ := bind_eq_some_iff.mp added
  cases same
  obtain ⟨proper, bound⟩ := str2netaddr_proper read
  exact usable.add exact_ proper bound

theorem Usable.addAddresses (usable : Usable machine ips) (exact_ : machine.Exact)
    (addresses : List Addr) : Usable machine (addAddresses machine ips addresses) := by
  induction addresses generalizing ips with
  | nil => exact usable
  | cons address addresses ih => exact ih (usable.add exact_ le_rfl (addr_le address))

theorem loadLine_usable (exact_ : machine.Exact) (loading : Loading) (line : Bytes)
    (next : Loading) (usable : Usable machine loading.ips)
    (done : loadLine environment machine loading line = some next) : Usable machine next.ips := by
  unfold loadLine at done
  dsimp only at done
  split at done
  · split at done
    · split at done
      · next ips mapped =>
          cases done
          obtain ⟨text, _, added⟩ := bind_eq_some_iff.mp mapped
          exact usable.addIpstr exact_ added
      · cases done
        exact usable
    · cases done
      exact usable
  · cases done
    exact usable
  · cases done
    split
    · next added => exact usable.addIpstr exact_ added
    · exact usable
  · cases done
    split
    · next added =>
        obtain ⟨entry1, read1, added⟩ := bind_eq_some_iff.mp added
        obtain ⟨entry2, read2, added⟩ := bind_eq_some_iff.mp added
        cases added
        obtain ⟨proper1, bound1⟩ := str2netaddr_proper read1
        obtain ⟨proper2, bound2⟩ := str2netaddr_proper read2
        exact usable.add exact_ (by omega) (by omega)
    · exact usable
  · split at done
    · cases done
      exact usable.addAddresses exact_ _
    · cases done

theorem loadDone_usable (exact_ : machine.Exact) {loading : Loading}
    (usable : Usable machine loading.ips) (done : loadDone environment machine loading = some ips) :
    Usable machine ips := by
  obtain ⟨replies, _, done⟩ := bind_eq_some_iff.mp done
  split at done
  · cases done
  · cases done
    exact usable.addAddresses exact_ replies

section BinaryFiles

variable {entries : List Interval}

theorem payloadIsOptimized_iff (exact_ : machine.Exact)
    (proper : ∀ entry ∈ entries, entry.low ≤ entry.high) (bounded : Bounded entries) :
    payloadIsOptimized machine entries = true ↔ Apart 1 entries := by
  induction entries with
  | nil => exact ⟨fun _ => Apart.nil, fun _ => rfl⟩
  | cons prev rest ih =>
    cases rest with
    | nil =>
      refine ⟨fun _ => ?_, fun _ => rfl⟩
      exact apart_cons.mpr ⟨proper prev (by simp), by simp, Apart.nil⟩
    | cons curr rest =>
      have tail := ih (fun entry member => proper entry (mem_cons_of_mem _ member))
        bounded.tail
      have prevProper := proper prev (by simp)
      have currProper := proper curr (by simp)
      have currBound := bounded curr (by simp)
      have placed : misplaced machine prev curr = false ↔ prev.high + 1 < curr.low := by
        by_cases edge : prev.high = addrMax
        · simp [misplaced, edge]
          omega
        · have prevBound := bounded prev (by simp)
          simp [misplaced, edge, exact_.next prev.high (by omega)]
          omega
      rw [payloadIsOptimized, Bool.and_eq_true, Bool.not_eq_true', placed, tail]
      constructor
      · rintro ⟨gap, apart⟩
        refine apart_cons.mpr ⟨prevProper, ?_, apart⟩
        intro later member
        rcases mem_cons.mp member with same | behind
        · rw [same]
          exact gap
        · have := (apart_cons.mp apart).2.1 later behind
          omega
      · intro apart
        obtain ⟨_, after, apart⟩ := apart_cons.mp apart
        exact ⟨after curr (by simp), apart⟩

theorem addUniqueIps_total {total_ lo hi sum : Nat} (added : addUniqueIps total_ lo hi = some sum) :
    sum = total_ + (hi - lo + 1) := by
  unfold addUniqueIps at added
  dsimp only at added
  split at added
  · cases added
  · cases added
    rfl

theorem foldlM_addUniqueIps {start sum : Nat}
    (added : entries.foldlM (fun total entry => addUniqueIps total entry.low entry.high) start =
      some sum) : sum = start + total entries := by
  induction entries generalizing start with
  | nil =>
    cases added
    rfl
  | cons entry entries ih =>
    rw [foldlM_cons] at added
    obtain ⟨next, first, rest⟩ := bind_eq_some_iff.mp added
    rw [ih rest, addUniqueIps_total first, total_cons, Interval.size]
    omega

theorem uniqueLoop_eq (machine : Machine) (sum : Option Nat) (lo hi : Nat) :
    coalesceLoop addrMax machine.next
        (fun sum lo hi => sum.bind fun total => addUniqueIps total lo hi) sum lo hi entries =
      sum.bind fun total => uniqueLoop machine total lo hi entries := by
  induction entries generalizing sum lo hi with
  | nil => rfl
  | cons next rest ih =>
    simp only [coalesceLoop, uniqueLoop, ih]
    split
    · rfl
    · split
      · rfl
      · exact bind_assoc ..

theorem addPieces_addUniqueIps (sum : Option Nat) :
    addPieces (fun sum lo hi => sum.bind fun total => addUniqueIps total lo hi) sum entries =
      sum.bind fun start =>
        entries.foldlM (fun total entry => addUniqueIps total entry.low entry.high) start := by
  induction entries generalizing sum with
  | nil => exact (bind_fun_some sum).symm
  | cons entry rest ih => exact (ih _).trans (bind_assoc ..)

theorem actualUniqueIps_spec (exact_ : machine.Exact) (ranges : Ranges entries) {actual : Nat}
    (counted : actualUniqueIps machine entries = some actual) : actual = (covered entries).ncard := by
  unfold actualUniqueIps at counted
  split at counted
  · next ordered =>
      have apart := (payloadIsOptimized_iff exact_ ranges.proper ranges.bounded).mp ordered
      rw [foldlM_addUniqueIps counted, Nat.zero_add, apart.ncard]
  · split at counted
    · cases counted
    · next first rest sorted =>
        obtain ⟨pieces, denotes, _, runs⟩ := coalesceLoop_mergeSort exact_ ranges
          (fun sum lo hi => sum.bind fun total => addUniqueIps total lo hi) (some 0) sorted
        rw [uniqueLoop_eq, addPieces_addUniqueIps, bind_some, bind_some, counted] at runs
        rw [foldlM_addUniqueIps runs.symm, Nat.zero_add, ← denotes.apart.ncard, denotes.same]

theorem binaryValidatePayload_spec (exact_ : machine.Exact) (bounded : Bounded entries)
    {headerOptimized optimized : Bool} {expected : Nat}
    (valid : binaryValidatePayload machine headerOptimized entries expected = some optimized) :
    (∀ entry ∈ entries, entry.low ≤ entry.high) ∧ expected = (covered entries).ncard ∧
      (optimized = true → Apart 1 entries) := by
  unfold binaryValidatePayload at valid
  split at valid
  · next empty =>
      rw [empty]
      split at valid
      · cases valid
      · next zero => exact ⟨by simp, by simpa using zero, fun _ => Apart.nil⟩
  · split at valid
    · cases valid
    · next allProper =>
        have proper : ∀ entry ∈ entries, entry.low ≤ entry.high := by
          simpa using allProper
        obtain ⟨actual, counted, valid⟩ := bind_eq_some_iff.mp valid
        split at valid
        · cases valid
        · next same =>
            split at valid
            · cases valid
            · cases valid
              have sum := actualUniqueIps_spec exact_ ⟨proper, bounded⟩ counted
              exact ⟨proper, by omega, (payloadIsOptimized_iff exact_ proper bounded).mp⟩

theorem fromMemory_lt (machine : Machine) (bytes : Bytes) :
    fromMemory machine bytes < 256 ^ bytes.length := by
  unfold fromMemory
  split
  · simpa using fromLeBytes_lt bytes.reverse
  · exact fromLeBytes_lt bytes

variable {stream rest : Bytes}

theorem inMemory_length (width value : Nat) : (inMemory machine width value).length = width := by
  unfold inMemory
  split <;> simp

theorem inMemory_fromMemory (machine : Machine) (bytes : Bytes) :
    inMemory machine bytes.length (fromMemory machine bytes) = bytes := by
  unfold inMemory fromMemory
  split
  · rw [← length_reverse, toLeBytes_fromLeBytes, reverse_reverse]
  · exact toLeBytes_fromLeBytes bytes

theorem readRecords_spec {count : Nat}
    (read : readRecords machine 4 count stream = some (entries, rest)) :
    stream = entries.flatMap (recordBytes machine 4) ++ rest ∧ Bounded entries := by
  induction count generalizing stream entries with
  | zero =>
    cases read
    simp [Bounded]
  | succ count ih =>
    rw [readRecords] at read
    split at read
    · cases read
    next enough =>
    obtain ⟨⟨others, left⟩, more, read⟩ := bind_eq_some_iff.mp read
    cases read
    obtain ⟨later, bounded⟩ := ih more
    have width1 : (stream.take 4).length = 4 := by
      simp
      omega
    have width2 : ((stream.drop 4).take 4).length = 4 := by
      simp
      omega
    have low := inMemory_fromMemory machine (stream.take 4)
    have high := inMemory_fromMemory machine ((stream.drop 4).take 4)
    rw [width1] at low
    rw [width2] at high
    constructor
    · rw [flatMap_cons, recordBytes, low, high, append_assoc, ← later,
        show 2 * 4 = 4 + 4 from rfl, ← drop_drop, append_assoc, take_append_drop,
        take_append_drop]
    · intro entry member
      rcases mem_cons.mp member with same | inside
      · have small := fromMemory_lt machine ((stream.drop 4).take 4)
        rw [width2] at small
        rw [same, addrMax]
        dsimp only
        omega
      · exact bounded entry inside

/-- A line of the header as the loader takes it: a line that its buffer holds, and in the string
of it the label, digits, and no more than a newline. The line may go on after the zero byte that
ends its string. -/
def FieldLine (label : Bytes) (value : Nat) (line : Bytes) : Prop :=
  IsLine maxLine line ∧ ∃ digits ending, cString line = label ++ (digits ++ ending) ∧ digits ≠ [] ∧
    (∀ character ∈ digits, isDigit character = true) ∧ number digits = value ∧
    (ending = [] ∨ ending = [newline])

theorem headerField_spec {label : Bytes} {limit value : Nat}
    (read : headerField label (parseBinaryField limit) stream = some (value, rest)) :
    value ≤ limit ∧ ∃ line, stream = line ++ rest ∧ (rest ≠ [] → FieldLine label value line) := by
  obtain ⟨⟨line, left⟩, got, read⟩ := bind_eq_some_iff.mp read
  dsimp only at read
  split at read
  · cases read
  next labelled =>
  obtain ⟨found, parsed, read⟩ := bind_eq_some_iff.mp read
  cases read
  obtain ⟨text, string⟩ : label <+: cString line := by simpa using labelled
  obtain ⟨whole, isLine, ends⟩ := fgets_spec got
  rw [← string, drop_left, parseBinaryField] at parsed
  split at parsed
  · cases parsed
  next some_ =>
  split at parsed
  · cases parsed
  split at parsed
  · cases parsed
  next last =>
  split at parsed
  · cases parsed
  next within =>
  cases parsed
  have cut : text.takeWhile isDigit ++ text.dropWhile isDigit = text :=
    takeWhile_append_dropWhile
  refine ⟨by omega, line, whole, fun more => ⟨isLine more, _, text.dropWhile isDigit,
    by rw [cut, string], some_, fun character => mem_takeWhile_imp, rfl, ?_⟩⟩
  cases ending : text.dropWhile isDigit with
  | nil => exact Or.inl rfl
  | cons character more =>
    have same : character = newline := by simpa [ending] using last
    rw [← string, ← cut, ending, same, ← append_assoc] at ends
    rw [same, (ends _ more rfl).1]
    exact Or.inr rfl

/-- The lines of a header, each but the flag a `Line` of its label and value. -/
def HeaderText (Line : Bytes → Nat → Bytes → Prop) (header : Header) (text : Bytes) : Prop :=
  ∃ size records bytes lines unique,
    text = (if header.optimized then ascii "optimized\n" else ascii "non-optimized\n") ++
      (size ++ (records ++ (bytes ++ (lines ++ unique)))) ∧
    Line (ascii "record size ") recordSize size ∧ Line (ascii "records ") header.records records ∧
    Line (ascii "bytes ") header.bytes bytes ∧ Line (ascii "lines ") header.lines lines ∧
    Line (ascii "unique ips ") header.uniqueIps unique

theorem readHeader_spec {header : Header}
    (read : readHeader machine (formatV10 machine) stream = some (header, rest)) :
    header.lines ≤ machine.sizeMax ∧
      ∃ text, stream = text ++ rest ∧ (rest ≠ [] → HeaderText FieldLine header text) := by
  unfold readHeader at read
  obtain ⟨⟨line, stream1⟩, got, read⟩ := bind_eq_some_iff.mp read
  dsimp only at read
  split at read
  · cases read
  next known =>
  obtain ⟨⟨size, stream2⟩, sized, read⟩ := bind_eq_some_iff.mp read
  dsimp only at read
  split at read
  · cases read
  next expected =>
  obtain ⟨⟨records, stream3⟩, counted, read⟩ := bind_eq_some_iff.mp read
  obtain ⟨⟨bytes, stream4⟩, measured, read⟩ := bind_eq_some_iff.mp read
  obtain ⟨⟨lines, stream5⟩, numbered, read⟩ := bind_eq_some_iff.mp read
  obtain ⟨⟨unique, stream6⟩, summed, read⟩ := bind_eq_some_iff.mp read
  cases read
  obtain ⟨whole, -, ends⟩ := fgets_spec got
  have flag : line = if cString line = ascii "optimized\n" then ascii "optimized\n"
      else ascii "non-optimized\n" := by
    split
    · next plain => exact (ends (ascii "optimized") [] (by rw [plain]; decide)).2.trans (by decide)
    · next other =>
        have plain : cString line = ascii "non-optimized\n" :=
          not_not.mp fun neither => known ⟨other, neither⟩
        exact (ends (ascii "non-optimized") [] (by rw [plain]; decide)).2.trans (by decide)
  obtain ⟨_, line1, whole1, field1⟩ := headerField_spec sized
  obtain ⟨_, line2, whole2, field2⟩ := headerField_spec counted
  obtain ⟨_, line3, whole3, field3⟩ := headerField_spec measured
  obtain ⟨within, line4, whole4, field4⟩ := headerField_spec numbered
  obtain ⟨_, line5, whole5, field5⟩ := headerField_spec summed
  have size : size = recordSize := not_not.mp expected
  refine ⟨within, line ++ (line1 ++ (line2 ++ (line3 ++ (line4 ++ line5)))), ?_, fun more => ?_⟩
  · simp only [append_assoc, ← whole5, ← whole4, ← whole3, ← whole2, ← whole1, ← whole]
  · -- what is left behind a line holds the lines that follow
    have goes {line left whole : Bytes} (same : whole = line ++ left) (more : left ≠ []) : whole ≠ [] :=
      same ▸ append_ne_nil_of_right_ne_nil _ more
    have more5 := goes whole5 more
    have more4 := goes whole4 more5
    have more3 := goes whole3 more4
    have more2 := goes whole2 more3
    refine ⟨line1, line2, line3, line4, line5, ?_, size ▸ field1 more2, field2 more3, field3 more4,
      field4 more5, field5 more⟩
    simp only [decide_eq_true_eq, ← flag]

theorem loadPayload_usable (exact_ : machine.Exact) {header : Header}
    (small : header.lines ≤ machine.sizeMax)
    (loaded : loadPayload machine (formatV10 machine) header stream = some ips) :
    Usable machine ips := by
  unfold loadPayload at loaded
  split at loaded
  · cases loaded
  split at loaded
  · cases loaded
  split at loaded
  · cases loaded
  split at loaded
  · cases loaded
  split at loaded
  · cases loaded
  split at loaded
  · cases loaded
  split at loaded
  · cases loaded
  split at loaded
  · cases loaded
  · obtain ⟨⟨entries, rest⟩, read, loaded⟩ := bind_eq_some_iff.mp loaded
    dsimp only at loaded
    split at loaded
    · cases loaded
    · obtain ⟨optimized, valid, loaded⟩ := bind_eq_some_iff.mp loaded
      cases loaded
      have bounded := (readRecords_spec read).2
      obtain ⟨proper, unique, canonical⟩ := binaryValidatePayload_spec exact_ bounded valid
      refine ⟨⟨⟨proper, bounded⟩, rfl, fun flag => ?_⟩, small⟩
      obtain ⟨_, ordered⟩ := Bool.and_eq_true_iff.mp flag
      have apart := canonical ordered
      exact ⟨apart, bounded, unique.trans apart.ncard⟩

end BinaryFiles

theorem load_usable (exact_ : machine.Exact) {file : Bytes}
    (loaded : load environment machine file = some ips) : Usable machine ips := by
  unfold load at loaded
  split at loaded
  · cases loaded
    exact usable_opened
  · split at loaded
    · obtain ⟨⟨header, stream⟩, read, loaded⟩ := bind_eq_some_iff.mp loaded
      exact loadPayload_usable exact_ (readHeader_spec read).1 loaded
    · split at loaded
      · cases loaded
      · obtain ⟨loading, turns, done⟩ := bind_eq_some_iff.mp loaded
        refine loadDone_usable exact_ ?_ done
        exact foldlM_keeps (loadLine_usable exact_) usable_opened turns

section Modes

variable {root second : Ipset} {roots seconds : List Ipset}

theorem Usable.merge {add merged : Ipset} (usable : Usable machine ips)
    (other : Usable machine add) (done : ips.merge machine add = some merged) :
    Usable machine merged := by
  unfold Ipset.merge at done
  split at done
  · cases done
  · next room =>
      cases done
      refine ⟨⟨usable.kept.ranges.append other.kept.ranges, rfl, fun flag => by cases flag⟩, ?_⟩
      dsimp only
      omega

theorem mergeAll_usable (usable : Usable machine root)
    (others : ∀ add ∈ roots, Usable machine add) (done : mergeAll machine root roots = some ips) :
    Usable machine ips := by
  induction roots generalizing root with
  | nil =>
    cases done
    exact usable
  | cons add roots ih =>
    rw [mergeAll, foldlM_cons] at done
    obtain ⟨merged, first, done⟩ := bind_eq_some_iff.mp done
    exact ih (usable.merge (others add (by simp)) first)
      (fun later member => others later (by simp [member])) done

structure Printable (machine : Machine) (gap : Nat) (ips : Ipset) : Prop where
  flag : ips.optimized = true
  counted : Counted gap ips
  lines : ips.lines ≤ machine.sizeMax

theorem Printable.usable (printable : Printable machine 1 ips) : Usable machine ips :=
  ⟨⟨printable.counted.ranges, rfl, fun _ => printable.counted⟩, printable.lines⟩

theorem Usable.optimize (usable : Usable machine ips) (exact_ : machine.Exact) :
    Printable machine 1 (ips.optimize machine) := by
  have canonical := usable.kept.optimize exact_
  refine ⟨canonical.flag, canonical.counted, ?_⟩
  rw [optimize_lines]
  exact usable.lines

theorem Usable.common (usable1 : Usable machine root) (usable2 : Usable machine second)
    (exact_ : machine.Exact) : Printable machine 1 (root.common machine second) :=
  ⟨rfl, (usable1.kept.common usable2.kept exact_).counted, sizeSum_le _ _⟩

theorem Usable.exclude (usable1 : Usable machine root) (usable2 : Usable machine second)
    (exact_ : machine.Exact) : Printable machine 1 (root.exclude machine second) :=
  ⟨rfl, (usable1.kept.exclude usable2.kept exact_).counted, sizeSum_le _ _⟩

theorem Counted.closer {gap less : Nat} (counted : Counted gap ips) (order : less ≤ gap) :
    Counted less ips :=
  ⟨counted.apart.closer order, counted.bounded, counted.unique⟩

theorem Usable.diff (usable1 : Usable machine root) (usable2 : Usable machine second)
    (exact_ : machine.Exact) : Printable machine 0 (root.diff machine second) := by
  have canonical1 := usable1.kept.optimize exact_
  have canonical2 := usable2.kept.optimize exact_
  have swept := diff_spec exact_ (canonical1.counted.apart.closer (by decide))
    (canonical2.counted.apart.closer (by decide)) canonical1.counted.bounded
    canonical2.counted.bounded
  exact ⟨rfl, swept.2, sizeSum_le _ _⟩

theorem optimize_of_flag (flag : ips.optimized = true) : ips.optimize machine = ips := by
  rw [Ipset.optimize, if_pos flag]

theorem foldl_printable {sweep : Ipset → Ipset → Ipset}
    (sweeps : ∀ ips1 ips2, Usable machine ips1 → Usable machine ips2 →
      Printable machine 1 (sweep ips1 ips2))
    (others : ∀ add ∈ roots, Usable machine add) (start : Printable machine 1 ips) :
    Printable machine 1 (roots.foldl sweep ips) := by
  induction roots generalizing ips with
  | nil => exact start
  | cons add roots ih =>
    exact ih (fun later member => others later (by simp [member]))
      (sweeps ips add start.usable (others add (by simp)))

theorem runMode_printable (exact_ : machine.Exact) {mode : Mode}
    (usable1 : ∀ add ∈ roots, Usable machine add) (usable2 : ∀ add ∈ seconds, Usable machine add)
    (run : runMode machine mode roots seconds = some ips) :
    Printable machine 0 (ips.optimize machine) ∧
      (mode ≠ .diff → Printable machine 1 (ips.optimize machine)) := by
  have weaker (printable : Printable machine 1 (ips.optimize machine)) :
      Printable machine 0 (ips.optimize machine) ∧
        (mode ≠ .diff → Printable machine 1 (ips.optimize machine)) :=
    ⟨⟨printable.flag, printable.counted.closer (by decide), printable.lines⟩, fun _ => printable⟩
  have sweepCommon (ips1 ips2 : Ipset) (first : Usable machine ips1) (second : Usable machine ips2) :=
    first.common second exact_
  have sweepExclude (ips1 ips2 : Ipset) (first : Usable machine ips1)
      (second : Usable machine ips2) := first.exclude second exact_
  unfold runMode at run
  split at run
  · next root rest =>
      have merged := mergeAll_usable (usable1 root (by simp))
        (fun add member => usable1 add (by simp [member])) run
      exact weaker (merged.optimize exact_)
  · next root next rest =>
      cases run
      have first := (usable1 root (by simp)).common (usable1 next (by simp)) exact_
      have later : ∀ add ∈ rest, Usable machine add := fun add member =>
        usable1 add (by simp [member])
      have swept := foldl_printable sweepCommon later first
      exact weaker (swept.usable.optimize exact_)
  · next root rest second more =>
      obtain ⟨merged, merges, run⟩ := bind_eq_some_iff.mp run
      cases run
      have usable := mergeAll_usable (usable1 root (by simp))
        (fun add member => usable1 add (by simp [member])) merges
      have first := usable.exclude (usable2 second (by simp)) exact_
      have later : ∀ add ∈ more, Usable machine add := fun add member =>
        usable2 add (by simp [member])
      have swept := foldl_printable sweepExclude later first
      exact weaker (swept.usable.optimize exact_)
  · next root rest second more =>
      obtain ⟨merged1, merges1, run⟩ := bind_eq_some_iff.mp run
      obtain ⟨merged2, merges2, run⟩ := bind_eq_some_iff.mp run
      cases run
      have usable1 := mergeAll_usable (usable1 root (by simp))
        (fun add member => usable1 add (by simp [member])) merges1
      have usable2 := mergeAll_usable (usable2 second (by simp))
        (fun add member => usable2 add (by simp [member])) merges2
      have printable := usable1.diff usable2 exact_
      rw [optimize_of_flag printable.flag]
      exact ⟨printable, fun other => absurd rfl other⟩
  · cases run

end Modes

end IpRange.Ipset
