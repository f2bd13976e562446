import IpRange.IpsetDiff

/-!
The counts of the compare modes for IPv6 sets, which stop at the largest number where the
formula for the common addresses wraps around.
-/

namespace IpRange.Ipset6

open Ipset

section Model

variable (machine : Machine)

/-- `ipset6_combine`; nothing stands for `NULL`. -/
def combine (ips1 ips2 : Ipset) : Option Ipset :=
  if machine.sizeMax < ips1.entries + ips2.entries ∨
      machine.sizeMax / formatV20.recordSize < ips1.entries + ips2.entries ∨
      machine.sizeMax < ips1.lines + ips2.lines then none
  else some { create with
    netaddrs := ips1.netaddrs ++ ips2.netaddrs
    lines := ips1.lines + ips2.lines }

structure Row where
  entries1 : Nat
  entries2 : Nat
  ips1 : Nat
  ips2 : Nat
  combinedIps : Nat
  commonIps : Nat
deriving DecidableEq

/-- A row of the compare modes; the program ends where two sets cannot be combined.
`--compare-first` prints some of its columns. -/
def compareRow (ips1 ips2 : Ipset) : Option Row := do
  let ips1 := optimize machine ips1
  let ips2 := optimize machine ips2
  let combined ← combine machine ips1 ips2
  let combined := optimize machine combined
  pure {
    entries1 := ips1.entries
    entries2 := ips2.entries
    ips1 := ips1.uniqueIps
    ips2 := ips2.uniqueIps
    combinedIps := combined.uniqueIps
    commonIps := u128 (u128 (ips1.uniqueIps + ips2.uniqueIps) + 2 ^ 128 - combined.uniqueIps) }

end Model

variable {machine : Machine} {ips ips1 ips2 : Ipset}

theorem countEntry_eq {count lo hi : Nat} (proper : lo ≤ hi) (bound : hi ≤ addrMax) :
    countEntry (min count addrMax) lo hi = min (count + (hi - lo + 1)) addrMax := by
  simp only [countEntry, rangeSize_eq proper bound, u128]
  rw [addrMax] at *
  split_ifs <;> omega

theorem addPieces_unique {pieces : List Interval} {count : Nat}
    (proper : ∀ piece ∈ pieces, piece.low ≤ piece.high)
    (bounded : ∀ piece ∈ pieces, piece.high ≤ addrMax) (start : ips.uniqueIps = min count addrMax) :
    (addPieces (addIpRange machine) ips pieces).uniqueIps = min (count + total pieces) addrMax := by
  induction pieces generalizing ips count with
  | nil => simpa [addPieces] using start
  | cons piece rest ih =>
    have added : (addIpRange machine ips piece.low piece.high).uniqueIps =
        countEntry ips.uniqueIps piece.low piece.high := by
      unfold addIpRange addedEntry
      dsimp only
      split
      · rfl
      · split
        · rfl
        · split
          · rfl
          · split <;> rfl
    rw [start, countEntry_eq (proper piece (by simp)) (bounded piece (by simp))] at added
    have later := ih (fun other member => proper other (List.mem_cons_of_mem _ member))
      (fun other member => bounded other (List.mem_cons_of_mem _ member)) added
    rw [total_cons, Interval.size, ← Nat.add_assoc, ← later]
    rfl

theorem optimize_counted (held : Held addrMax ips) (counted : ips.optimized = true → Counted ips) :
    Counted (optimize machine ips) ∧ (optimize machine ips).addresses = ips.addresses := by
  cases flag : ips.optimized with
  | true =>
    rw [(optimizes6 machine).kept ips flag]
    exact ⟨counted flag, rfl⟩
  | false =>
    obtain ⟨pieces, denotes, same, unique⟩ := optimize_pieces machine held flag
    have bounded : ∀ piece ∈ pieces, piece.high ≤ addrMax := denotes.bounded (by
      rintro address ⟨entry, member, _, high⟩
      exact high.trans (held.bounded entry member))
    have count := @addPieces_unique machine { ips with netaddrs := [], uniqueIps := 0, lines := 0 }
      pieces 0 denotes.apart.proper bounded rfl
    rw [Nat.zero_add] at count
    refine ⟨⟨?_, ?_, ?_⟩, ?_⟩
    · rw [same]
      exact denotes.apart
    · rwa [same]
    · rw [same, unique, count]
    · rw [addresses, same, denotes.same]

theorem combine_counted {combined : Ipset} (counted1 : Counted ips1) (counted2 : Counted ips2)
    (joined : combine machine ips1 ips2 = some combined) :
    Counted (optimize machine combined) ∧
      (optimize machine combined).addresses = ips1.addresses ∪ ips2.addresses := by
  unfold combine at joined
  split at joined
  · cases joined
  · cases joined
    have held : Held addrMax { create with
        netaddrs := ips1.netaddrs ++ ips2.netaddrs, lines := ips1.lines + ips2.lines } :=
      ⟨List.forall_mem_append.mpr ⟨counted1.apart.proper, counted2.apart.proper⟩,
        List.forall_mem_append.mpr ⟨counted1.bounded, counted2.bounded⟩, nofun⟩
    obtain ⟨counted, same⟩ := @optimize_counted machine _ held nofun
    exact ⟨counted, same.trans (covered_append _ _)⟩

theorem Counted.ncard (counted : Counted ips) :
    ips.uniqueIps = min ips.addresses.ncard addrMax ∧ ips.addresses.ncard ≤ 2 ^ 128 ∧
      (ips.addresses = Set.Icc 0 addrMax ↔ ips.addresses.ncard = 2 ^ 128) := by
  have most := total_le counted.apart counted.bounded
  have whole := total_lt_iff counted.apart counted.bounded
  rw [addresses, counted.apart.ncard]
  refine ⟨counted.unique, most, ?_⟩
  rw [← not_iff_not, ← ne_eq, ← whole]
  omega

/-- The combined addresses of a row are always right, up to the largest number. The common ones
are right exactly unless two sets that are not the whole address space make it up together. -/
theorem compareRow_exact_iff (held1 : Held addrMax ips1) (held2 : Held addrMax ips2)
    (counted1 : ips1.optimized = true → Counted ips1) (counted2 : ips2.optimized = true → Counted ips2)
    {row : Row} (made : compareRow machine ips1 ips2 = some row) :
    row.combinedIps = min (ips1.addresses ∪ ips2.addresses).ncard addrMax ∧
      (row.commonIps = min (ips1.addresses ∩ ips2.addresses).ncard addrMax ↔
        ¬ (ips1.addresses ∪ ips2.addresses = Set.Icc 0 addrMax ∧
          ips1.addresses ≠ Set.Icc 0 addrMax ∧ ips2.addresses ≠ Set.Icc 0 addrMax)) := by
  obtain ⟨counted1, same1⟩ := @optimize_counted machine _ held1 counted1
  obtain ⟨counted2, same2⟩ := @optimize_counted machine _ held2 counted2
  obtain ⟨combined, joined, columns⟩ := Option.bind_eq_some_iff.mp made
  obtain ⟨counted, same⟩ := combine_counted counted1 counted2 joined
  cases Option.some.inj columns
  obtain ⟨unique, most, whole⟩ := counted.ncard
  obtain ⟨unique1, most1, whole1⟩ := counted1.ncard
  obtain ⟨unique2, most2, whole2⟩ := counted2.ncard
  rw [same1] at same unique1 most1 whole1
  rw [same2] at same unique2 most2 whole2
  rw [same] at unique most whole
  have finite (ips : Ipset) : ips.addresses.Finite := covered_finite _
  have sizes := Set.ncard_union_add_ncard_inter ips1.addresses ips2.addresses (finite _) (finite _)
  have less1 := Set.ncard_le_ncard (Set.subset_union_left (s := ips1.addresses) (t := ips2.addresses))
    ((finite _).union (finite _))
  have less2 := Set.ncard_le_ncard (Set.subset_union_right (s := ips1.addresses) (t := ips2.addresses))
    ((finite _).union (finite _))
  rw [ne_eq, ne_eq, whole, whole1, whole2]
  dsimp only
  rw [unique, unique1, unique2, addrMax, u128, u128]
  omega

def half (first : Nat) : Ipset :=
  { lines := 1, netaddrs := [{ low := first, high := first + (2 ^ 127 - 1) }], uniqueIps := 2 ^ 127,
    optimized := true }

/-- The two halves of the address space have no address in common, but one is reported. -/
theorem halves_report_one :
    compareRow wide (half 0) (half (2 ^ 127)) =
        some { entries1 := 1, entries2 := 1, ips1 := 2 ^ 127, ips2 := 2 ^ 127,
               combinedIps := addrMax, commonIps := 1 } ∧
      (half 0).addresses ∩ (half (2 ^ 127)).addresses = ∅ := by
  have sorted : ((half 0).netaddrs ++ (half (2 ^ 127)).netaddrs).mergeSort comparNetaddr =
      (half 0).netaddrs ++ (half (2 ^ 127)).netaddrs := List.mergeSort_of_pairwise (by decide)
  constructor
  · have joined : combine wide (half 0) (half (2 ^ 127)) = some { create with
        netaddrs := (half 0).netaddrs ++ (half (2 ^ 127)).netaddrs, lines := 2 } := by
      decide +kernel
    rw [compareRow, (optimizes6 wide).kept _ rfl, (optimizes6 wide).kept _ rfl, joined,
      Option.bind_eq_bind, Option.bind_some, optimize, sorted]
    decide +kernel
  · ext address
    simp [half, addresses, Interval.mem_members]
    omega

def span (first count : Nat) : Ipset :=
  { lines := 1, netaddrs := [{ low := first, high := first + count }], uniqueIps := count + 1,
    optimized := true }

theorem compareRow_exact_sample : ∃ row, compareRow wide (span 0 9) (span 5 9) = some row ∧
    row.commonIps = 5 ∧ row.combinedIps = 15 ∧
    row.commonIps = min ((span 0 9).addresses ∩ (span 5 9).addresses).ncard addrMax := by
  have counted : ∀ first, first = 0 ∨ first = 5 → Counted (span first 9) := by
    rintro first (rfl | rfl) <;> exact ⟨by decide, by simp [span, addrMax], by decide⟩
  have held : ∀ first, first = 0 ∨ first = 5 → Held addrMax (span first 9) := by
    intro first either
    have kept := counted first either
    exact ⟨kept.apart.proper, kept.bounded, fun _ => kept.apart.closer (Nat.zero_le _)⟩
  have sorted : ((span 0 9).netaddrs ++ (span 5 9).netaddrs).mergeSort comparNetaddr =
      (span 0 9).netaddrs ++ (span 5 9).netaddrs := List.mergeSort_of_pairwise (by decide)
  have made : compareRow wide (span 0 9) (span 5 9) = some
      { entries1 := 1, entries2 := 1, ips1 := 10, ips2 := 10, combinedIps := 15, commonIps := 5 } := by
    have joined : combine wide (span 0 9) (span 5 9) = some { create with
        netaddrs := (span 0 9).netaddrs ++ (span 5 9).netaddrs, lines := 2 } := by
      decide +kernel
    rw [compareRow, (optimizes6 wide).kept _ rfl, (optimizes6 wide).kept _ rfl, joined,
      Option.bind_eq_bind, Option.bind_some, optimize, sorted]
    decide +kernel
  refine ⟨_, made, rfl, rfl, ((compareRow_exact_iff (held 0 (Or.inl rfl)) (held 5 (Or.inr rfl))
    (fun _ => counted 0 (Or.inl rfl)) (fun _ => counted 5 (Or.inr rfl)) made).2).mpr ?_⟩
  rintro ⟨whole, _⟩
  have last : addrMax ∈ Set.Icc 0 addrMax := ⟨Nat.zero_le _, le_rfl⟩
  rw [← whole] at last
  simp [span, addresses, Interval.mem_members, addrMax] at last

end IpRange.Ipset6
