import IpRange.IpsetV6

/-!
The difference of two sets, IPv4 and IPv6. Its addresses are always right; its entries, which
carry the flag of optimized ones, are canonical exactly when no piece of the one set touches a
piece of the other.
-/

namespace IpRange.Ipset6

open Text Ipset

section Model

variable (machine : Machine)

def optimizeLoop : Ipset → Nat → Nat → List Interval → Ipset :=
  coalesceLoop addrMax (fun address => u128 (address + 1)) (addIpRange machine)

/-- `ipset6_optimize`; `compar_netaddr6` orders entries as `compar_netaddr` does. -/
def optimize (ips : Ipset) : Ipset :=
  if ips.optimized then ips
  else
    match ips.netaddrs.mergeSort comparNetaddr with
    | [] => { ips with optimized := true, uniqueIps := 0 }
    | first :: rest =>
      let done := optimizeLoop machine { ips with netaddrs := [], uniqueIps := 0, lines := 0 }
        first.low first.high rest
      { done with lines := ips.lines, optimized := true }

/-- The sweep of `ipset6_diff`, with `u128_inc` and `u128_dec`. -/
def diffLoop : Nat → List Interval → List Interval → Ipset → Ipset :=
  differLoop (fun address => u128 (address + 1)) (fun address => u128 (address + addrMax))
    (addIpRange machine)

def diff (ips1 ips2 : Ipset) : Ipset :=
  let ips1 := optimize machine ips1
  let ips2 := optimize machine ips2
  finish machine
    (diffLoop machine (ips1.entries + ips2.entries) ips1.netaddrs ips2.netaddrs create) ips1 ips2

abbrev Addr6 := BitVec 128

def netmask6 (length : Nat) : Addr6 :=
  if length = 0 then 0 else if 128 ≤ length then BitVec.allOnes 128
  else BitVec.allOnes 128 <<< (128 - length)

def broadcast6 (addr : Addr6) (length : Nat) : Addr6 := addr ||| ~~~netmask6 length

def setBit6 (addr : Addr6) (bitno : Nat) : Addr6 := addr ||| (1#128 <<< (128 - bitno))

/-- `split_range6` with the networks it prints. -/
def splitRange6 (enabled : Nat → Bool) : Nat → Addr6 → Nat → Addr6 → Addr6 → List (Addr6 × Nat)
  | 0, _, _, _, _ => []
  | turns + 1, addr, length, lo, hi =>
    let (lo, hi) := if hi < lo then (hi, lo) else (lo, hi)
    if 128 < length then []
    else
      let bc := broadcast6 addr length
      if lo < addr ∨ bc < hi then []
      else if lo = addr ∧ hi = bc ∧ enabled length = true then [(addr, length)]
      else
        let length := length + 1
        let upperHalf := setBit6 addr length
        if hi < upperHalf then splitRange6 enabled turns addr length lo hi
        else if upperHalf ≤ lo then splitRange6 enabled turns upperHalf length lo hi
        else splitRange6 enabled turns addr length lo (broadcast6 addr length) ++
          splitRange6 enabled turns upperHalf length upperHalf hi

/-- Prefixes from 0 to 128, and the one that is refused. -/
def splitTurns6 : Nat := 130

variable (ip6str : Addr6 → Bytes)

def printAddr6 (addr : Addr6) (length : Nat) : Bytes :=
  if length < 128 then ip6str addr ++ [slash] ++ decimal length ++ [newline]
  else ip6str addr ++ [newline]

def printAddr6Range (lo hi : Addr6) : Bytes :=
  let (lo, hi) := if hi < lo then (hi, lo) else (lo, hi)
  ip6str lo ++ [byte '-'] ++ ip6str hi ++ [newline]

def singlesLoop6 : Nat → Addr6 → Addr6 → Addr6 → Bytes
  | 0, _, _, _ => []
  | turns + 1, start, stop, x =>
    if start ≤ x ∧ x ≤ stop then
      ip6str x ++ [newline] ++ singlesLoop6 turns start stop (x + 1)
    else []

def printSingles6 (start stop : Addr6) : Bytes :=
  let (start, stop) := if stop < start then (stop, start) else (start, stop)
  if 256 * 256 * 256 < (stop - start).toNat then []
  else singlesLoop6 ip6str ((stop - start).toNat + 2) start stop start

/-- `ipset6_print`, with empty strings around addresses and networks; `inet_ntop` writes an
address. -/
def print (enabled : Nat → Bool) (ips : Ipset) (cmd : PrintCmd) : Bytes :=
  let ips := optimize machine ips
  match cmd with
  | .binary => saveBinaryV20 machine ips
  | .cidr =>
    ips.netaddrs.flatMap fun entry =>
      (splitRange6 enabled splitTurns6 0 0 (BitVec.ofNat 128 entry.low)
        (BitVec.ofNat 128 entry.high)).flatMap fun network => printAddr6 ip6str network.1 network.2
  | .singleIps =>
    ips.netaddrs.flatMap fun entry =>
      printSingles6 ip6str (BitVec.ofNat 128 entry.low) (BitVec.ofNat 128 entry.high)
  | .range =>
    ips.netaddrs.flatMap fun entry =>
      printAddr6Range ip6str (BitVec.ofNat 128 entry.low) (BitVec.ofNat 128 entry.high)

end Model

end IpRange.Ipset6

namespace IpRange

open Ipset

/-- A set as operations make them: proper entries up to `limit`, and the flag only on ordered
ones that do not overlap. -/
structure Held (limit : Nat) (ips : Ipset) : Prop where
  proper : ∀ entry ∈ ips.netaddrs, entry.low ≤ entry.high
  bounded : ∀ entry ∈ ips.netaddrs, entry.high ≤ limit
  flagged : ips.optimized = true → Apart 0 ips.netaddrs

structure Optimizes (limit : Nat) (optimize : Ipset → Ipset) : Prop where
  kept : ∀ ips, ips.optimized = true → optimize ips = ips
  flag : ∀ ips, (optimize ips).optimized = true
  canonical : ∀ ips, Held limit ips → ips.optimized = false →
    Denotes 1 (optimize ips).netaddrs ips.addresses

/-- The result of a difference as its flag promises it: these addresses, canonical entries, and
so the same ranges and networks printed as after optimizing it again. -/
structure Promised (optimize : Ipset → Ipset) (print : (Nat → Bool) → Ipset → PrintCmd → Bytes)
    (result : Ipset) (addresses : Set Nat) : Prop where
  flag : result.optimized = true
  same : result.addresses = addresses
  canonical : Apart 1 result.netaddrs
  ranges : ∀ enabled, print enabled result .range =
    print enabled (optimize { result with optimized := false }) .range
  cidrs : ∀ enabled, print enabled result .cidr =
    print enabled (optimize { result with optimized := false }) .cidr

/-- Two addresses in a row that exactly one of the sets has lie in one entry. -/
def Seamless (ones twos : List Interval) : Prop :=
  ∀ address, address ∈ symmDiff (covered ones) (covered twos) →
    address + 1 ∈ symmDiff (covered ones) (covered twos) → Joined ones address ∨ Joined twos address

section Promised

variable {limit : Nat} {optimizer : Ipset → Ipset} {ips result : Ipset}
  {pieces ones twos : List Interval} {machine : Machine}

theorem Differs.canonical_iff (differs : Differs pieces ones twos) :
    Apart 1 pieces ↔ Seamless ones twos := by
  rw [apart_one_iff differs.denotes.apart, differs.denotes.same]
  constructor
  · intro joined address here next
    rcases (differs.joined address).mp (joined address here next) with ⟨one, _⟩ | ⟨two, _⟩
    · exact Or.inl one
    · exact Or.inr two
  · intro seamless address here next
    have joined := differs.joined address
    have one := @Joined.covered ones address
    have two := @Joined.covered twos address
    have either := seamless address here next
    simp only [Set.mem_symmDiff] at here next
    grind

theorem Held.optimized (held : Held limit ips) (optimizes : Optimizes limit optimizer) :
    Apart 0 (optimizer ips).netaddrs ∧ (∀ entry ∈ (optimizer ips).netaddrs, entry.high ≤ limit) ∧
      (optimizer ips).addresses = ips.addresses := by
  cases flag : ips.optimized with
  | true =>
    rw [optimizes.kept ips flag]
    exact ⟨held.flagged flag, held.bounded, rfl⟩
  | false =>
    have denotes := optimizes.canonical ips held flag
    refine ⟨denotes.apart.closer (by decide), denotes.bounded ?_, denotes.same⟩
    rintro address ⟨entry, member, _, high⟩
    exact high.trans (held.bounded entry member)

theorem promised_iff (optimizes : Optimizes limit optimizer)
    {print : (Nat → Bool) → Ipset → PrintCmd → Bytes}
    (prints : ∀ enabled first second cmd, cmd = .range ∨ cmd = .cidr →
      (optimizer first).netaddrs = (optimizer second).netaddrs →
      print enabled first cmd = print enabled second cmd)
    (flag : result.optimized = true) (bounded : ∀ entry ∈ result.netaddrs, entry.high ≤ limit)
    (differs : Differs result.netaddrs ones twos) :
    Promised optimizer print result (symmDiff (covered ones) (covered twos)) ↔ Seamless ones twos := by
  rw [← differs.canonical_iff]
  refine ⟨Promised.canonical, fun apart => ?_⟩
  have held : Held limit { result with optimized := false } :=
    ⟨apart.proper, bounded, fun raised => nomatch raised⟩
  have again := optimizes.canonical _ held rfl
  have same : (optimizer result).netaddrs =
      (optimizer (optimizer { result with optimized := false })).netaddrs := by
    rw [optimizes.kept _ flag, optimizes.kept _ (optimizes.flag _)]
    exact apart.unique again.apart again.same.symm
  exact ⟨flag, differs.denotes.same, apart, fun enabled => prints enabled _ _ _ (Or.inl rfl) same,
    fun enabled => prints enabled _ _ _ (Or.inr rfl) same⟩

theorem optimizes4 (exact_ : machine.Exact) : Optimizes addrMax (Ipset.optimize machine) where
  kept ips flag := by rw [Ipset.optimize, if_pos flag]
  flag ips := by
    unfold Ipset.optimize
    split
    · assumption
    · split <;> rfl
  canonical ips held flag := by
    obtain ⟨counted, same, _⟩ := optimize_spec exact_ ⟨held.proper, held.bounded⟩
      fun raised => by simp [flag] at raised
    exact ⟨counted.apart, same⟩

namespace Ipset6

theorem next_eq (address : Nat) (below : address < addrMax) : u128 (address + 1) = address + 1 := by
  rw [addrMax] at below
  rw [u128]
  omega

theorem previous_eq (address : Nat) (bound : address ≤ addrMax) (positive : 0 < address) :
    u128 (address + addrMax) = address - 1 := by
  rw [addrMax] at bound ⊢
  rw [u128]
  omega

theorem addPieces_plain (plain : ips.optimized = false) :
    (addPieces (addIpRange machine) ips pieces).netaddrs = ips.netaddrs ++ pieces := by
  induction pieces generalizing ips with
  | nil => simp [addPieces]
  | cons piece rest ih =>
    have added : (addIpRange machine ips piece.low piece.high).netaddrs = ips.netaddrs ++ [piece] ∧
        (addIpRange machine ips piece.low piece.high).optimized = false := by
      unfold addIpRange addedEntry
      dsimp only
      split
      · exact ⟨rfl, plain⟩
      · rw [if_pos (by simp [plain])]
        exact ⟨rfl, plain⟩
    have later := ih added.2
    rw [added.1, List.append_assoc] at later
    exact later

theorem optimize_pieces (machine : Machine) (held : Held addrMax ips) (flag : ips.optimized = false) :
    ∃ pieces, Denotes 1 pieces ips.addresses ∧ (optimize machine ips).netaddrs = pieces ∧
      (optimize machine ips).uniqueIps = (addPieces (addIpRange machine)
        { ips with netaddrs := [], uniqueIps := 0, lines := 0 } pieces).uniqueIps := by
  have reordered := List.mergeSort_perm ips.netaddrs comparNetaddr
  have sorted := sorted_mergeSort ips.netaddrs
  have ranges : ∀ entry ∈ ips.netaddrs.mergeSort comparNetaddr,
      entry.low ≤ entry.high ∧ entry.high ≤ addrMax := fun entry member =>
    ⟨held.proper entry (reordered.mem_iff.mp member), held.bounded entry (reordered.mem_iff.mp member)⟩
  have same : covered _ = ips.addresses := covered_perm reordered
  rw [optimize, if_neg (by simp [flag])]
  generalize ips.netaddrs.mergeSort comparNetaddr = entries at *
  cases entries with
  | nil =>
    rw [reordered.symm.eq_nil] at *
    exact ⟨[], ⟨Apart.nil, same⟩, rfl, rfl⟩
  | cons first rest =>
    obtain ⟨earliest, sorted⟩ := List.pairwise_cons.mp sorted
    obtain ⟨⟨proper, _⟩, ranges⟩ := List.forall_mem_cons.mp ranges
    obtain ⟨pieces, denotes, runs⟩ := coalesceLoop_spec (addIpRange machine)
      { ips with netaddrs := [], uniqueIps := 0, lines := 0 } first.low first.high next_eq proper
      (fun entry member => (ranges entry member).1) (fun entry member => (ranges entry member).2)
      sorted earliest
    have plain : ({ ips with netaddrs := [], uniqueIps := 0, lines := 0 } : Ipset).optimized =
      false := flag
    dsimp only [optimizeLoop]
    rw [runs, addPieces_plain plain, ← same]
    exact ⟨pieces, denotes, rfl, rfl⟩

theorem optimizes6 (machine : Machine) : Optimizes addrMax (optimize machine) where
  kept ips flag := by rw [optimize, if_pos flag]
  flag ips := by
    unfold optimize
    split
    · assumption
    · split <;> rfl
  canonical ips held flag := by
    obtain ⟨pieces, denotes, same, _⟩ := optimize_pieces machine held flag
    rwa [same]

theorem diff_spec (machine : Machine) {ips1 ips2 : Ipset} (held1 : Held addrMax ips1)
    (held2 : Held addrMax ips2) :
    Differs (diff machine ips1 ips2).netaddrs (optimize machine ips1).netaddrs
        (optimize machine ips2).netaddrs ∧
      ∀ entry ∈ (diff machine ips1 ips2).netaddrs, entry.high ≤ addrMax := by
  obtain ⟨apart1, bounded1, _⟩ := held1.optimized (optimizes6 machine)
  obtain ⟨apart2, bounded2, _⟩ := held2.optimized (optimizes6 machine)
  obtain ⟨pieces, differs, runs⟩ := differLoop_spec (addIpRange machine) create le_rfl next_eq
    previous_eq apart1 apart2 bounded1 bounded2
  have same : (diff machine ips1 ips2).netaddrs = pieces := by
    simp only [diff, diffLoop, entries, finish, runs]
    exact addPieces_plain rfl
  rw [same]
  exact ⟨differs, differs.bounded bounded1 bounded2⟩

end Ipset6

/-- The difference of two sets always has the flag and exactly the addresses that one of them
has. It is what the flag promises exactly when two addresses in a row of the difference always
lie in one entry of one of the optimized sets: for canonical sets, when no address that only
the first has is next to one that only the second has. -/
theorem diff_promised_iff_seamless (exact_ : machine.Exact) {ips1 ips2 : Ipset}
    (held1 : Held addrMax ips1) (held2 : Held addrMax ips2) {six1 six2 : Ipset}
    (sixHeld1 : Held Ipset6.addrMax six1) (sixHeld2 : Held Ipset6.addrMax six2)
    (ip6str : Ipset6.Addr6 → Bytes) :
    ((ips1.diff machine ips2).optimized = true ∧
        (ips1.diff machine ips2).addresses = symmDiff ips1.addresses ips2.addresses ∧
        (Promised (Ipset.optimize machine) (fun enabled => Ipset.print machine enabled)
            (ips1.diff machine ips2) (symmDiff ips1.addresses ips2.addresses) ↔
          Seamless (ips1.optimize machine).netaddrs (ips2.optimize machine).netaddrs)) ∧
      (Ipset6.diff machine six1 six2).optimized = true ∧
        (Ipset6.diff machine six1 six2).addresses = symmDiff six1.addresses six2.addresses ∧
        (Promised (Ipset6.optimize machine) (Ipset6.print machine ip6str)
            (Ipset6.diff machine six1 six2) (symmDiff six1.addresses six2.addresses) ↔
          Seamless (Ipset6.optimize machine six1).netaddrs (Ipset6.optimize machine six2).netaddrs) := by
  obtain ⟨apart1, bounded1, same1⟩ := held1.optimized (optimizes4 exact_)
  obtain ⟨apart2, bounded2, same2⟩ := held2.optimized (optimizes4 exact_)
  obtain ⟨differs, counted⟩ := Ipset.diff_spec exact_ apart1 apart2 bounded1 bounded2
  obtain ⟨-, -, sixSame1⟩ := sixHeld1.optimized (Ipset6.optimizes6 machine)
  obtain ⟨-, -, sixSame2⟩ := sixHeld2.optimized (Ipset6.optimizes6 machine)
  obtain ⟨sixDiffers, sixBounded⟩ := Ipset6.diff_spec machine sixHeld1 sixHeld2
  rw [← same1, ← same2, ← sixSame1, ← sixSame2]
  refine ⟨⟨rfl, differs.denotes.same, promised_iff (optimizes4 exact_) ?_ rfl counted.bounded differs⟩,
    rfl, sixDiffers.denotes.same,
    promised_iff (Ipset6.optimizes6 machine) ?_ rfl sixBounded sixDiffers⟩
  · rintro enabled first second cmd (rfl | rfl) same <;> simp only [Ipset.print, same]
  · rintro enabled first second cmd (rfl | rfl) same <;> simp only [Ipset6.print, same]

abbrev wide : Machine := .wrapping (2 ^ 64 - 1) false

def single (address : Nat) : Ipset :=
  { lines := 1, netaddrs := [{ low := address, high := address }], uniqueIps := 1, optimized := true }

theorem held_single {address : Nat} (bound : address ≤ limit) : Held limit (single address) :=
  ⟨by simp [single], by simpa [single] using bound, fun _ => ⟨by simp [single], by simp [single]⟩⟩

def neighbours (optimized : Bool) : Ipset :=
  { lines := 2, netaddrs := [{ low := 0, high := 0 }, { low := 1, high := 1 }], uniqueIps := 2,
    optimized }

/-- The difference of 0.0.0.0 and 0.0.0.1 prints as two networks, optimized again as one. -/
theorem touching_diff_not_promised :
    (single 0).diff (.wrapping (2 ^ 64 - 1) false) (single 1) = neighbours true ∧
      Ipset6.diff (.wrapping (2 ^ 64 - 1) false) (single 0) (single 1) = neighbours true ∧
      ¬ Apart 1 (neighbours true).netaddrs ∧
      Ipset.print (.wrapping (2 ^ 64 - 1) false) (fun _ => true) (neighbours true) .cidr =
        Text.ascii "0.0.0.0\n0.0.0.1\n" ∧
      Ipset.print (.wrapping (2 ^ 64 - 1) false) (fun _ => true)
          (Ipset.optimize (.wrapping (2 ^ 64 - 1) false) (neighbours false)) .cidr =
        Text.ascii "0.0.0.0/31\n" := by
  have sorted : (neighbours false).netaddrs.mergeSort comparNetaddr = (neighbours false).netaddrs :=
    List.mergeSort_of_pairwise (by decide)
  have again : Ipset.optimize (.wrapping (2 ^ 64 - 1) false) (neighbours false) =
      { lines := 2, netaddrs := [{ low := 0, high := 1 }], uniqueIps := 2, optimized := true } := by
    rw [Ipset.optimize, sorted]
    decide
  rw [again]
  decide +kernel

theorem diff_promised_iff_seamless_apart :
    ((single 0).diff (.wrapping (2 ^ 64 - 1) false) (single 2)).addresses =
        symmDiff (single 0).addresses (single 2).addresses ∧
      Promised (Ipset.optimize (.wrapping (2 ^ 64 - 1) false))
        (fun enabled => Ipset.print (.wrapping (2 ^ 64 - 1) false) enabled)
        ((single 0).diff (.wrapping (2 ^ 64 - 1) false) (single 2))
        (symmDiff (single 0).addresses (single 2).addresses) := by
  have result := diff_promised_iff_seamless (Machine.exact_wrapping (2 ^ 64 - 1) false)
    (held_single (show 0 ≤ addrMax by decide)) (held_single (show 2 ≤ addrMax by decide))
    (held_single (show 0 ≤ Ipset6.addrMax by decide)) (held_single (show 2 ≤ Ipset6.addrMax by decide))
    (fun _ => [])
  refine ⟨result.1.2.1, result.1.2.2.mpr fun address here next => ?_⟩
  simp [single, Ipset.optimize, Set.mem_symmDiff, Interval.mem_members] at here next
  omega

end Promised

end IpRange
