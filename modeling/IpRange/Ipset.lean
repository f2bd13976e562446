import IpRange.IpsetCore

/-!
What the set operations compute: as long as the flag stands the entries are canonical and
counted, optimization makes them so, and the sweeps give exactly the addresses they should.
-/

namespace IpRange.Ipset

open List

def Bounded (intervals : List Interval) : Prop := ∀ interval ∈ intervals, interval.high ≤ addrMax

def addresses (ips : Ipset) : Set Nat := covered ips.netaddrs

structure Ranges (intervals : List Interval) : Prop where
  proper : ∀ interval ∈ intervals, interval.low ≤ interval.high
  bounded : Bounded intervals

/-- Optimized entries: at least `gap` addresses between neighbours, none counted twice. -/
structure Counted (gap : Nat) (ips : Ipset) : Prop where
  apart : Apart gap ips.netaddrs
  bounded : Bounded ips.netaddrs
  unique : ips.uniqueIps = total ips.netaddrs

theorem Counted.exact {gap : Nat} {ips : Ipset} (counted : Counted gap ips) :
    ips.uniqueIps = ips.addresses.ncard := by
  rw [counted.unique, addresses, counted.apart.ncard]

variable {machine : Machine} {ips : Ipset} {gap : Nat} {intervals : List Interval}

theorem total_lt (apart : Apart gap intervals) (bounded : Bounded intervals) :
    total intervals < 2 ^ 64 := by
  have small : total intervals ≤ 2 ^ 32 := apart.total_le fun interval member => by
    have high := bounded interval member
    rw [addrMax] at high
    omega
  omega

theorem counted_of_u64 (apart : Apart gap ips.netaddrs) (bounded : Bounded ips.netaddrs)
    (unique : ips.uniqueIps = u64 (total ips.netaddrs)) : Counted gap ips :=
  ⟨apart, bounded, by rw [unique, u64, Nat.mod_eq_of_lt (total_lt apart bounded)]⟩

theorem Bounded.concat (bounded : Bounded intervals) {entry : Interval}
    (bound : entry.high ≤ addrMax) : Bounded (intervals ++ [entry]) := by
  intro other member
  rcases mem_append.mp member with old | new
  · exact bounded other old
  · rw [mem_singleton.mp new]
    exact bound

theorem u64_add_size (count : Nat) {from_ to_ : Nat} (proper : from_ ≤ to_) :
    u64 (count + (to_ + 2 ^ 64 - from_) + 1) = u64 (count + (to_ - from_ + 1)) := by
  have same : count + (to_ + 2 ^ 64 - from_) + 1 = count + (to_ - from_ + 1) + 2 ^ 64 := by omega
  rw [u64, u64, same, Nat.add_mod_right]

section Adding

variable {from_ to_ : Nat}

theorem addIpRange_plain (plain : ips.optimized = false) :
    ips.addIpRange machine from_ to_ =
      { lines := machine.sizeSum ips.lines 1
        netaddrs := ips.netaddrs ++ [{ low := from_, high := to_ }]
        uniqueIps := u64 (ips.uniqueIps + (to_ + 2 ^ 64 - from_) + 1)
        optimized := false } := by
  unfold addIpRange addedEntry
  dsimp only
  split
  · rw [plain]
  · rw [if_pos (by simp [plain])]
    simp [plain]

theorem covered_concat (from_ to_ : Nat) : covered (intervals ++ [{ low := from_, high := to_ }]) =
      covered intervals ∪ Set.Icc from_ to_ := by
  simp [Interval.members]

theorem Counted.concat (counted : Counted gap ips) (proper : from_ ≤ to_) (bound : to_ ≤ addrMax)
    (after : ∀ earlier ∈ ips.netaddrs, earlier.high + gap < from_) {grown : Ipset}
    (same : grown.netaddrs = ips.netaddrs ++ [{ low := from_, high := to_ }])
    (unique : grown.uniqueIps = u64 (ips.uniqueIps + (to_ + 2 ^ 64 - from_) + 1)) :
    Counted gap grown := by
  apply counted_of_u64
  · rw [same]
    exact counted.apart.concat proper after
  · rw [same]
    exact counted.bounded.concat bound
  · rw [unique, u64_add_size _ proper, same, counted.unique, total_append]
    rfl

theorem Counted.add_plain (counted : Counted gap ips) (plain : ips.optimized = false)
    (proper : from_ ≤ to_) (bound : to_ ≤ addrMax)
    (after : ∀ earlier ∈ ips.netaddrs, earlier.high + gap < from_) :
    Counted gap (ips.addIpRange machine from_ to_) := by
  rw [addIpRange_plain plain]
  exact counted.concat proper bound after rfl rfl

theorem Counted.add_optimized (exact_ : machine.Exact) (counted : Counted 1 ips)
    (optimized : ips.optimized = true) (proper : from_ ≤ to_) (bound : to_ ≤ addrMax) :
    covered (ips.addIpRange machine from_ to_).netaddrs =
        covered ips.netaddrs ∪ Set.Icc from_ to_ ∧
      ((ips.addIpRange machine from_ to_).optimized = true →
        Counted 1 (ips.addIpRange machine from_ to_)) := by
  unfold addIpRange addedEntry
  dsimp only
  rcases eq_nil_or_concat ips.netaddrs with empty | ⟨before, last, shape⟩
  · simp only [empty, getLast?_nil, nil_append]
    refine ⟨by simp [Interval.members], fun _ => ?_⟩
    exact counted.concat proper bound (by simp [empty]) (by simp [empty]) rfl
  · rw [concat_eq_append] at shape
    have found : ips.netaddrs.getLast? = some last := by simp [shape]
    simp only [found, optimized, Bool.not_true, Bool.false_eq_true, if_false]
    obtain ⟨apartBefore, apartLast, across⟩ := apart_append.mp (shape ▸ counted.apart)
    have lastProper := (apart_cons.mp apartLast).1
    have lastBound := counted.bounded last (by simp [shape])
    split
    · next touching =>
        -- the last entry takes the new range over
        simp only [Bool.and_eq_true, bne_iff_ne, ne_eq, beq_iff_eq] at touching
        obtain ⟨inner, start⟩ := touching
        rw [exact_.next last.high (by omega)] at start
        simp only [shape, dropLast_concat]
        constructor
        · simp only [covered_append, covered_cons, covered_nil, Set.union_empty, Set.union_assoc]
          congr 1
          ext number
          simp only [Interval.mem_members, Set.mem_union, Set.mem_Icc]
          omega
        · intro _
          apply counted_of_u64
          · exact apart_append.mpr ⟨apartBefore,
              apart_cons.mpr ⟨show last.low ≤ to_ by omega, by simp, Apart.nil⟩, by simpa using across⟩
          · refine Bounded.concat (fun other old => ?_) bound
            exact counted.bounded other (by simp [shape, old])
          · rw [u64_add_size _ proper, counted.unique, shape]
            simp only [total_append, total_cons, total_nil, Interval.size]
            congr 1
            omega
    · next apart =>
        split
        · next past =>
            refine ⟨covered_concat _ _, fun _ => ?_⟩
            refine counted.concat proper bound ?_ rfl rfl
            -- the new range neither touches nor overlaps the last entry
            have beyond : last.high + 1 < from_ := by
              simp only [Bool.and_eq_true, bne_iff_ne, ne_eq, beq_iff_eq, not_and] at apart
              have separate := apart (by omega)
              rw [exact_.next last.high (by omega)] at separate
              omega
            intro earlier member
            rw [shape] at member
            rcases mem_append.mp member with old | new
            · have far := across earlier old last (by simp)
              omega
            · rw [mem_singleton.mp new]
              exact beyond
        · exact ⟨covered_concat _ _, fun kept => by cases kept⟩

end Adding

variable {pieces : List Interval}

theorem Counted.addAll (counted : Counted gap ips) (plain : ips.optimized = false)
    (apart : Apart gap (ips.netaddrs ++ pieces)) (bounded : Bounded pieces) :
    Counted gap (ips.addAll machine pieces) ∧
      (ips.addAll machine pieces).netaddrs = ips.netaddrs ++ pieces := by
  induction pieces generalizing ips with
  | nil => simpa [Ipset.addAll] using counted
  | cons piece rest ih =>
    obtain ⟨_, tail, across⟩ := apart_append.mp apart
    have grown : Counted gap (ips.addIpRange machine piece.low piece.high) :=
      counted.add_plain plain (apart_cons.mp tail).1 (bounded piece (by simp))
        fun earlier member => across earlier member piece (by simp)
    have appended : (ips.addIpRange machine piece.low piece.high).netaddrs =
        ips.netaddrs ++ [piece] := by rw [addIpRange_plain plain]
    have later := ih grown (by rw [addIpRange_plain plain])
      (by rw [appended, append_assoc]; exact apart)
      fun other member => bounded other (by simp [member])
    rw [appended, append_assoc] at later
    exact later

def Sorted (intervals : List Interval) : Prop :=
  intervals.Pairwise fun earlier later => earlier.low ≤ later.low

theorem sorted_mergeSort (intervals : List Interval) :
    Sorted (intervals.mergeSort comparNetaddr) := by
  refine (pairwise_mergeSort ?_ ?_ intervals).imp ?_
  · intro left middle right first second
    simp only [comparNetaddr, Bool.or_eq_true, decide_eq_true_eq, Bool.and_eq_true,
      beq_iff_eq] at first second ⊢
    omega
  · intro left right
    simp only [comparNetaddr, Bool.or_eq_true, decide_eq_true_eq, Bool.and_eq_true, beq_iff_eq]
    omega
  · intro left right before
    simp only [comparNetaddr, Bool.or_eq_true, decide_eq_true_eq, Bool.and_eq_true,
      beq_iff_eq] at before
    omega

theorem Ranges.tail {entry : Interval} (ranges : Ranges (entry :: intervals)) : Ranges intervals :=
  ⟨fun other member => ranges.proper other (mem_cons_of_mem _ member),
    fun other member => ranges.bounded other (mem_cons_of_mem _ member)⟩

theorem optimizeLoop_eq (machine : Machine) (ips : Ipset) (lo hi : Nat) (intervals : List Interval) :
    optimizeLoop machine ips lo hi intervals =
      coalesceLoop addrMax machine.next (addIpRange machine) ips lo hi intervals := by
  induction intervals generalizing ips lo hi with
  | nil => rfl
  | cons next rest ih => simp only [optimizeLoop, coalesceLoop, ih]

theorem Ranges.perm {other : List Interval} (ranges : Ranges intervals)
    (reordered : other.Perm intervals) : Ranges other :=
  ⟨fun entry member => ranges.proper entry (reordered.mem_iff.mp member),
    fun entry member => ranges.bounded entry (reordered.mem_iff.mp member)⟩

theorem coalesceLoop_mergeSort {α : Type} {first : Interval} {rest : List Interval}
    (exact_ : machine.Exact) (ranges : Ranges intervals) (add : α → Nat → Nat → α) (sum : α)
    (sorted : intervals.mergeSort comparNetaddr = first :: rest) :
    ∃ pieces, Denotes 1 pieces (covered intervals) ∧ Bounded pieces ∧
      coalesceLoop addrMax machine.next add sum first.low first.high rest =
        addPieces add sum pieces := by
  have reordered := mergeSort_perm intervals comparNetaddr
  have ascending := sorted_mergeSort intervals
  rw [sorted] at reordered ascending
  have placed := ranges.perm reordered
  obtain ⟨earliest, ascending⟩ := pairwise_cons.mp ascending
  obtain ⟨pieces, denotes, runs⟩ := coalesceLoop_spec add sum first.low first.high exact_.next
    (placed.proper first (by simp)) placed.tail.proper placed.tail.bounded ascending earliest
  have whole : Denotes 1 pieces (covered intervals) := covered_perm reordered ▸ denotes
  refine ⟨pieces, whole, whole.bounded ?_, runs⟩
  rintro address ⟨entry, inside, _, high⟩
  exact high.trans (ranges.bounded entry inside)

theorem optimize_spec (exact_ : machine.Exact) (ranges : Ranges ips.netaddrs)
    (flagged : ips.optimized = true → Counted 1 ips) :
    Counted 1 (ips.optimize machine) ∧ (ips.optimize machine).addresses = ips.addresses ∧
      (ips.optimize machine).optimized = true := by
  unfold optimize
  split
  · next flag => exact ⟨flagged flag, rfl, flag⟩
  · next flag =>
      cases sorted : ips.netaddrs.mergeSort comparNetaddr with
      | nil =>
        have reordered := mergeSort_perm ips.netaddrs comparNetaddr
        have empty : ips.netaddrs = [] := (sorted ▸ reordered).symm.eq_nil
        exact ⟨⟨by simpa [empty] using Apart.nil, by simp [Bounded, empty], by simp [empty]⟩,
          rfl, rfl⟩
      | cons first rest =>
        obtain ⟨pieces, denotes, bounded, runs⟩ := coalesceLoop_mergeSort exact_ ranges
          (addIpRange machine) { ips with netaddrs := [], uniqueIps := 0, lines := 0 } sorted
        have empty : Counted 1 { ips with netaddrs := [], uniqueIps := 0, lines := 0 } :=
          ⟨Apart.nil, by simp [Bounded], rfl⟩
        have done : Counted 1 (addAll machine _ pieces) ∧ _ :=
          empty.addAll (by simpa using flag) denotes.apart bounded
        dsimp only
        rw [optimizeLoop_eq, runs]
        refine ⟨⟨done.1.apart, done.1.bounded, done.1.unique⟩, ?_, rfl⟩
        exact (congrArg covered done.2).trans denotes.same

end IpRange.Ipset
