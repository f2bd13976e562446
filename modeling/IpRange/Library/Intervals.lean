import Mathlib.Data.Set.Card
import Mathlib.Order.Interval.Finset.Nat

/-!
Sets of numbers as lists of closed intervals. Intervals kept in order and apart from
each other stand for their union without counting anything twice; with at least one
number left out between neighbours the list is canonical.
-/

namespace IpRange

structure Interval where
  low : Nat
  high : Nat
deriving DecidableEq, Repr

namespace Interval

def members (interval : Interval) : Set Nat := Set.Icc interval.low interval.high

def size (interval : Interval) : Nat := interval.high - interval.low + 1

variable {interval : Interval}

theorem mem_members {number : Nat} :
    number ∈ interval.members ↔ interval.low ≤ number ∧ number ≤ interval.high := Iff.rfl

theorem ncard_members (proper : interval.low ≤ interval.high) :
    interval.members.ncard = interval.size := by
  have same : interval.members = (Finset.Icc interval.low interval.high : Finset Nat) := by
    simp [members]
  rw [same, Set.ncard_coe_finset, Nat.card_Icc, size]
  omega

end Interval

def covered (intervals : List Interval) : Set Nat :=
  { number | ∃ interval ∈ intervals, number ∈ interval.members }

def total (intervals : List Interval) : Nat := (intervals.map Interval.size).sum

@[simp] theorem covered_nil : covered [] = ∅ := by
  ext number
  simp [covered]

@[simp] theorem covered_cons (interval : Interval) (rest : List Interval) :
    covered (interval :: rest) = interval.members ∪ covered rest := by
  ext number
  simp [covered]

theorem mem_covered_cons {interval : Interval} {rest : List Interval} {address : Nat} :
    address ∈ covered (interval :: rest) ↔
      interval.low ≤ address ∧ address ≤ interval.high ∨ address ∈ covered rest := by
  simp only [covered_cons, Set.mem_union, Interval.mem_members]

@[simp] theorem covered_append (first second : List Interval) :
    covered (first ++ second) = covered first ∪ covered second := by
  induction first with
  | nil => simp
  | cons interval rest ih => rw [List.cons_append, covered_cons, covered_cons, ih, Set.union_assoc]

theorem covered_perm {first second : List Interval} (reordered : first.Perm second) :
    covered first = covered second := by
  ext number
  constructor
  · rintro ⟨interval, member, inside⟩
    exact ⟨interval, reordered.mem_iff.mp member, inside⟩
  · rintro ⟨interval, member, inside⟩
    exact ⟨interval, reordered.mem_iff.mpr member, inside⟩

@[simp] theorem total_nil : total [] = 0 := rfl

@[simp] theorem total_cons (interval : Interval) (rest : List Interval) :
    total (interval :: rest) = interval.size + total rest := rfl

@[simp] theorem total_append (first second : List Interval) :
    total (first ++ second) = total first + total second := by
  simp [total]

/-- Proper intervals in increasing order, each more than `gap` after the one before. -/
structure Apart (gap : Nat) (intervals : List Interval) : Prop where
  proper : ∀ interval ∈ intervals, interval.low ≤ interval.high
  ordered : intervals.Pairwise fun earlier later => earlier.high + gap < later.low

instance (gap : Nat) (intervals : List Interval) : Decidable (Apart gap intervals) :=
  decidable_of_iff ((∀ interval ∈ intervals, interval.low ≤ interval.high) ∧
      intervals.Pairwise fun earlier later => earlier.high + gap < later.low)
    ⟨fun ⟨proper, ordered⟩ => ⟨proper, ordered⟩, fun apart => ⟨apart.proper, apart.ordered⟩⟩

section Apart

variable {gap : Nat} {interval : Interval} {intervals rest first second : List Interval}

theorem Apart.nil : Apart gap [] := ⟨by simp, List.Pairwise.nil⟩

theorem apart_cons : Apart gap (interval :: rest) ↔ interval.low ≤ interval.high ∧
    (∀ later ∈ rest, interval.high + gap < later.low) ∧ Apart gap rest := by
  constructor
  · rintro ⟨proper, ordered⟩
    obtain ⟨after, ordered⟩ := List.pairwise_cons.mp ordered
    exact ⟨proper interval (by simp), after, fun other member => proper other (by simp [member]),
      ordered⟩
  · rintro ⟨proper, after, apart⟩
    refine ⟨?_, List.pairwise_cons.mpr ⟨after, apart.ordered⟩⟩
    intro other member
    rcases List.mem_cons.mp member with same | later
    · rw [same]
      exact proper
    · exact apart.proper other later

theorem apart_append : Apart gap (first ++ second) ↔ Apart gap first ∧ Apart gap second ∧
    ∀ earlier ∈ first, ∀ later ∈ second, earlier.high + gap < later.low := by
  constructor
  · rintro ⟨proper, ordered⟩
    obtain ⟨left, right, across⟩ := List.pairwise_append.mp ordered
    exact ⟨⟨fun other member => proper other (by simp [member]), left⟩,
      ⟨fun other member => proper other (by simp [member]), right⟩, across⟩
  · rintro ⟨left, right, across⟩
    refine ⟨?_, List.pairwise_append.mpr ⟨left.ordered, right.ordered, across⟩⟩
    intro other member
    rcases List.mem_append.mp member with inFirst | inSecond
    · exact left.proper other inFirst
    · exact right.proper other inSecond

theorem Apart.concat (apart : Apart gap intervals) (proper : interval.low ≤ interval.high)
    (after : ∀ earlier ∈ intervals, earlier.high + gap < interval.low) :
    Apart gap (intervals ++ [interval]) :=
  apart_append.mpr ⟨apart, apart_cons.mpr ⟨proper, by simp, Apart.nil⟩, by simpa using after⟩

theorem Apart.closer {less : Nat} (apart : Apart gap intervals) (order : less ≤ gap) :
    Apart less intervals :=
  ⟨apart.proper, apart.ordered.imp fun far => by omega⟩

theorem Apart.after (apart : Apart gap (interval :: rest)) :
    ∀ number ∈ covered rest, interval.high + gap < number := by
  rintro number ⟨later, member, low, _⟩
  have := (apart_cons.mp apart).2.1 later member
  omega

theorem Apart.head_le (apart : Apart gap (interval :: rest)) :
    ∀ number ∈ covered (interval :: rest), interval.low ≤ number := by
  rw [covered_cons]
  rintro number (⟨low, _⟩ | later)
  · exact low
  · have := apart.after number later
    have := (apart_cons.mp apart).1
    omega

theorem Apart.trim (apart : Apart gap (interval :: rest)) {low : Nat}
    (proper : low ≤ interval.high) : Apart gap ({ low, high := interval.high } :: rest) := by
  obtain ⟨_, after, tail⟩ := apart_cons.mp apart
  exact apart_cons.mpr ⟨proper, after, tail⟩

theorem Apart.unique (apart1 : Apart 1 first) (apart2 : Apart 1 second)
    (same : covered first = covered second) : first = second := by
  induction first generalizing second with
  | nil =>
    cases second with
    | nil => rfl
    | cons two twos =>
      have inside : two.low ∈ covered (two :: twos) :=
        ⟨two, by simp, le_rfl, (apart_cons.mp apart2).1⟩
      rw [← same, covered_nil] at inside
      exact inside.elim
  | cons one ones ih =>
    cases second with
    | nil =>
      have inside : one.low ∈ covered (one :: ones) :=
        ⟨one, by simp, le_rfl, (apart_cons.mp apart1).1⟩
      rw [same, covered_nil] at inside
      exact inside.elim
    | cons two twos =>
      obtain ⟨proper1, _, tail1⟩ := apart_cons.mp apart1
      obtain ⟨proper2, _, tail2⟩ := apart_cons.mp apart2
      have after1 := apart1.after
      have after2 := apart2.after
      have members (number : Nat) :
          (one.low ≤ number ∧ number ≤ one.high ∨ number ∈ covered ones) ↔
            (two.low ≤ number ∧ number ≤ two.high ∨ number ∈ covered twos) := by
        have := Set.ext_iff.mp same number
        simpa only [covered_cons, Set.mem_union, Interval.mem_members] using this
      -- the first numbers agree, and so do the first numbers left out after them
      have low : one.low = two.low := by
        have := members one.low
        have := members two.low
        grind
      have high : one.high = two.high := by
        have := members (one.high + 1)
        have := members (two.high + 1)
        have := after1 (one.high + 1)
        have := after2 (two.high + 1)
        grind
      have rest : covered ones = covered twos := by
        ext number
        have := members number
        have := after1 number
        have := after2 number
        grind
      rw [ih tail1 tail2 rest]
      congr 1
      cases one
      cases two
      simp_all

theorem covered_finite (intervals : List Interval) : (covered intervals).Finite := by
  induction intervals with
  | nil => simp
  | cons interval rest ih =>
    rw [covered_cons]
    exact (Set.finite_Icc _ _).union ih

theorem Apart.ncard (apart : Apart gap intervals) : (covered intervals).ncard = total intervals := by
  induction intervals with
  | nil => simp
  | cons interval rest ih =>
    obtain ⟨proper, after, apart⟩ := apart_cons.mp apart
    have disjoint : Disjoint interval.members (covered rest) := by
      rw [Set.disjoint_left]
      rintro number ⟨_, high⟩ ⟨later, member, low, _⟩
      have := after later member
      omega
    rw [covered_cons, Set.ncard_union_eq disjoint (Set.finite_Icc _ _) (covered_finite rest),
      Interval.ncard_members proper, ih apart, total_cons]

theorem Apart.total_le (apart : Apart gap intervals) {bound : Nat}
    (below : ∀ interval ∈ intervals, interval.high < bound) : total intervals ≤ bound := by
  have inside : covered intervals ⊆ (Finset.range bound : Set Nat) := by
    rintro number ⟨interval, member, _, high⟩
    have := below interval member
    simp
    omega
  have count := Set.ncard_le_ncard inside (Finset.finite_toSet _)
  rwa [apart.ncard, Set.ncard_coe_finset, Finset.card_range] at count

theorem length_le_total (intervals : List Interval) : intervals.length ≤ total intervals := by
  induction intervals with
  | nil => simp
  | cons interval rest ih =>
    rw [List.length_cons, total_cons, Interval.size]
    omega

end Apart

end IpRange
