import IpRange.Library.Intervals

/-!
Sweeps over interval lists: coalescing sorted intervals, and what two lists do not share.
They hand their pieces to a collector one by one, with steps of address arithmetic that
need to be right below a limit only.
-/

namespace IpRange

open List

structure Denotes (gap : Nat) (intervals : List Interval) (numbers : Set Nat) : Prop where
  apart : Apart gap intervals
  same : covered intervals = numbers

section Denotes

variable {gap low high limit : Nat} {interval : Interval} {intervals : List Interval}
  {numbers others : Set Nat}

theorem Denotes.of_iff (denotes : Denotes gap intervals numbers)
    (same : ∀ number, number ∈ others ↔ number ∈ numbers) : Denotes gap intervals others :=
  ⟨denotes.apart, denotes.same.trans (Set.ext same).symm⟩

theorem Denotes.cons (denotes : Denotes gap intervals numbers) (proper : low ≤ high)
    (after : ∀ number ∈ numbers, high + gap < number)
    (same : ∀ number, number ∈ others ↔ low ≤ number ∧ number ≤ high ∨ number ∈ numbers) :
    Denotes gap ({ low, high } :: intervals) others := by
  constructor
  · refine apart_cons.mpr ⟨proper, fun later member => ?_, denotes.apart⟩
    apply after
    rw [← denotes.same]
    exact ⟨later, member, le_rfl, denotes.apart.proper later member⟩
  · ext number
    rw [mem_covered_cons, denotes.same, same]

theorem Denotes.append {first second : List Interval} {later : Set Nat}
    (denotes1 : Denotes gap first numbers) (denotes2 : Denotes gap second later)
    (before : ∀ number ∈ numbers, ∀ other ∈ later, number + gap < other)
    (same : ∀ number, number ∈ others ↔ number ∈ numbers ∨ number ∈ later) :
    Denotes gap (first ++ second) others := by
  constructor
  · refine apart_append.mpr ⟨denotes1.apart, denotes2.apart, fun one inFirst two inSecond => ?_⟩
    refine before _ ?_ _ ?_
    · rw [← denotes1.same]
      exact ⟨one, inFirst, denotes1.apart.proper one inFirst, le_rfl⟩
    · rw [← denotes2.same]
      exact ⟨two, inSecond, le_rfl, denotes2.apart.proper two inSecond⟩
  · ext number
    rw [covered_append, denotes1.same, denotes2.same, same, Set.mem_union]

theorem Denotes.front (denotes : Denotes gap intervals numbers)
    (after : ∀ number ∈ numbers, high + gap ≤ number)
    (same : ∀ number, number ∈ others ↔ low ≤ number ∧ number < high ∨ number ∈ numbers) :
    Denotes gap (if low < high then { low, high := high - 1 } :: intervals else intervals) others := by
  split
  · refine denotes.cons (by omega) (fun number member => ?_) fun number => ?_
    · have := after number member
      omega
    · rw [same]
      grind
  · refine denotes.of_iff fun number => ?_
    rw [same]
    grind

theorem Denotes.bounded (denotes : Denotes gap intervals numbers)
    (inside : ∀ number ∈ numbers, number ≤ limit) :
    ∀ interval ∈ intervals, interval.high ≤ limit := by
  intro interval member
  apply inside
  rw [← denotes.same]
  exact ⟨interval, member, denotes.apart.proper interval member, le_rfl⟩

end Denotes

def Joined (intervals : List Interval) (number : Nat) : Prop :=
  ∃ interval ∈ intervals, interval.low ≤ number ∧ number < interval.high

variable {intervals : List Interval} {number : Nat}

theorem joined_cons {interval : Interval} {rest : List Interval} :
    Joined (interval :: rest) number ↔
      interval.low ≤ number ∧ number < interval.high ∨ Joined rest number := by
  simp [Joined]

theorem Joined.covered (joined : Joined intervals number) :
    number ∈ covered intervals ∧ number + 1 ∈ covered intervals := by
  obtain ⟨interval, member, low, high⟩ := joined
  exact ⟨⟨interval, member, low, high.le⟩, ⟨interval, member, by omega, high⟩⟩

theorem joined_append {first second : List Interval} :
    Joined (first ++ second) number ↔ Joined first number ∨ Joined second number := by
  simp [Joined, or_and_right, exists_or]

theorem apart_one_iff (apart : Apart 0 intervals) :
    Apart 1 intervals ↔ ∀ number, number ∈ covered intervals → number + 1 ∈ covered intervals →
      Joined intervals number := by
  induction intervals with
  | nil => simp [Apart.nil]
  | cons interval rest ih =>
    obtain ⟨proper, before, tail⟩ := apart_cons.mp apart
    have after := apart.after
    rw [apart_cons, ih tail]
    constructor
    · rintro ⟨_, far, joined⟩ number here next
      have beyond : ∀ later ∈ covered rest, interval.high + 1 < later := by
        rintro later ⟨other, member, low, _⟩
        have := far other member
        omega
      simp only [mem_covered_cons, joined_cons] at here next ⊢
      grind
    · intro joined
      refine ⟨proper, fun later member => ?_, fun number here next => ?_⟩
      · have least := before later member
        have known := tail.proper later member
        by_contra near
        have seam := joined interval.high (by simp [Interval.mem_members, proper]) (by
          rw [show interval.high + 1 = later.low by omega]
          exact mem_covered_cons.mpr (Or.inr ⟨later, member, le_rfl, known⟩))
        rcases joined_cons.mp seam with inside | later
        · omega
        · have := after _ later.covered.1
          omega
      · have first := after number here
        have seam := joined number (mem_covered_cons.mpr (Or.inr here))
          (mem_covered_cons.mpr (Or.inr next))
        rcases joined_cons.mp seam with inside | later
        · omega
        · exact later

theorem swept_out {ones twos : List Interval} {turns : Nat}
    (enough : ones.length + twos.length ≤ turns)
    (ended : ∀ (left : Nat) (one : Interval) (more1 : List Interval) (two : Interval)
      (more2 : List Interval), turns = left.succ → ones = one :: more1 → twos = two :: more2 → False) :
    ones = [] ∨ twos = [] := by
  cases ones with
  | nil => exact Or.inl rfl
  | cons one ones =>
    cases twos with
    | nil => exact Or.inr rfl
    | cons two twos =>
      cases turns with
      | zero => simp at enough
      | succ turns => exact (ended turns one ones two twos rfl rfl rfl).elim

section Loops

variable {α : Type} (limit : Nat) (next previous : Nat → Nat) (add : α → Nat → Nat → α)

def addPieces (start : α) (pieces : List Interval) : α :=
  pieces.foldl (fun sum piece => add sum piece.low piece.high) start

theorem addPieces_append (start : α) (first second : List Interval) :
    addPieces add start (first ++ second) = addPieces add (addPieces add start first) second :=
  foldl_append

/-- Sorted intervals after the one from `lo` to `hi`, joined where they touch. -/
def coalesceLoop (sum : α) (lo hi : Nat) : List Interval → α
  | [] => add sum lo hi
  | entry :: rest =>
    if entry.high ≤ hi then coalesceLoop sum lo hi rest
    else if decide (entry.low ≤ hi) || (hi != limit && entry.low == next hi) then
      coalesceLoop sum lo entry.high rest
    else coalesceLoop (add sum lo hi) entry.low entry.high rest

/-- What exactly one of two lists covers. Every turn leaves an interval behind. -/
def differLoop : Nat → List Interval → List Interval → α → α
  | turns + 1, one :: ones, two :: twos, sum =>
    if two.high < one.low then differLoop turns (one :: ones) twos (add sum two.low two.high)
    else if one.high < two.low then differLoop turns ones (two :: twos) (add sum one.low one.high)
    else
      let sum :=
        if two.low < one.low then add sum two.low (previous one.low)
        else if one.low < two.low then add sum one.low (previous two.low)
        else sum
      if two.high < one.high then
        differLoop turns ({ low := next two.high, high := one.high } :: ones) twos sum
      else if one.high < two.high then
        differLoop turns ones ({ low := next one.high, high := two.high } :: twos) sum
      else differLoop turns ones twos sum
  | _, ones, twos, sum => addPieces add (addPieces add sum ones) twos

variable {limit next previous} {turns : Nat} {intervals ones twos : List Interval}

theorem coalesceLoop_spec (sum : α) (lo hi : Nat)
    (exact_ : ∀ number < limit, next number = number + 1) (proper : lo ≤ hi)
    (propers : ∀ entry ∈ intervals, entry.low ≤ entry.high)
    (bounded : ∀ entry ∈ intervals, entry.high ≤ limit)
    (sorted : intervals.Pairwise fun earlier later => earlier.low ≤ later.low)
    (later : ∀ entry ∈ intervals, lo ≤ entry.low) :
    ∃ pieces, Denotes 1 pieces (covered ({ low := lo, high := hi } :: intervals)) ∧
      coalesceLoop limit next add sum lo hi intervals = addPieces add sum pieces := by
  induction intervals generalizing sum lo hi with
  | nil => exact ⟨[{ low := lo, high := hi }], ⟨⟨by simpa using proper, by simp⟩, rfl⟩, rfl⟩
  | cons entry rest ih =>
    simp only [forall_mem_cons] at propers bounded later
    obtain ⟨first, sorted⟩ := pairwise_cons.mp sorted
    unfold coalesceLoop
    split
    · next inside =>
        obtain ⟨pieces, denotes, runs⟩ := ih sum lo hi proper propers.2 bounded.2 sorted later.2
        refine ⟨pieces, denotes.of_iff fun number => ?_, runs⟩
        simp only [mem_covered_cons]
        grind
    · next beyond =>
        -- below the limit the test says that the two touch or overlap
        have touching : (decide (entry.low ≤ hi) || (hi != limit && entry.low == next hi)) = true ↔
            entry.low ≤ hi + 1 := by
          have step := exact_ hi (by omega)
          simp only [Bool.or_eq_true, decide_eq_true_eq, Bool.and_eq_true, bne_iff_ne, beq_iff_eq,
            step]
          omega
        simp only [touching]
        split
        · next near =>
            obtain ⟨pieces, denotes, runs⟩ :=
              ih sum lo entry.high (by omega) propers.2 bounded.2 sorted later.2
            refine ⟨pieces, denotes.of_iff fun number => ?_, runs⟩
            simp only [mem_covered_cons]
            grind
        · next far =>
            obtain ⟨pieces, denotes, runs⟩ :=
              ih (add sum lo hi) entry.low entry.high propers.1 propers.2 bounded.2 sorted first
            refine ⟨{ low := lo, high := hi } :: pieces,
              denotes.cons proper (fun number member => ?_) fun _ => mem_covered_cons, runs⟩
            obtain ⟨low, _⟩ | ⟨other, member, low, _⟩ := mem_covered_cons.mp member
            · dsimp only at low
              omega
            · have := first other member
              omega

/-- Pieces for what exactly one of two lists covers; two numbers in a row share a piece when
they share an interval of the one and the other has neither. -/
structure Differs (pieces ones twos : List Interval) : Prop where
  denotes : Denotes 0 pieces (symmDiff (covered ones) (covered twos))
  joined : ∀ number, Joined pieces number ↔
    Joined ones number ∧ number ∉ covered twos ∧ number + 1 ∉ covered twos ∨
      Joined twos number ∧ number ∉ covered ones ∧ number + 1 ∉ covered ones

variable {pieces left1 left2 : List Interval} {one : Interval} {low1 low2 last : Nat}

theorem Differs.symm (differs : Differs pieces ones twos) : Differs pieces twos ones :=
  ⟨by rw [symmDiff_comm]; exact differs.denotes, fun number => by rw [differs.joined, or_comm]⟩

theorem Differs.bounded (differs : Differs pieces ones twos)
    (bounded1 : ∀ entry ∈ ones, entry.high ≤ limit) (bounded2 : ∀ entry ∈ twos, entry.high ≤ limit) :
    ∀ piece ∈ pieces, piece.high ≤ limit := by
  refine differs.denotes.bounded ?_
  rintro number (⟨⟨entry, member, _, high⟩, _⟩ | ⟨⟨entry, member, _, high⟩, _⟩)
  · exact high.trans (bounded1 entry member)
  · exact high.trans (bounded2 entry member)

theorem differs_nil (apart : Apart 0 ones) : Differs ones ones [] :=
  ⟨⟨apart, by simp [← Set.bot_eq_empty]⟩, by simp [Joined]⟩

theorem Differs.cons (differs : Differs pieces ones twos) (apart : Apart 0 (one :: ones))
    (before : ∀ number ∈ covered twos, one.high < number) :
    Differs (one :: pieces) (one :: ones) twos := by
  have after := apart.after
  constructor
  · refine differs.denotes.cons (apart_cons.mp apart).1 ?_ ?_
    · rintro number (⟨inside, _⟩ | ⟨inside, _⟩)
      · exact after number inside
      · exact before number inside
    · intro number
      simp only [Set.mem_symmDiff, mem_covered_cons]
      grind
  · intro number
    have covered := @Joined.covered twos number
    have := before number
    have := before (number + 1)
    have := after number
    simp only [joined_cons, differs.joined, mem_covered_cons]
    grind

theorem differLoop_front (sum : α)
    (previouses : ∀ number ≤ limit, 0 < number → previous number = number - 1)
    (bound1 : low1 ≤ limit) (bound2 : low2 ≤ limit) :
    ∃ front, Denotes 0 front (Set.Ico (min low1 low2) (max low1 low2)) ∧
      (∀ number, Joined front number ↔ min low1 low2 ≤ number ∧ number + 1 < max low1 low2) ∧
      (if low2 < low1 then add sum low2 (previous low1)
        else if low1 < low2 then add sum low1 (previous low2) else sum) = addPieces add sum front := by
  have single (low high : Nat) (less : low < high) (bound : high ≤ limit) :
      Denotes 0 [{ low, high := previous high }] (Set.Ico low high) ∧
        ∀ number, Joined [{ low, high := previous high }] number ↔ low ≤ number ∧ number + 1 < high := by
    rw [previouses high bound (by omega)]
    refine ⟨⟨⟨by simp; omega, by simp⟩, ?_⟩, fun number => ?_⟩
    · ext number
      simp [Interval.mem_members]
      omega
    · simp [Joined]
      omega
  rcases lt_trichotomy low1 low2 with less | rfl | less
  · rw [min_eq_left less.le, max_eq_right less.le, if_neg (by omega), if_pos less]
    exact ⟨_, (single low1 low2 less bound2).1, (single low1 low2 less bound2).2, rfl⟩
  · exact ⟨[], ⟨Apart.nil, by simp⟩, fun number => by simp [Joined]; omega, by simp [addPieces]⟩
  · rw [min_eq_right less.le, max_eq_left less.le, if_pos less]
    exact ⟨_, (single low2 low1 less bound1).1, (single low2 low1 less bound1).2, rfl⟩

structure Trims (intervals left : List Interval) (low last : Nat) : Prop where
  mem : ∀ number, number ∈ covered intervals ↔ low ≤ number ∧ number ≤ last ∨ number ∈ covered left
  joined : ∀ number, number ≠ last →
    (Joined intervals number ↔ low ≤ number ∧ number < last ∨ Joined left number)
  after : ∀ number ∈ covered left, last < number

theorem Apart.trims (apart : Apart 0 (one :: ones)) : Trims (one :: ones) ones one.low one.high :=
  ⟨fun _ => mem_covered_cons, fun _ _ => joined_cons, apart.after⟩

theorem Apart.trims_cut (apart : Apart 0 (one :: ones)) (inside : one.low ≤ last)
    (less : last < one.high) :
    Trims (one :: ones) ({ low := last + 1, high := one.high } :: ones) one.low last := by
  have after := apart.after
  refine ⟨fun number => ?_, fun number other => ?_, fun number member => ?_⟩
  · rw [mem_covered_cons, mem_covered_cons]
    grind
  · rw [joined_cons, joined_cons]
    grind
  · have := (apart.trim less).head_le number member
    exact this

section

variable (differs : Differs pieces left1 left2) (trims1 : Trims ones left1 low1 last)
  (trims2 : Trims twos left2 low2 last) (inside1 : low1 ≤ last) (inside2 : low2 ≤ last)

include differs trims1 trims2 inside1 inside2

theorem Differs.overlap {front : List Interval}
    (first : Denotes 0 front (Set.Ico (min low1 low2) (max low1 low2)))
    (joined : ∀ number, Joined front number ↔ min low1 low2 ≤ number ∧ number + 1 < max low1 low2) :
    Differs (front ++ pieces) ones twos := by
  have after1 := trims1.after
  have after2 := trims2.after
  constructor
  · refine first.append differs.denotes ?_ ?_
    · rintro number ⟨_, high⟩ other (⟨later, _⟩ | ⟨later, _⟩)
      · have := after1 other later
        omega
      · have := after2 other later
        omega
    · intro number
      simp only [Set.mem_symmDiff, Set.mem_Ico, trims1.mem, trims2.mem]
      grind
  · intro number
    have here1 := @Joined.covered left1 number
    have here2 := @Joined.covered left2 number
    rw [joined_append, joined, differs.joined]
    by_cases same : number = last
    · simp only [trims1.mem, trims2.mem]
      grind
    · simp only [trims1.joined number same, trims2.joined number same, trims1.mem, trims2.mem]
      grind

theorem Differs.collect {result : α} (bound : last ≤ limit)
    (previouses : ∀ number ≤ limit, 0 < number → previous number = number - 1) (sum : α)
    (runs : result = addPieces add (if low2 < low1 then add sum low2 (previous low1)
      else if low1 < low2 then add sum low1 (previous low2) else sum) pieces) :
    ∃ pieces, Differs pieces ones twos ∧ result = addPieces add sum pieces := by
  obtain ⟨front, denotes, joined, collects⟩ := differLoop_front add sum previouses
    (inside1.trans bound) (inside2.trans bound)
  refine ⟨front ++ pieces, differs.overlap trims1 trims2 inside1 inside2 denotes joined, ?_⟩
  rw [runs, addPieces_append, collects]

end

theorem differLoop_spec (sum : α) (enough : ones.length + twos.length ≤ turns)
    (nexts : ∀ number < limit, next number = number + 1)
    (previouses : ∀ number ≤ limit, 0 < number → previous number = number - 1)
    (apart1 : Apart 0 ones) (apart2 : Apart 0 twos)
    (bounded1 : ∀ entry ∈ ones, entry.high ≤ limit) (bounded2 : ∀ entry ∈ twos, entry.high ≤ limit) :
    ∃ pieces, Differs pieces ones twos ∧
      differLoop next previous add turns ones twos sum = addPieces add sum pieces := by
  fun_induction differLoop next previous add turns ones twos sum with
  | case1 turns one ones two twos sum below ih =>
    obtain ⟨pieces, differs, runs⟩ := ih (by simp only [length_cons] at *; omega) apart1
      (apart_cons.mp apart2).2.2 bounded1 (forall_mem_cons.mp bounded2).2
    refine ⟨two :: pieces, (differs.symm.cons apart2 fun number inside => ?_).symm, runs⟩
    have := apart1.head_le number inside
    omega
  | case2 turns one ones two twos sum _ below ih =>
    obtain ⟨pieces, differs, runs⟩ := ih (by simp only [length_cons] at *; omega)
      (apart_cons.mp apart1).2.2 apart2 (forall_mem_cons.mp bounded1).2 bounded2
    refine ⟨one :: pieces, differs.cons apart1 fun number inside => ?_, runs⟩
    have := apart2.head_le number inside
    omega
  | case3 turns one ones two twos sum _ _ _ longer ih =>
    obtain ⟨bound, bounds⟩ := forall_mem_cons.mp bounded1
    obtain ⟨proper, _, tail⟩ := apart_cons.mp apart2
    rw [nexts two.high (by omega)] at ih ⊢
    obtain ⟨pieces, differs, runs⟩ := ih (by simp only [length_cons] at *; omega)
      (apart1.trim longer) tail (forall_mem_cons.mpr ⟨bound, bounds⟩)
      (forall_mem_cons.mp bounded2).2
    exact differs.collect add (apart1.trims_cut (by omega) longer) apart2.trims (by omega)
      proper (by omega) previouses sum runs
  | case4 turns one ones two twos sum _ _ _ _ shorter ih =>
    obtain ⟨bound, bounds⟩ := forall_mem_cons.mp bounded2
    obtain ⟨proper, _, tail⟩ := apart_cons.mp apart1
    rw [nexts one.high (by omega)] at ih ⊢
    obtain ⟨pieces, differs, runs⟩ := ih (by simp only [length_cons] at *; omega)
      tail (apart2.trim shorter) (forall_mem_cons.mp bounded1).2
      (forall_mem_cons.mpr ⟨bound, bounds⟩)
    exact differs.collect add apart1.trims (apart2.trims_cut (by omega) shorter) proper
      (by omega) (by omega) previouses sum runs
  | case5 turns one ones two twos sum _ _ _ _ _ ih =>
    obtain ⟨bound, bounds⟩ := forall_mem_cons.mp bounded1
    have same : one.high = two.high := by omega
    obtain ⟨pieces, differs, runs⟩ := ih (by simp only [length_cons] at *; omega)
      (apart_cons.mp apart1).2.2 (apart_cons.mp apart2).2.2 bounds
      (forall_mem_cons.mp bounded2).2
    exact differs.collect add apart1.trims (same ▸ apart2.trims) (by omega) (by omega) bound
      previouses sum runs
  | case6 turns ones twos sum ended =>
    rcases swept_out enough ended with rfl | rfl
    · exact ⟨twos, (differs_nil apart2).symm, rfl⟩
    · exact ⟨ones, differs_nil apart1, rfl⟩

end Loops

end IpRange
