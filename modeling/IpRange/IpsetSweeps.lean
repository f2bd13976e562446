import IpRange.Ipset

/-!
The sweeps over two optimized sets give exactly the addresses they should, as canonical
entries for what is common or excluded.
-/

namespace IpRange.Ipset

open List

variable {machine : Machine} {ips : Ipset} {gap : Nat} {intervals : List Interval}

section Sweeps

variable {one two : Interval} {ones twos pieces : List Interval} {turns : Nat}

theorem Counted.gather (machine : Machine) {addresses : Set Nat}
    (denotes : Denotes gap pieces addresses) (bounded : Bounded pieces) (ips1 ips2 : Ipset) :
    Counted gap (finish machine (create.addAll machine pieces) ips1 ips2) ∧
      (finish machine (create.addAll machine pieces) ips1 ips2).netaddrs = pieces := by
  have empty : Counted gap create := ⟨Apart.nil, by simp [Bounded, Ipset.create], rfl⟩
  have added : Counted gap (create.addAll machine pieces) ∧ _ :=
    empty.addAll rfl denotes.apart bounded
  obtain ⟨counted, same⟩ := added
  exact ⟨⟨counted.apart, counted.bounded, counted.unique⟩, same⟩

theorem Bounded.tail (bounded : Bounded (one :: ones)) : Bounded ones :=
  fun entry member => bounded entry (mem_cons_of_mem _ member)

theorem commonLoop_spec (machine : Machine) (ips : Ipset)
    (enough : ones.length + twos.length ≤ turns) (apart1 : Apart gap ones) (apart2 : Apart gap twos) :
    ∃ pieces, Denotes gap pieces (covered ones ∩ covered twos) ∧
      commonLoop machine turns ones twos ips = ips.addAll machine pieces := by
  fun_induction commonLoop machine turns ones twos ips with
  | case1 turns one ones two twos ips below ih =>
    obtain ⟨pieces, denotes, runs⟩ := ih (by simp only [length_cons] at *; omega) apart1
      (apart_cons.mp apart2).2.2
    refine ⟨pieces, denotes.of_iff fun number => ?_, runs⟩
    have := apart1.head_le number
    simp only [Set.mem_inter_iff, mem_covered_cons] at *
    grind
  | case2 turns one ones two twos ips _ below ih =>
    obtain ⟨pieces, denotes, runs⟩ := ih (by simp only [length_cons] at *; omega)
      (apart_cons.mp apart1).2.2 apart2
    refine ⟨pieces, denotes.of_iff fun number => ?_, runs⟩
    have := apart2.head_le number
    simp only [Set.mem_inter_iff, mem_covered_cons] at *
    grind
  | case3 turns one ones two twos ips _ _ lo shorter ih =>
    obtain ⟨pieces, denotes, runs⟩ := ih (by simp only [length_cons] at *; omega)
      (apart_cons.mp apart1).2.2 apart2
    have after1 := apart1.after
    have after2 := apart2.after
    refine ⟨{ low := lo, high := one.high } :: pieces, denotes.cons ?_ ?_ fun number => ?_, runs⟩
    · have := (apart_cons.mp apart1).1
      grind
    · exact fun number member => after1 number member.1
    · simp only [Set.mem_inter_iff, mem_covered_cons]
      grind
  | case4 turns one ones two twos ips _ _ lo longer ih =>
    obtain ⟨pieces, denotes, runs⟩ := ih (by simp only [length_cons] at *; omega) apart1
      (apart_cons.mp apart2).2.2
    have after1 := apart1.after
    have after2 := apart2.after
    refine ⟨{ low := lo, high := two.high } :: pieces, denotes.cons ?_ ?_ fun number => ?_, runs⟩
    · have := (apart_cons.mp apart2).1
      grind
    · exact fun number member => after2 number member.2
    · simp only [Set.mem_inter_iff, mem_covered_cons]
      grind
  | case5 turns ones twos ips ended =>
    refine ⟨[], ⟨Apart.nil, ?_⟩, rfl⟩
    rcases swept_out enough ended with rfl | rfl <;> simp

theorem addAll_front (exact_ : machine.Exact) (low : Nat) {high : Nat} (bound : high ≤ addrMax) :
    (if low < high then ips.addIpRange machine low (machine.previous high) else ips).addAll machine
        pieces =
      ips.addAll machine (if low < high then { low, high := high - 1 } :: pieces else pieces) := by
  split
  · rw [exact_.previous high bound (by omega)]
    rfl
  · rfl

theorem excludeLoop_spec (ips : Ipset) (exact_ : machine.Exact)
    (enough : ones.length + twos.length ≤ turns) (apart1 : Apart 1 ones) (apart2 : Apart 1 twos)
    (bounded1 : Bounded ones) (bounded2 : Bounded twos) :
    ∃ pieces, Denotes 1 pieces (covered ones \ covered twos) ∧
      excludeLoop machine turns ones twos ips = ips.addAll machine pieces := by
  fun_induction excludeLoop machine turns ones twos ips with
  | case1 turns one ones two twos ips below ih =>
    obtain ⟨pieces, denotes, runs⟩ := ih (by simp only [length_cons] at *; omega) apart1
      (apart_cons.mp apart2).2.2 bounded1 bounded2.tail
    refine ⟨pieces, denotes.of_iff fun number => ?_, runs⟩
    have := apart1.head_le number
    simp only [Set.mem_sdiff, mem_covered_cons] at *
    grind
  | case2 turns one ones two twos ips _ below ih =>
    obtain ⟨pieces, denotes, runs⟩ := ih (by simp only [length_cons] at *; omega)
      (apart_cons.mp apart1).2.2 apart2 bounded1.tail bounded2
    refine ⟨one :: pieces, denotes.cons (apart_cons.mp apart1).1 ?_ fun number => ?_, runs⟩
    · exact fun number member => apart1.after number member.1
    · have := apart2.head_le number
      simp only [Set.mem_sdiff, mem_covered_cons] at *
      grind
  | case3 turns one ones two twos ips _ _ _ together ih =>
    obtain ⟨pieces, denotes, runs⟩ := ih (by simp only [length_cons] at *; omega)
      (apart_cons.mp apart1).2.2 (apart_cons.mp apart2).2.2 bounded1.tail bounded2.tail
    have after1 := apart1.after
    have after2 := apart2.after
    have bound := bounded1 one (by simp)
    rw [addAll_front exact_ one.low (by omega)] at runs
    refine ⟨_, denotes.front (fun number member => ?_) fun number => ?_, runs⟩
    · have := after1 number member.1
      omega
    · simp only [Set.mem_sdiff, mem_covered_cons]
      grind
  | case4 turns one ones two twos ips _ _ _ _ shorter ih =>
    obtain ⟨pieces, denotes, runs⟩ := ih (by simp only [length_cons] at *; omega)
      (apart_cons.mp apart1).2.2 apart2 bounded1.tail bounded2
    have after1 := apart1.after
    have after2 := apart2.after
    have bound := bounded1 one (by simp)
    rw [addAll_front exact_ one.low (by omega)] at runs
    refine ⟨_, denotes.front (fun number member => ?_) fun number => ?_, runs⟩
    · have := after1 number member.1
      omega
    · simp only [Set.mem_sdiff, mem_covered_cons]
      grind
  | case5 turns one ones two twos ips _ _ _ _ _ ih =>
    have bound := bounded1 one (by simp)
    have proper := (apart_cons.mp apart2).1
    rw [exact_.next two.high (by omega)] at ih ⊢
    have trimmed : Apart 1 ({ low := two.high + 1, high := one.high } :: ones) :=
      apart1.trim (by omega)
    obtain ⟨pieces, denotes, runs⟩ := ih (by simp only [length_cons] at *; omega) trimmed
      (apart_cons.mp apart2).2.2 (forall_mem_cons.mpr ⟨bound, bounded1.tail⟩) bounded2.tail
    have after1 := apart1.after
    have after2 := apart2.after
    rw [addAll_front exact_ one.low (by omega)] at runs
    refine ⟨_, denotes.front (fun number member => ?_) fun number => ?_, runs⟩
    · have low : two.high + 1 ≤ number := trimmed.head_le number member.1
      omega
    · simp only [Set.mem_sdiff, mem_covered_cons]
      grind
  | case6 turns ones twos ips ended =>
    refine ⟨ones, ⟨apart1, ?_⟩, rfl⟩
    rcases swept_out enough ended with rfl | rfl <;> simp

theorem diffLoop_eq (machine : Machine) (turns : Nat) (ones twos : List Interval) (ips : Ipset) :
    diffLoop machine turns ones twos ips =
      differLoop machine.next machine.previous (addIpRange machine) turns ones twos ips := by
  induction turns generalizing ones twos ips with
  | zero => simp only [diffLoop, differLoop, addPieces, addAll]
  | succ turns ih =>
    cases ones with
    | nil => simp only [diffLoop, differLoop, addPieces, addAll]
    | cons one ones =>
      cases twos with
      | nil => simp only [diffLoop, differLoop, addPieces, addAll]
      | cons two twos => simp only [diffLoop, differLoop, ih]

theorem diff_spec {ips1 ips2 : Ipset} (exact_ : machine.Exact)
    (apart1 : Apart 0 (ips1.optimize machine).netaddrs)
    (apart2 : Apart 0 (ips2.optimize machine).netaddrs)
    (bounded1 : Bounded (ips1.optimize machine).netaddrs)
    (bounded2 : Bounded (ips2.optimize machine).netaddrs) :
    Differs (ips1.diff machine ips2).netaddrs (ips1.optimize machine).netaddrs
        (ips2.optimize machine).netaddrs ∧
      Counted 0 (ips1.diff machine ips2) := by
  obtain ⟨pieces, differs, runs⟩ := differLoop_spec (addIpRange machine) .create le_rfl exact_.next
    exact_.previous apart1 apart2 bounded1 bounded2
  have gathered := Counted.gather machine differs.denotes (differs.bounded bounded1 bounded2)
    (ips1.optimize machine) (ips2.optimize machine)
  simp only [Ipset.diff, entries, diffLoop_eq, runs]
  exact ⟨gathered.2.symm ▸ differs, gathered.1⟩

end Sweeps

structure Canonical (ips : Ipset) (addresses : Set Nat) : Prop where
  flag : ips.optimized = true
  counted : Counted 1 ips
  same : ips.addresses = addresses

/-- Sets made of a loaded one by adding ranges, merging and optimizing, with the addresses
put into them. An optimization that sorts entries leaves an array that is only as long as they
are, which nothing is appended to any more. -/
inductive Built (machine : Machine) : Bool → Ipset → Set Nat → Prop
  | loaded {ips : Ipset} {addresses : Set Nat} (canonical : Canonical ips addresses) :
      Built machine false ips addresses
  | add {ips : Ipset} {addresses : Set Nat} (built : Built machine false ips addresses) {lo hi : Nat}
      (proper : lo ≤ hi) (bound : hi ≤ addrMax) :
      Built machine false (ips.addIpRange machine lo hi) (addresses ∪ Set.Icc lo hi)
  | merge {to_ add merged : Ipset} {addresses added : Set Nat} {tight : Bool}
      (built : Built machine false to_ addresses) (other : Built machine tight add added)
      (done : to_.merge machine add = some merged) : Built machine false merged (addresses ∪ added)
  | optimize {ips : Ipset} {addresses : Set Nat} {tight : Bool}
      (built : Built machine tight ips addresses) :
      Built machine (tight || (!ips.optimized && ips.entries != 0)) (ips.optimize machine) addresses

section Built

variable {ips1 ips2 : Ipset} {addresses1 addresses2 : Set Nat} {tight1 tight2 : Bool}

structure Kept (ips : Ipset) (addresses : Set Nat) : Prop where
  ranges : Ranges ips.netaddrs
  same : ips.addresses = addresses
  flagged : ips.optimized = true → Counted 1 ips

theorem Counted.ranges (counted : Counted gap ips) : Ranges ips.netaddrs :=
  ⟨counted.apart.proper, counted.bounded⟩

variable {addresses : Set Nat}

theorem Kept.optimize (kept : Kept ips addresses) (exact_ : machine.Exact) :
    Canonical (ips.optimize machine) addresses := by
  obtain ⟨counted, same, flag⟩ := optimize_spec exact_ kept.ranges kept.flagged
  exact ⟨flag, counted, same.trans kept.same⟩

theorem Ranges.append {first second : List Interval} (ranges1 : Ranges first)
    (ranges2 : Ranges second) : Ranges (first ++ second) :=
  ⟨fun entry member => (mem_append.mp member).elim (ranges1.proper entry) (ranges2.proper entry),
    fun entry member =>
      (mem_append.mp member).elim (ranges1.bounded entry) (ranges2.bounded entry)⟩

theorem Ranges.add (ranges : Ranges ips.netaddrs) (exact_ : machine.Exact) {lo hi : Nat}
    (proper : lo ≤ hi) (bound : hi ≤ addrMax) :
    Ranges (ips.addIpRange machine lo hi).netaddrs := by
  have appended : Ranges (ips.netaddrs ++ [{ low := lo, high := hi }]) :=
    ranges.append ⟨by simpa using proper, by simpa [Bounded] using bound⟩
  unfold addIpRange addedEntry
  dsimp only
  rcases eq_nil_or_concat ips.netaddrs with empty | ⟨before, last, shape⟩
  · rw [empty] at appended ⊢
    exact appended
  · rw [concat_eq_append] at shape
    have found : ips.netaddrs.getLast? = some last := by simp [shape]
    rw [found]
    dsimp only
    split
    · exact appended
    split
    · next touching =>
        simp only [Bool.and_eq_true, bne_iff_ne, ne_eq, beq_iff_eq] at touching
        have lastProper := ranges.proper last (by simp [shape])
        have lastBound := ranges.bounded last (by simp [shape])
        have start := touching.2
        rw [exact_.next last.high (by omega)] at start
        have kept : Ranges before :=
          ⟨fun entry member => ranges.proper entry (by simp [shape, member]),
            fun entry member => ranges.bounded entry (by simp [shape, member])⟩
        rw [shape, dropLast_concat]
        refine kept.append ⟨?_, ?_⟩
        · simp only [mem_singleton, forall_eq]
          omega
        · simpa [Bounded] using bound
    · split <;> exact appended

theorem Kept.add (kept : Kept ips addresses) (exact_ : machine.Exact) {lo hi : Nat}
    (proper : lo ≤ hi) (bound : hi ≤ addrMax) :
    Kept (ips.addIpRange machine lo hi) (addresses ∪ Set.Icc lo hi) := by
  have ranges := kept.ranges.add exact_ proper bound
  rw [← kept.same]
  cases flag : ips.optimized with
  | false =>
    refine ⟨ranges, ?_, ?_⟩
    · rw [addIpRange_plain flag]
      exact covered_concat _ _
    · rw [addIpRange_plain flag]
      intro raised
      cases raised
  | true =>
    obtain ⟨same, counted⟩ := (kept.flagged flag).add_optimized exact_ flag proper bound
    exact ⟨ranges, same, counted⟩

theorem Built.kept {tight : Bool} (exact_ : machine.Exact) (built : Built machine tight ips addresses) :
    Kept ips addresses := by
  induction built with
  | loaded canonical => exact ⟨canonical.counted.ranges, canonical.same, fun _ => canonical.counted⟩
  | add built proper bound ih => exact ih.add exact_ proper bound
  | merge built other done ih1 ih2 =>
    unfold Ipset.merge at done
    split at done
    · cases done
    · cases done
      refine ⟨ih1.ranges.append ih2.ranges, ?_, fun flag => by cases flag⟩
      rw [← ih1.same, ← ih2.same]
      exact covered_append _ _
  | optimize built ih =>
    have canonical := ih.optimize exact_
    exact ⟨canonical.counted.ranges, canonical.same, fun _ => canonical.counted⟩

theorem Canonical.gather {pieces : List Interval} (denotes : Denotes 1 pieces addresses)
    (inside : ∀ address ∈ addresses, address ≤ addrMax) (ips1 ips2 : Ipset) :
    Canonical (finish machine (Ipset.create.addAll machine pieces) ips1 ips2) addresses := by
  obtain ⟨counted, same⟩ := Counted.gather machine denotes (denotes.bounded inside) ips1 ips2
  exact ⟨rfl, counted, by rw [Ipset.addresses, same, denotes.same]⟩

theorem Canonical.inside (canonical : Canonical ips addresses) :
    ∀ address ∈ addresses, address ≤ addrMax := by
  rw [← canonical.same]
  rintro address ⟨entry, member, _, high⟩
  exact high.trans (canonical.counted.bounded entry member)

theorem Kept.common (kept1 : Kept ips1 addresses1) (kept2 : Kept ips2 addresses2)
    (exact_ : machine.Exact) :
    Canonical (ips1.common machine ips2) (addresses1 ∩ addresses2) := by
  have canonical1 := kept1.optimize exact_
  have canonical2 := kept2.optimize exact_
  obtain ⟨pieces, denotes, runs⟩ := commonLoop_spec machine .create le_rfl
    canonical1.counted.apart canonical2.counted.apart
  have same : covered _ ∩ covered _ = _ := congrArg₂ (· ∩ ·) canonical1.same canonical2.same
  simp only [Ipset.common, entries, runs]
  exact .gather (same ▸ denotes) (fun address member => canonical1.inside address member.1) _ _

theorem Kept.exclude (kept1 : Kept ips1 addresses1) (kept2 : Kept ips2 addresses2)
    (exact_ : machine.Exact) :
    Canonical (ips1.exclude machine ips2) (addresses1 \ addresses2) := by
  have canonical1 := kept1.optimize exact_
  have canonical2 := kept2.optimize exact_
  obtain ⟨pieces, denotes, runs⟩ := excludeLoop_spec .create exact_ le_rfl
    canonical1.counted.apart canonical2.counted.apart canonical1.counted.bounded
    canonical2.counted.bounded
  have same : covered _ \ covered _ = _ := congrArg₂ (· \ ·) canonical1.same canonical2.same
  simp only [Ipset.exclude, entries, runs]
  exact .gather (same ▸ denotes) (fun address member => canonical1.inside address member.1) _ _

theorem Canonical.exact (canonical : Canonical ips addresses) :
    ips.uniqueIps = addresses.ncard := by
  rw [← canonical.same]
  exact canonical.counted.exact

theorem addIpRange_agree {other : Machine} (exact_ : machine.Exact) (otherExact : other.Exact)
    (sizes : other.sizeMax = machine.sizeMax) (ranges : Ranges ips.netaddrs) (lo hi : Nat) :
    ips.addIpRange other lo hi = ips.addIpRange machine lo hi := by
  unfold addIpRange addedEntry
  dsimp only
  rw [Machine.sizeSum, Machine.sizeSum, sizes]
  cases found : ips.netaddrs.getLast? with
  | none => rfl
  | some last =>
    dsimp only
    have lastBound := ranges.bounded last (mem_of_getLast? found)
    have touching : (last.high != addrMax && lo == other.next last.high) =
        (last.high != addrMax && lo == machine.next last.high) := by
      by_cases edge : last.high = addrMax
      · simp [edge]
      · rw [otherExact.next last.high (by omega), exact_.next last.high (by omega)]
    rw [touching]

theorem Canonical.unique (canonical1 : Canonical ips1 addresses)
    (canonical2 : Canonical ips2 addresses) (lines : ips1.lines = ips2.lines) : ips1 = ips2 := by
  have netaddrs : ips1.netaddrs = ips2.netaddrs :=
    canonical1.counted.apart.unique canonical2.counted.apart
      (canonical1.same.trans canonical2.same.symm)
  have flags := canonical1.flag.trans canonical2.flag.symm
  have counts : ips1.uniqueIps = ips2.uniqueIps := by
    rw [canonical1.counted.unique, canonical2.counted.unique, netaddrs]
  cases ips1
  cases ips2
  simp_all

@[simp] theorem optimize_lines (ips : Ipset) : (ips.optimize machine).lines = ips.lines := by
  unfold optimize
  split
  · rfl
  · split <;> rfl

/-- A set that has the flag after any additions and merges is canonical, optimization makes
any such set canonical, and so are what two of them have in common and what the first has
without the second. None of this depends on what a step of address arithmetic gives at the
edge of the address space: another machine that is exact inside it computes the same. -/
theorem built_canonical (exact_ : machine.Exact) (built1 : Built machine tight1 ips1 addresses1)
    (built2 : Built machine tight2 ips2 addresses2) :
    (ips1.optimized = true → Canonical ips1 addresses1 ∧ ips1.uniqueIps = addresses1.ncard) ∧
      (Canonical (ips1.optimize machine) addresses1 ∧
        (ips1.optimize machine).uniqueIps = addresses1.ncard) ∧
      (Canonical (ips1.common machine ips2) (addresses1 ∩ addresses2) ∧
        (ips1.common machine ips2).uniqueIps = (addresses1 ∩ addresses2).ncard) ∧
      (Canonical (ips1.exclude machine ips2) (addresses1 \ addresses2) ∧
        (ips1.exclude machine ips2).uniqueIps = (addresses1 \ addresses2).ncard) ∧
      ∀ other : Machine, other.Exact → other.sizeMax = machine.sizeMax →
        (∀ lo hi, lo ≤ hi → hi ≤ addrMax →
          ips1.addIpRange other lo hi = ips1.addIpRange machine lo hi) ∧
        ips1.optimize other = ips1.optimize machine ∧
        ips1.common other ips2 = ips1.common machine ips2 ∧
        ips1.exclude other ips2 = ips1.exclude machine ips2 := by
  have kept1 := built1.kept exact_
  have kept2 := built2.kept exact_
  refine ⟨fun flag => ?_, ⟨kept1.optimize exact_, (kept1.optimize exact_).exact⟩,
    ⟨kept1.common kept2 exact_, (kept1.common kept2 exact_).exact⟩,
    ⟨kept1.exclude kept2 exact_, (kept1.exclude kept2 exact_).exact⟩, ?_⟩
  · have canonical : Canonical ips1 addresses1 := ⟨flag, kept1.flagged flag, kept1.same⟩
    exact ⟨canonical, canonical.exact⟩
  · intro other otherExact sizes
    refine ⟨?_, ?_, ?_, ?_⟩
    · intro lo hi proper bound
      exact addIpRange_agree exact_ otherExact sizes kept1.ranges lo hi
    · exact (kept1.optimize otherExact).unique (kept1.optimize exact_) (by simp)
    · exact (kept1.common kept2 otherExact).unique (kept1.common kept2 exact_)
        (by simp [Ipset.common, finish, Machine.sizeSum, sizes])
    · exact (kept1.exclude kept2 otherExact).unique (kept1.exclude kept2 exact_)
        (by simp [Ipset.exclude, finish, Machine.sizeSum, sizes])

/-- `exclude` and `common` divide a set: merged and optimized again they give the set back, and
none of its addresses is counted twice. -/
theorem exclude_common_rejoin {merged : Ipset} (exact_ : machine.Exact)
    (built1 : Built machine tight1 ips1 addresses1) (built2 : Built machine tight2 ips2 addresses2)
    (done : (ips1.exclude machine ips2).merge machine (ips1.common machine ips2) = some merged) :
    (merged.optimize machine).netaddrs = (ips1.optimize machine).netaddrs ∧
      (ips1.exclude machine ips2).uniqueIps + (ips1.common machine ips2).uniqueIps =
        (ips1.optimize machine).uniqueIps := by
  have kept1 := built1.kept exact_
  have kept2 := built2.kept exact_
  have whole := kept1.optimize exact_
  have left := kept1.exclude kept2 exact_
  have shared := kept1.common kept2 exact_
  have joined := ((Built.merge (.loaded left) (.loaded shared) done).kept exact_).optimize exact_
  rw [Set.sdiff_union_inter] at joined
  refine ⟨joined.counted.apart.unique whole.counted.apart (joined.same.trans whole.same.symm), ?_⟩
  have finite : addresses1.Finite := whole.same ▸ covered_finite _
  rw [left.exact, shared.exact, whole.exact, add_comm,
    Set.ncard_inter_add_ncard_sdiff_eq_ncard _ _ finite]

theorem canonical_opened : Canonical opened ∅ :=
  ⟨rfl, ⟨Apart.nil, by simp [Bounded, opened, Ipset.create], rfl⟩,
    by simp [addresses, opened, Ipset.create]⟩

theorem built_canonical_edges :
    Canonical
      (((opened.addIpRange (.wrapping (2 ^ 64 - 1) false) 0 20).addIpRange
          (.wrapping (2 ^ 64 - 1) false) 4294967290 4294967295).exclude
        (.wrapping (2 ^ 64 - 1) false)
        (opened.addIpRange (.wrapping (2 ^ 64 - 1) false) 4294967295 4294967295))
      ((∅ ∪ Set.Icc 0 20 ∪ Set.Icc 4294967290 4294967295) \
        (∅ ∪ Set.Icc 4294967295 4294967295)) :=
  (built_canonical (Machine.exact_wrapping (2 ^ 64 - 1) false)
    (((Built.loaded canonical_opened).add (by decide) (by decide)).add (by decide) (by decide))
    ((Built.loaded canonical_opened).add (by decide) (by decide))).2.2.2.1.1

theorem exclude_common_rejoin_sample : let machine := Machine.wrapping (2 ^ 64 - 1) false
    let ips1 := (opened.addIpRange machine 0 20).addIpRange machine 30 40
    let ips2 := opened.addIpRange machine 5 35
    ∃ merged, (ips1.exclude machine ips2).merge machine (ips1.common machine ips2) = some merged ∧
      merged.netaddrs = [⟨0, 4⟩, ⟨36, 40⟩, ⟨5, 20⟩, ⟨30, 35⟩] ∧
      (merged.optimize machine).netaddrs = (ips1.optimize machine).netaddrs ∧
      (ips1.exclude machine ips2).uniqueIps + (ips1.common machine ips2).uniqueIps =
        (ips1.optimize machine).uniqueIps := by
  refine ⟨_, rfl, by decide +kernel, ?_⟩
  exact exclude_common_rejoin (Machine.exact_wrapping (2 ^ 64 - 1) false)
    (((Built.loaded canonical_opened).add (by decide) (by decide)).add (by decide) (by decide))
    ((Built.loaded canonical_opened).add (by decide) (by decide)) rfl

end Built

end IpRange.Ipset
