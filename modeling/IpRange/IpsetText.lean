import IpRange.IpsetBinary

/-!
Reading back what was printed as text.
-/

namespace IpRange.Ipset

open Option List Text

variable {machine : Machine} {environment : Environment} {ips : Ipset}

section Masks

variable {addr : Addr} {length : Nat}

def Aligned (addr : Addr) (length : Nat) : Prop := addr.toNat % 2 ^ (32 - length) = 0

theorem toNat_hostmask (bound : length ≤ 32) :
    (~~~netmask length).toNat = 2 ^ (32 - length) - 1 := by
  rw [netmask]
  by_cases zero : length = 0
  · rw [if_pos zero, zero]
    decide
  · rw [if_neg zero, BitVec.not_not]
    have power : 2 ^ (32 - length) < 2 ^ 32 := Nat.pow_lt_pow_right (by decide) (by omega)
    have positive : 0 < 2 ^ (32 - length) := Nat.pow_pos (by decide)
    have shifted : (1#32 <<< (32 - length)).toNat = 2 ^ (32 - length) := by
      rw [BitVec.toNat_shiftLeft, Nat.shiftLeft_eq]
      simp only [BitVec.toNat_ofNat]
      omega
    rw [BitVec.toNat_sub, shifted]
    simp only [BitVec.toNat_ofNat]
    omega

theorem toNat_broadcast (bound : length ≤ 32) (aligned : Aligned addr length) :
    (broadcast addr length).toNat = addr.toNat + (2 ^ (32 - length) - 1) := by
  have split := Nat.div_add_mod addr.toNat (2 ^ (32 - length))
  rw [Aligned] at aligned
  rw [aligned, Nat.add_zero] at split
  rw [broadcast, BitVec.toNat_or, toNat_hostmask bound, ← split,
    Nat.two_pow_add_eq_or_of_lt (by omega)]

theorem network_aligned (bound : length ≤ 32) (aligned : Aligned addr length) :
    network addr length = addr := by
  have none_ : addr &&& ~~~netmask length = 0#32 := by
    apply BitVec.eq_of_toNat_eq
    rw [BitVec.toNat_and, toNat_hostmask bound, Nat.and_two_pow_sub_one_eq_mod]
    exact aligned
  apply BitVec.eq_of_getLsbD_eq
  intro bit inside
  have clear := congrArg (fun word => word.getLsbD bit) none_
  simp only [BitVec.getLsbD_and, BitVec.getLsbD_not, inside, decide_true, Bool.true_and,
    BitVec.getLsbD_zero] at clear
  rw [network, BitVec.getLsbD_and]
  cases set : addr.getLsbD bit
  · rfl
  · simpa [set] using clear

theorem two_pow_halves (bound : length < 32) : 2 ^ (32 - length) = 2 * 2 ^ (32 - (length + 1)) := by
  rw [show 32 - length = 32 - (length + 1) + 1 by omega, pow_succ, Nat.mul_comm]

section

variable (bound : length < 32) (aligned : Aligned addr length)

include bound aligned

theorem toNat_setBit : (setBit addr (length + 1)).toNat = addr.toNat + 2 ^ (32 - (length + 1)) := by
  have power := two_pow_halves bound
  have less : 2 ^ (32 - (length + 1)) < 2 ^ 32 := Nat.pow_lt_pow_right (by decide) (by omega)
  have split := Nat.div_add_mod addr.toNat (2 ^ (32 - length))
  rw [Aligned] at aligned
  rw [aligned, Nat.add_zero] at split
  have shifted : (1#32 <<< (32 - (length + 1))).toNat = 2 ^ (32 - (length + 1)) := by
    rw [BitVec.toNat_shiftLeft, Nat.shiftLeft_eq]
    simp only [BitVec.toNat_ofNat]
    omega
  rw [setBit, BitVec.toNat_or, shifted, ← split, Nat.two_pow_add_eq_or_of_lt (by omega)]

theorem Aligned.lower : Aligned addr (length + 1) := by
  rw [Aligned] at aligned ⊢
  have power := two_pow_halves bound
  have divides := Nat.dvd_of_mod_eq_zero aligned
  rw [power] at divides
  exact Nat.mod_eq_zero_of_dvd ((Nat.dvd_mul_left _ 2).trans divides)

theorem Aligned.upper : Aligned (setBit addr (length + 1)) (length + 1) := by
  have low := aligned.lower bound
  rw [Aligned] at low ⊢
  rw [toNat_setBit bound aligned, Nat.add_mod_right]
  exact low

end

end Masks

def networkInterval (network : Addr × Nat) : Interval :=
  { low := network.1.toNat, high := (broadcast network.1 network.2).toNat }

def Proper (network : Addr × Nat) : Prop := network.2 ≤ 32 ∧ Aligned network.1 network.2

theorem splitRange_spec {enabled : Nat → Bool} (last : enabled 32 = true) {turns length : Nat}
    {addr lo hi : Addr} (enough : 33 ≤ turns + length) (bound : length ≤ 32)
    (aligned : Aligned addr length) (first : addr.toNat ≤ lo.toNat) (order : lo.toNat ≤ hi.toNat)
    (inside : hi.toNat ≤ addr.toNat + (2 ^ (32 - length) - 1)) :
    (∀ network ∈ splitRange enabled turns addr length lo hi, Proper network) ∧
      covered ((splitRange enabled turns addr length lo hi).map networkInterval) =
        Set.Icc lo.toNat hi.toNat := by
  induction turns generalizing addr length lo hi with
  | zero => omega
  | succ turns ih =>
    have bc := toNat_broadcast bound aligned
    have positive : 0 < 2 ^ (32 - length) := Nat.pow_pos (by decide)
    unfold splitRange
    rw [if_neg (by rw [BitVec.lt_def]; omega)]
    dsimp only
    rw [if_neg (by omega), if_neg (by simp only [BitVec.lt_def]; omega)]
    split
    · next whole =>
        refine ⟨by simpa using ⟨bound, aligned⟩, ?_⟩
        obtain ⟨low, high, _⟩ := whole
        simp [networkInterval, Interval.members, low, high]
    · next notWhole =>
        have inner : length < 32 := by
          by_contra full
          have at32 : length = 32 := by omega
          subst at32
          apply notWhole
          have same : lo = addr := by
            apply BitVec.eq_of_toNat_eq
            simp at inside
            omega
          have same' : hi = broadcast addr 32 := by
            apply BitVec.eq_of_toNat_eq
            simp at inside bc
            omega
          exact ⟨same, same', last⟩
        have upper := toNat_setBit inner aligned
        have power := two_pow_halves inner
        have lowerBc := toNat_broadcast (show length + 1 ≤ 32 by omega) (aligned.lower inner)
        split
        · next below =>
            rw [BitVec.lt_def] at below
            exact ih (by omega) (by omega) (aligned.lower inner) first order (by omega)
        · next reaches =>
            rw [BitVec.lt_def] at reaches
            split
            · next above =>
                rw [BitVec.le_def] at above
                exact ih (by omega) (by omega) (aligned.upper inner) above order (by omega)
            · next starts =>
                rw [BitVec.le_def] at starts
                obtain ⟨proper1, covered1⟩ := @ih (length + 1) addr lo
                  (broadcast addr (length + 1)) (by omega) (by omega) (aligned.lower inner) first
                  (by omega) (by omega)
                obtain ⟨proper2, covered2⟩ := @ih (length + 1) (setBit addr (length + 1))
                  (setBit addr (length + 1)) hi (by omega) (by omega) (aligned.upper inner) le_rfl
                  (by omega) (by omega)
                constructor
                · intro network member
                  rcases mem_append.mp member with early | late
                  · exact proper1 network early
                  · exact proper2 network late
                · rw [map_append, covered_append, covered1, covered2]
                  ext address
                  simp only [Set.mem_union, Set.mem_Icc]
                  omega

theorem octet_lt (addr : Addr) (shift : Nat) : octet addr shift < 256 := by
  rw [octet, BitVec.toNat_and]
  exact Nat.lt_of_le_of_lt Nat.and_le_right (by decide)

theorem octetText_digits : ∀ octet < 256, octetText octet ≠ [] ∧ (octetText octet).length ≤ 3 ∧
    ∀ character ∈ octetText octet, isDigit character = true := by
  have checked : ∀ octet < 256, octetText octet ≠ [] ∧ (octetText octet).length ≤ 3 ∧
      (octetText octet).all isDigit = true := by
    decide +kernel
  intro octet bound
  obtain ⟨filled, short, digits⟩ := checked octet bound
  exact ⟨filled, short, all_eq_true.mp digits⟩

def isQuadChar (character : UInt8) : Bool := isDigit character || character == byte '.'

theorem ip2str_chars (addr : Addr) : ∀ character ∈ ip2str addr, isQuadChar character = true := by
  intro character member
  have digits (shift : Nat) (inside : character ∈ octetText (octet addr shift)) :
      isQuadChar character = true := by
    have digit := (octetText_digits _ (octet_lt addr shift)).2.2 character inside
    simp [isQuadChar, digit]
  have dot (inside : character ∈ [byte '.']) : isQuadChar character = true := by
    rw [mem_singleton.mp inside]
    decide
  simp only [ip2str, mem_append] at member
  rcases member with (((((h | h) | h) | h) | h) | h) | h
  · exact digits 24 h
  · exact dot h
  · exact digits 16 h
  · exact dot h
  · exact digits 8 h
  · exact dot h
  · exact digits 0 h

theorem ip2str_length (addr : Addr) : 0 < (ip2str addr).length ∧ (ip2str addr).length ≤ 15 := by
  have size (shift : Nat) := (octetText_digits _ (octet_lt addr shift)).2.1
  have h24 := size 24
  have h16 := size 16
  have h8 := size 8
  have h0 := size 0
  simp only [ip2str, length_append, length_singleton]
  omega

structure Token (token : Bytes) : Prop where
  chars : ∀ character ∈ token, isIpChar character = true
  some_ : token ≠ []
  short : token.length ≤ 40

theorem isIpChar_of_quad {character : UInt8} (quad : isQuadChar character = true) :
    isIpChar character = true := by
  simp only [isQuadChar, Bool.or_eq_true] at quad
  simp only [isIpChar, Bool.or_eq_true]
  exact Or.inl quad

theorem token_ip2str (addr : Addr) : Token (ip2str addr) where
  chars character member := isIpChar_of_quad (ip2str_chars addr character member)
  some_ empty := by
    have := (ip2str_length addr).1
    simp [empty] at this
  short := (ip2str_length addr).2.trans (by decide)

theorem token_network (addr : Addr) {length : Nat} (bound : length ≤ 32) :
    Token (ip2str addr ++ [slash] ++ decimal length) where
  chars := by
    intro character member
    rcases mem_append.mp member with early | digit
    · rcases mem_append.mp early with quad | mark
      · exact isIpChar_of_quad (ip2str_chars addr character quad)
      · rw [mem_singleton.mp mark]
        decide
    · simp [isIpChar, decimal_digits length character digit]
  some_ := by simp
  short := by
    have size := (ip2str_length addr).2
    have places : (decimal length).length ≤ 2 := decimal_length (by omega)
    simp only [length_append, length_singleton]
    omega

section Lines

variable {token token2 rest : Bytes}

theorem isIpChar_cases {character : UInt8} (inside : isIpChar character = true) :
    isSpace character = false ∧ character ≠ byte '#' ∧ character ≠ byte ';' ∧
      character ≠ byte '\r' ∧ character ≠ newline ∧ character ≠ 0 := by
  have range : 46 ≤ character.toNat ∧ character.toNat ≤ 57 := by
    simp only [isIpChar, Bool.or_eq_true, isDigit, decide_eq_true_eq, beq_iff_eq] at inside
    rcases inside with (digit | dot) | mark
    · omega
    · rw [dot]
      decide
    · rw [mark]
      decide
  have different (other : UInt8) (outside : other.toNat < 46) : character ≠ other := by
    rintro rfl
    omega
  refine ⟨?_, different _ (by decide), ?_, different _ (by decide), different _ (by decide),
    different _ (by decide)⟩
  · simp [isSpace, different (byte ' ') (by decide), different (byte '\t') (by decide)]
  · rintro rfl
    exact absurd range.2 (by decide)

theorem skipSpaces_token (found : Token token) : skipSpaces (token ++ rest) = token ++ rest := by
  cases token with
  | nil => exact absurd rfl found.some_
  | cons first token =>
    have outside := (isIpChar_cases (found.chars first (by simp))).1
    rw [skipSpaces, cons_append, dropWhile_cons_of_neg (by simp [outside])]

theorem not_done_token (found : Token token) :
    (atComment (token ++ rest) || atEnd (token ++ rest)) = false := by
  cases token with
  | nil => exact absurd rfl found.some_
  | cons first token =>
    obtain ⟨_, hash, semicolon, carriage, line, _⟩ := isIpChar_cases (found.chars first (by simp))
    simp [atComment, atEnd, hash, semicolon, carriage, line]

theorem takeElement_token (rest : Bytes) (found : Token token)
    (stop : ∀ character ∈ rest.head?, isIpChar character = false) :
    takeElement isIpChar (token ++ rest) = token := by
  rw [takeElement, takeWhile_token found.chars stop]
  exact take_of_length_le (found.short.trans (by decide))

theorem parseLine_token (found : Token token) : parseLine (token ++ [newline]) = .has1Ip token := by
  have taken := takeElement_token [newline] found (by
    simp only [head?_cons, mem_def, Option.some.injEq, forall_eq']
    decide)
  unfold parseLine
  dsimp only
  rw [skipSpaces_token found, not_done_token found]
  simp only [Bool.false_eq_true, if_false]
  rw [taken, if_neg found.some_, drop_left]
  rfl

theorem parseLine_tokens (found : Token token) (found2 : Token token2) :
    parseLine (token ++ [byte '-'] ++ token2 ++ [newline]) = .has2Ips token token2 := by
  have taken := takeElement_token (byte '-' :: (token2 ++ [newline])) found (by
    simp only [head?_cons, mem_def, Option.some.injEq, forall_eq']
    decide)
  have taken2 := takeElement_token [newline] found2 (by
    simp only [head?_cons, mem_def, Option.some.injEq, forall_eq']
    decide)
  have shape : token ++ [byte '-'] ++ token2 ++ [newline] =
      token ++ (byte '-' :: (token2 ++ [newline])) := by simp
  have dash : skipSpaces (byte '-' :: (token2 ++ [newline])) =
      byte '-' :: (token2 ++ [newline]) := by
    rw [skipSpaces, dropWhile_cons_of_neg (by decide)]
  have notDone : (atComment (byte '-' :: (token2 ++ [newline])) ||
      atEnd (byte '-' :: (token2 ++ [newline]))) = false := by
    simp [atComment, atEnd]
    decide
  unfold parseLine
  dsimp only
  rw [shape, skipSpaces_token found, not_done_token found]
  simp only [Bool.false_eq_true, if_false]
  rw [taken, if_neg found.some_, drop_left, dash, notDone]
  simp only [Bool.false_eq_true, if_false, head?_cons, ne_eq, not_true, drop_one,
    tail_cons]
  rw [skipSpaces_token found2, not_done_token found2]
  simp only [Bool.false_eq_true, if_false]
  rw [taken2, if_neg found2.some_, drop_left]
  rfl

end Lines

/-- The default options, and an `inet_aton` that reads dotted quads correctly. -/
structure ReadsQuads (environment : Environment) : Prop where
  inetAton : ∀ addr, environment.inetAton (ip2str addr) = some addr
  defaultPrefix : environment.defaultPrefix = 32
  cidrUseNetwork : environment.cidrUseNetwork = true

theorem quad_ne_slash {addr : Addr} : ∀ character ∈ ip2str addr, character ≠ slash := by
  rintro character member rfl
  exact absurd (ip2str_chars addr slash member) (by decide)

theorem aligned_32 (addr : Addr) : Aligned addr 32 := by
  simp [Aligned, Nat.mod_one]

theorem str2netaddr_ip2str (reads : ReadsQuads environment) (addr : Addr) :
    str2netaddr environment (ip2str addr) = some { low := addr.toNat, high := addr.toNat } := by
  have noSlash : (ip2str addr).contains slash = false := by
    simpa using fun member => quad_ne_slash slash member rfl
  have whole : (ip2str addr).takeWhile (· ≠ slash) = ip2str addr :=
    takeWhile_eq_self_iff.mpr fun character member => by simpa using quad_ne_slash character member
  have high := toNat_broadcast le_rfl (aligned_32 addr)
  rw [str2netaddr, netaddrPrefix, noSlash, whole, reads.inetAton, reads.defaultPrefix,
    reads.cidrUseNetwork]
  simp only [Bool.false_eq_true, if_false, bind_eq_bind, bind_some, if_true,
    network_aligned le_rfl (aligned_32 addr), high]
  rfl

theorem parsePrefix_decimal {length : Nat} (bound : length ≤ 32) :
    parsePrefix environment (decimal length) = some length := by
  have digits : (decimal length).takeWhile isDigit = decimal length :=
    takeWhile_eq_self_iff.mpr (decimal_digits length)
  have rest : (decimal length).dropWhile isDigit = [] :=
    dropWhile_eq_nil_iff.mpr (decimal_digits length)
  rw [parsePrefix]
  dsimp only
  rw [digits, rest, number_decimal, if_pos ⟨decimal_ne_nil length, rfl, bound⟩]

theorem str2netaddr_network (reads : ReadsQuads environment) {network : Addr × Nat}
    (proper : Proper network) :
    str2netaddr environment (ip2str network.1 ++ [slash] ++ decimal network.2) =
      some (networkInterval network) := by
  obtain ⟨bound, aligned⟩ := proper
  have shape : ip2str network.1 ++ [slash] ++ decimal network.2 =
      ip2str network.1 ++ (slash :: decimal network.2) := by simp
  have hasSlash : (ip2str network.1 ++ (slash :: decimal network.2)).contains slash = true := by
    simp
  have outside : ∀ character ∈ ip2str network.1, decide (character ≠ slash) = true :=
    fun character member => by simpa using quad_ne_slash character member
  have stop : ∀ character ∈ (slash :: decimal network.2).head?, decide (character ≠ slash) = false := by
    simp
  have taken := takeWhile_token outside stop
  have dropped := dropWhile_token outside stop
  rw [str2netaddr, netaddrPrefix, shape, hasSlash, taken, dropped, reads.inetAton,
    reads.cidrUseNetwork]
  simp only [if_true, drop_one, tail_cons, parsePrefix_decimal bound,
    bind_eq_bind, bind_some, network_aligned bound aligned]
  rfl

section Printing

/-- A line without its end that adds one range when it is loaded. -/
structure Reads (environment : Environment) (machine : Machine) (body : Bytes)
    (range : Interval) : Prop where
  clean : Clean body
  short : body.length < maxLine
  first : ∃ character rest, body = character :: rest ∧ isIpChar character = true
  proper : range.low ≤ range.high
  bounded : range.high ≤ addrMax
  loads : ∀ loading : Loading, loadLine environment machine loading (body ++ [newline]) =
    some { loading with ips := loading.ips.addIpRange machine range.low range.high }

def Prints (environment : Environment) (machine : Machine) (text : Bytes) (addresses : Set Nat) :
    Prop :=
  ∃ lines : List (Bytes × Interval),
    text = lines.flatMap (fun line => line.1 ++ [newline]) ∧
      (∀ line ∈ lines, Reads environment machine line.1 line.2) ∧
      covered (lines.map Prod.snd) = addresses

variable {text text2 : Bytes} {addresses addresses2 : Set Nat}

theorem Prints.nil : Prints environment machine [] ∅ := ⟨[], rfl, by simp, by simp⟩

variable {range : Interval} {token : Bytes}

theorem Prints.line {body : Bytes} (reads : Reads environment machine body range) :
    Prints environment machine (body ++ [newline]) range.members :=
  ⟨[(body, range)], by simp, by simpa using reads, by simp⟩

theorem Prints.append (prints : Prints environment machine text addresses)
    (prints2 : Prints environment machine text2 addresses2) :
    Prints environment machine (text ++ text2) (addresses ∪ addresses2) := by
  obtain ⟨lines, rfl, reads, rfl⟩ := prints
  obtain ⟨lines2, rfl, reads2, rfl⟩ := prints2
  refine ⟨lines ++ lines2, by simp, ?_, by simp⟩
  intro line member
  rcases mem_append.mp member with early | late
  · exact reads line early
  · exact reads2 line late

theorem Prints.flatMap {α : Type} {values : List α} {print : α → Bytes} {range : α → Interval}
    (prints : ∀ value ∈ values, Prints environment machine (print value) (range value).members) :
    Prints environment machine (values.flatMap print) (covered (values.map range)) := by
  induction values with
  | nil => simpa using Prints.nil
  | cons value values ih =>
    rw [flatMap_cons, map_cons, covered_cons]
    exact (prints value (by simp)).append
      (ih fun other member => prints other (mem_cons_of_mem _ member))

theorem Prints.entries {entries : List Interval} {print : Interval → Bytes}
    (prints : ∀ entry ∈ entries, Prints environment machine (print entry) entry.members) :
    Prints environment machine (entries.flatMap print) (covered entries) := by
  have joined : Prints environment machine (entries.flatMap print) (covered (entries.map id)) :=
    Prints.flatMap prints
  rwa [List.map_id] at joined

theorem clean_token (found : Token token) : Clean token := by
  intro character member
  obtain ⟨_, _, _, _, line, zero⟩ := isIpChar_cases (found.chars character member)
  exact ⟨line, zero⟩

theorem first_token (found : Token token) (rest : Bytes) :
    ∃ character others, token ++ rest = character :: others ∧ isIpChar character = true := by
  cases token with
  | nil => exact absurd rfl found.some_
  | cons character token => exact ⟨character, token ++ rest, rfl, found.chars character (by simp)⟩

theorem reads_token (found : Token token) (read : str2netaddr environment token = some range) :
    Reads environment machine token range := by
  obtain ⟨proper, bounded⟩ := str2netaddr_proper read
  have first := first_token found []
  rw [append_nil] at first
  refine ⟨clean_token found, Nat.lt_of_le_of_lt found.short (by decide), first, proper, bounded, ?_⟩
  intro loading
  rw [loadLine, (fgets_clean [] (clean_token found) (Nat.lt_of_le_of_lt found.short (by decide))).2]
  dsimp only
  rw [parseLine_token found]
  dsimp only
  rw [addIpstr, read]
  rfl

theorem reads_tokens (reads : ReadsQuads environment) (lo hi : Addr) (order : lo.toNat ≤ hi.toNat) :
    Reads environment machine (ip2str lo ++ [byte '-'] ++ ip2str hi)
      { low := lo.toNat, high := hi.toNat } := by
  have clean : Clean (ip2str lo ++ [byte '-'] ++ ip2str hi) :=
    ((clean_token (token_ip2str lo)).append (by decide)).append (clean_token (token_ip2str hi))
  have short : (ip2str lo ++ [byte '-'] ++ ip2str hi).length < maxLine := by
    have := (ip2str_length lo).2
    have := (ip2str_length hi).2
    simp only [length_append, length_singleton, maxLine]
    omega
  have first := first_token (token_ip2str lo) ([byte '-'] ++ ip2str hi)
  rw [← append_assoc] at first
  refine ⟨clean, short, first, order, addr_le hi, ?_⟩
  intro loading
  rw [loadLine, (fgets_clean [] clean short).2]
  dsimp only
  rw [parseLine_tokens (token_ip2str lo) (token_ip2str hi)]
  dsimp only
  rw [str2netaddr_ip2str reads, str2netaddr_ip2str reads]
  simp only [bind_eq_bind, bind_some, Option.pure_def, min_eq_left order,
    max_eq_right order]

theorem foldlM_reads (exact_ : machine.Exact) {lines : List (Bytes × Interval)}
    (reads : ∀ line ∈ lines, Reads environment machine line.1 line.2) (loading : Loading)
    (kept : Kept loading.ips addresses) :
    ∃ loaded, (lines.map fun line => line.1 ++ [newline]).foldlM (loadLine environment machine)
        loading = some { loading with ips := loaded } ∧
      Kept loaded (addresses ∪ covered (lines.map Prod.snd)) := by
  induction lines generalizing loading addresses with
  | nil => exact ⟨loading.ips, rfl, by simpa using kept⟩
  | cons line lines ih =>
    have first := reads line (by simp)
    obtain ⟨loaded, turns, same⟩ := ih
      (fun other member => reads other (mem_cons_of_mem _ member))
      { loading with ips := loading.ips.addIpRange machine line.2.low line.2.high }
      (kept.add exact_ first.proper first.bounded)
    refine ⟨loaded, ?_, ?_⟩
    · rw [map_cons, foldlM_cons, first.loads loading]
      exact turns
    · rw [map_cons, covered_cons, ← Set.union_assoc]
      exact same

theorem body_ne_header {body header : Bytes} {start : UInt8}
    (reads : Reads environment machine body range) (shape : header.head? = some start)
    (outside : isIpChar start = false) : body ++ [newline] ≠ header := by
  rintro rfl
  obtain ⟨character, rest, rfl, inside⟩ := reads.first
  cases shape
  rw [inside] at outside
  cases outside

theorem Prints.load (exact_ : machine.Exact) (prints : Prints environment machine text addresses) :
    ∃ loaded, load environment machine text = some loaded ∧ loaded.addresses = addresses := by
  obtain ⟨lines, rfl, reads, rfl⟩ := prints
  cases lines with
  | nil => exact ⟨opened, rfl, by simp [canonical_opened.same]⟩
  | cons line lines =>
    have first := reads line (by simp)
    have kept : Kept opened ∅ :=
      ⟨canonical_opened.counted.ranges, canonical_opened.same, fun _ => canonical_opened.counted⟩
    obtain ⟨loaded, turns, same⟩ := foldlM_reads exact_ reads
      { ips := opened, parseErrors := false, requests := [] } kept
    have others : Text.lines maxLine (lines.flatMap fun line => line.1 ++ [newline]) =
        lines.map fun line => line.1 ++ [newline] := by
      have short : ∀ body ∈ lines.map Prod.fst, body.length < maxLine := by
        intro body member
        obtain ⟨line, inside, rfl⟩ := mem_map.mp member
        exact (reads line (mem_cons_of_mem _ inside)).short
      have plain : ∀ body ∈ lines.map Prod.fst, ∀ character ∈ body, character ≠ newline := by
        intro body member character inside
        obtain ⟨line, listed, rfl⟩ := mem_map.mp member
        exact ((reads line (mem_cons_of_mem _ listed)).clean character inside).1
      simpa [flatMap_map, Function.comp_def] using lines_of_bodies short plain
    obtain ⟨read, whole⟩ := fgets_clean
      (lines.flatMap fun line => line.1 ++ [newline]) first.clean first.short
    refine ⟨loaded, ?_, by simpa using same.same⟩
    rw [Ipset.load, flatMap_cons, append_assoc, singleton_append, read]
    dsimp only
    rw [whole, if_neg (body_ne_header first rfl (by decide)),
      if_neg (body_ne_header first rfl (by decide)), others]
    rw [map_cons] at turns
    rw [turns]
    rfl

theorem prints_singles (reads : ReadsQuads environment) {turns : Nat} {start stop : Addr} (x : Addr)
    (enough : stop.toNat + 2 ≤ turns + x.toNat) (begun : start.toNat ≤ x.toNat)
    (inside : x.toNat ≤ stop.toNat) (proper : 0 < start.toNat ∨ stop.toNat < addrMax) :
    Prints environment machine (singlesLoop turns start stop x)
      (Set.Icc x.toNat stop.toNat) := by
  induction turns generalizing x with
  | zero => omega
  | succ turns ih =>
    have line : Prints environment machine (printAddrSingle x) (Set.Icc x.toNat x.toNat) :=
      Prints.line (reads_token (token_ip2str x) (str2netaddr_ip2str reads x))
    rw [singlesLoop, if_pos ⟨by rw [BitVec.le_def]; exact begun, by rw [BitVec.le_def]; exact inside⟩]
    have next : (x + 1).toNat = (x.toNat + 1) % 2 ^ 32 := by
      rw [BitVec.toNat_add]
      rfl
    by_cases more : x.toNat < stop.toNat
    · have step : (x + 1).toNat = x.toNat + 1 := by omega
      have rest := ih (x + 1) (by omega) (by omega) (by omega)
      have joined := line.append rest
      rw [step] at joined
      convert joined using 1
      ext address
      simp only [Set.mem_Icc, Set.mem_union]
      omega
    · -- after the last address the counter is past the end, or wrapped below the start
      have stopped : singlesLoop turns start stop (x + 1) = [] := by
        cases turns with
        | zero => rfl
        | succ turns =>
          rw [singlesLoop, if_neg]
          rw [BitVec.le_def, BitVec.le_def]
          rw [addrMax] at proper
          omega
      rw [stopped, append_nil]
      have last : stop.toNat = x.toNat := by omega
      rw [last]
      exact line

theorem toNat_address {number : Nat} (bound : number ≤ addrMax) :
    (BitVec.ofNat 32 number).toNat = number := by
  rw [addrMax] at bound
  rw [BitVec.toNat_ofNat]
  omega

section

variable (reads : ReadsQuads environment)

include reads

theorem prints_network {network : Addr × Nat} (proper : Proper network) :
    Prints environment machine (printAddr network.1 network.2) (networkInterval network).members := by
  rw [printAddr]
  split
  · exact Prints.line (reads_token (token_network network.1 proper.1) (str2netaddr_network reads proper))
  · next long =>
      -- a prefix of 32 is not printed, and the default length stands for it
      have last : network.2 = 32 := by
        have := proper.1
        omega
      have single : networkInterval network =
          { low := network.1.toNat, high := network.1.toNat } := by
        have high := toNat_broadcast le_rfl (aligned_32 network.1)
        rw [networkInterval, last, high]
        rfl
      rw [single]
      exact Prints.line (reads_token (token_ip2str network.1) (str2netaddr_ip2str reads network.1))

variable {entry : Interval}

theorem prints_cidr {enabled : Nat → Bool}
    (last : enabled 32 = true) (proper : entry.low ≤ entry.high) (bound : entry.high ≤ addrMax) :
    Prints environment machine
      ((splitRange enabled splitTurns 0 0 (BitVec.ofNat 32 entry.low)
        (BitVec.ofNat 32 entry.high)).flatMap fun network => printAddr network.1 network.2)
      entry.members := by
  have low := toNat_address (proper.trans bound)
  have high := toNat_address bound
  have inside : (BitVec.ofNat 32 entry.high).toNat ≤ (0 : Addr).toNat + (2 ^ (32 - 0) - 1) := by
    rw [high]
    simpa [addrMax] using bound
  obtain ⟨networks, same⟩ := @splitRange_spec enabled last splitTurns 0 0 _ _ (by decide)
    (by decide) (by simp [Aligned]) (Nat.zero_le (BitVec.ofNat 32 entry.low).toNat) (by omega) inside
  rw [low, high] at same
  rw [Interval.members, ← same]
  exact Prints.flatMap fun network member => prints_network reads (networks network member)

theorem prints_range (proper : entry.low ≤ entry.high) (bound : entry.high ≤ addrMax) :
    Prints environment machine
      (printAddrRange (BitVec.ofNat 32 entry.low) (BitVec.ofNat 32 entry.high)) entry.members := by
  have low := toNat_address (proper.trans bound)
  have high := toNat_address bound
  have line : Reads environment machine _ _ :=
    reads_tokens reads (BitVec.ofNat 32 entry.low) (BitVec.ofNat 32 entry.high) (by omega)
  rw [low, high] at line
  rw [printAddrRange, if_neg (by rw [BitVec.lt_def]; omega)]
  exact Prints.line line

theorem prints_single_ips (proper : entry.low ≤ entry.high)
    (bound : entry.high ≤ addrMax) (small : entry.size ≤ 2 ^ 24 + 1) :
    Prints environment machine
      (printSingles (BitVec.ofNat 32 entry.low) (BitVec.ofNat 32 entry.high)) entry.members := by
  have low := toNat_address (proper.trans bound)
  have high := toNat_address bound
  have width : (BitVec.ofNat 32 entry.high - BitVec.ofNat 32 entry.low).toNat =
      entry.high - entry.low := by
    rw [BitVec.toNat_sub, low, high]
    rw [addrMax] at bound
    omega
  rw [Interval.size] at small
  rw [printSingles, if_neg (by rw [BitVec.lt_def]; omega)]
  dsimp only
  rw [width, if_neg (by omega)]
  have printed : Prints environment machine
      (singlesLoop (entry.high - entry.low + 2) (BitVec.ofNat 32 entry.low)
        (BitVec.ofNat 32 entry.high) (BitVec.ofNat 32 entry.low)) _ :=
    prints_singles reads _ (by omega) le_rfl (by omega) (by rw [addrMax]; omega)
  rw [low, high] at printed
  exact printed

end

theorem optimize_netaddrs (exact_ : machine.Exact) (apart : Apart 1 ips.netaddrs)
    (bounded : Bounded ips.netaddrs) : (ips.optimize machine).netaddrs = ips.netaddrs := by
  cases flag : ips.optimized with
  | true => rw [optimize_of_flag flag]
  | false =>
    obtain ⟨counted, same, _⟩ := optimize_spec exact_ ⟨apart.proper, bounded⟩
      (fun raised => by simp [flag] at raised)
    exact counted.apart.unique apart same

/-- A canonical set printed as text, in any of the three ways, loads with the same
addresses. -/
theorem printed_text_loads (exact_ : machine.Exact) (reads : ReadsQuads environment)
    {enabled : Nat → Bool} (last : enabled 32 = true) (apart : Apart 1 ips.netaddrs)
    (bounded : Bounded ips.netaddrs) {cmd : PrintCmd} (text : cmd ≠ .binary)
    (small : cmd = .singleIps → ∀ entry ∈ ips.netaddrs, entry.size ≤ 2 ^ 24 + 1) :
    ∃ loaded, load environment machine (ips.print machine enabled cmd) = some loaded ∧
      loaded.addresses = ips.addresses := by
  refine Prints.load exact_ ?_
  unfold print
  dsimp only
  rw [optimize_netaddrs exact_ apart bounded, addresses]
  cases cmd with
  | cidr =>
    exact Prints.entries fun entry member =>
      prints_cidr reads last (apart.proper entry member) (bounded entry member)
  | singleIps =>
    exact Prints.entries fun entry member =>
      prints_single_ips reads (apart.proper entry member) (bounded entry member)
        (small rfl entry member)
  | range =>
    exact Prints.entries fun entry member =>
      prints_range reads (apart.proper entry member) (bounded entry member)
  | binary => exact absurd rfl text

end Printing

theorem number_octetText : ∀ octet < 256, number (octetText octet) = octet := by
  decide +kernel

theorem readOctet_written {value : Nat} (small : value < 256) {rest : Bytes}
    (stop : ∀ character ∈ rest.head?, isDigit character = false) :
    readOctet (octetText value ++ rest) = some (value, rest) := by
  obtain ⟨some_, _, digits⟩ := octetText_digits value small
  rw [readOctet, takeWhile_token digits stop, dropWhile_token digits stop, number_octetText value small,
    if_neg (by simp only [some_, false_or]; omega)]

theorem toNat_octet (addr : Addr) (shift : Nat) :
    octet addr shift = addr.toNat / 2 ^ shift % 256 := by
  rw [octet, BitVec.toNat_and, BitVec.toNat_ushiftRight, Nat.shiftRight_eq_div_pow]
  exact Nat.and_two_pow_sub_one_eq_mod _ 8

theorem dottedQuad_ip2str (addr : Addr) : dottedQuad (ip2str addr) = some addr := by
  have dot (rest : Bytes) : ∀ character ∈ (byte '.' :: rest).head?, isDigit character = false := by
    simp only [head?_cons, mem_def, Option.some.injEq, forall_eq']
    decide
  have readDot_dot (rest : Bytes) : readDot (byte '.' :: rest) = some rest := by
    simp [readDot]
  have shape : ip2str addr = octetText (octet addr 24) ++ (byte '.' ::
      (octetText (octet addr 16) ++ (byte '.' :: (octetText (octet addr 8) ++ (byte '.' ::
        (octetText (octet addr 0) ++ [])))))) := by
    simp [ip2str]
  rw [dottedQuad, shape, readOctet_written (octet_lt addr 24) (dot _)]
  simp only [bind_eq_bind, bind_some]
  rw [readDot_dot, bind_some, readOctet_written (octet_lt addr 16) (dot _)]
  simp only [bind_some]
  rw [readDot_dot, bind_some, readOctet_written (octet_lt addr 8) (dot _)]
  simp only [bind_some]
  rw [readDot_dot, bind_some, readOctet_written (octet_lt addr 0) (by simp)]
  simp only [bind_some, ne_eq, not_true, if_false]
  congr 1
  apply BitVec.eq_of_toNat_eq
  have bound := addr.isLt
  rw [BitVec.toNat_ofNat, toNat_octet, toNat_octet, toNat_octet, toNat_octet]
  omega

theorem readsQuads_quadEnvironment : ReadsQuads quadEnvironment :=
  ⟨dottedQuad_ip2str, rfl, rfl⟩

theorem printed_text_loads_edges :
    ∃ loaded,
      load quadEnvironment (.wrapping (2 ^ 64 - 1) false)
          (print (.wrapping (2 ^ 64 - 1) false) (fun _ => true)
            { lines := 2, netaddrs := [{ low := 0, high := 6 }, { low := 8, high := 4294967295 }],
              uniqueIps := 4294967295, optimized := true } .cidr) = some loaded ∧
        loaded.addresses = addresses
          { lines := 2, netaddrs := [{ low := 0, high := 6 }, { low := 8, high := 4294967295 }],
            uniqueIps := 4294967295, optimized := true } :=
  printed_text_loads (Machine.exact_wrapping (2 ^ 64 - 1) false) readsQuads_quadEnvironment rfl
    (by decide) (by simp [Bounded, addrMax]) (by decide) (by decide)

end IpRange.Ipset
