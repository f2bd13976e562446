import Mathlib.Data.List.Basic
import Mathlib.Data.List.TakeWhile
import Mathlib.Tactic.Ring

/-!
Byte streams as a C program reads and writes them: decimal numbers, strings that end at
a zero byte, and lines of bounded length.
-/

namespace IpRange.Text

open List

def byte (character : Char) : UInt8 := UInt8.ofNat character.toNat

def ascii (text : String) : List UInt8 := text.toList.map byte

def newline : UInt8 := byte '\n'

def isDigit (character : UInt8) : Bool := decide (48 ≤ character.toNat ∧ character.toNat ≤ 57)

def digit (value : Nat) : UInt8 := UInt8.ofNat (48 + value)

def decimalLoop : Nat → Nat → List UInt8 → List UInt8
  | 0, _, written => written
  | turns + 1, value, written =>
    let written := digit (value % 10) :: written
    if value / 10 = 0 then written else decimalLoop turns (value / 10) written

def decimal (value : Nat) : List UInt8 := decimalLoop (value + 1) value []

def number (digits : List UInt8) : Nat :=
  digits.foldl (fun value character => 10 * value + (character.toNat - 48)) 0

def cString (bytes : List UInt8) : List UInt8 := bytes.takeWhile (· ≠ 0)

def takeLine : Nat → List UInt8 → List UInt8 × List UInt8
  | limit + 1, character :: stream =>
    if character = newline then ([character], stream)
    else ((character :: (takeLine limit stream).1), (takeLine limit stream).2)
  | _, stream => ([], stream)

/-- `fgets`: at most `limit` bytes, none after a newline; nothing at the end of the stream. -/
def fgets (limit : Nat) (stream : List UInt8) : Option (List UInt8 × List UInt8) :=
  if stream = [] then none else some (takeLine limit stream)

def linesLoop (limit : Nat) : Nat → List UInt8 → List (List UInt8)
  | 0, _ => []
  | turns + 1, stream =>
    match fgets limit stream with
    | none => []
    | some (line, stream) => line :: linesLoop limit turns stream

def lines (limit : Nat) (stream : List UInt8) : List (List UInt8) :=
  linesLoop limit stream.length stream

/-- A line of a stream that goes on behind it: up to its first newline, or as much as the
buffer takes. -/
def IsLine (limit : Nat) (line : List UInt8) : Prop :=
  (∃ body, line = body ++ [newline] ∧ newline ∉ body ∧ line.length ≤ limit) ∨
    newline ∉ line ∧ line.length = limit

section Decimal

variable {value : Nat}

theorem digit_toNat (small : value < 10) : (digit value).toNat = 48 + value := by
  simp only [digit, UInt8.toNat_ofNat']
  omega

theorem isDigit_digit (small : value < 10) : isDigit (digit value) = true := by
  simp only [isDigit, digit_toNat small, decide_eq_true_eq]
  omega

theorem decimalLoop_append (turns value : Nat) (written : List UInt8) :
    decimalLoop turns value written = decimalLoop turns value [] ++ written := by
  induction turns generalizing value written with
  | zero => rfl
  | succ turns ih =>
    simp only [decimalLoop]
    split
    · rfl
    · rw [ih, ih _ [_], append_assoc]
      rfl

theorem decimalLoop_turns {turns others : Nat} (enough : value < turns) (also_ : value < others) :
    decimalLoop turns value [] = decimalLoop others value [] := by
  induction turns generalizing others value with
  | zero => omega
  | succ turns ih =>
    cases others with
    | zero => omega
    | succ others =>
      simp only [decimalLoop]
      split
      · rfl
      · have same : decimalLoop turns (value / 10) [] = decimalLoop others (value / 10) [] :=
          ih (by omega) (by omega)
        rw [decimalLoop_append, decimalLoop_append others, same]

theorem decimal_eq (value : Nat) :
    decimal value =
      if value < 10 then [digit value] else decimal (value / 10) ++ [digit (value % 10)] := by
  conv_lhs => rw [decimal, decimalLoop]
  by_cases small : value < 10
  · rw [if_pos (by omega), if_pos small, Nat.mod_eq_of_lt small]
  · rw [if_neg (by omega), if_neg small, decimalLoop_append, decimal,
      decimalLoop_turns (by omega) (Nat.lt_succ_self _)]

theorem number_append (digits : List UInt8) (last : UInt8) :
    number (digits ++ [last]) = 10 * number digits + (last.toNat - 48) := by
  simp [number]

theorem number_decimal (value : Nat) : number (decimal value) = value := by
  induction value using Nat.strong_induction_on with
  | _ value ih =>
    rw [decimal_eq]
    split
    · next small => simp [number, digit_toNat small]
    · next large =>
        rw [number_append, ih (value / 10) (by omega), digit_toNat (Nat.mod_lt _ (by decide))]
        omega

theorem decimal_digits (value : Nat) : ∀ character ∈ decimal value, isDigit character = true := by
  induction value using Nat.strong_induction_on with
  | _ value ih =>
    rw [decimal_eq]
    split
    · next small =>
        intro character member
        rw [mem_singleton.mp member]
        exact isDigit_digit small
    · next large =>
        intro character member
        rcases mem_append.mp member with early | last
        · exact ih (value / 10) (by omega) character early
        · rw [mem_singleton.mp last]
          exact isDigit_digit (Nat.mod_lt _ (by decide))

theorem decimal_ne_nil (value : Nat) : decimal value ≠ [] := by
  rw [decimal_eq]
  split <;> simp

theorem decimal_length {places : Nat} (small : value < 10 ^ (places + 1)) :
    (decimal value).length ≤ places + 1 := by
  induction places generalizing value with
  | zero =>
    rw [decimal_eq, if_pos (by simpa using small)]
    simp
  | succ places ih =>
    rw [decimal_eq]
    split
    · simp
    · have shorter : (decimal (value / 10)).length ≤ places + 1 := by
        apply ih
        rw [Nat.div_lt_iff_lt_mul (by decide), ← pow_succ]
        exact small
      simp only [length_append, length_singleton]
      omega

end Decimal

section Streams

variable {predicate : UInt8 → Bool} {token rest body stream : List UInt8} {limit : Nat}

section

variable (inside : ∀ character ∈ token, predicate character = true)
  (stop : ∀ character ∈ rest.head?, predicate character = false)

include inside stop

theorem takeWhile_token : (token ++ rest).takeWhile predicate = token := by
  rw [takeWhile_append_of_pos inside]
  cases rest with
  | nil => simp
  | cons character rest =>
    rw [takeWhile_cons_of_neg (by simp [stop character (by simp)]), append_nil]

theorem dropWhile_token : (token ++ rest).dropWhile predicate = rest := by
  rw [dropWhile_append_of_pos inside]
  cases rest with
  | nil => rfl
  | cons character rest => rw [dropWhile_cons_of_neg (by simp [stop character (by simp)])]

end

theorem cString_clean (clean : ∀ character ∈ body, character ≠ 0) : cString body = body :=
  takeWhile_eq_self_iff.mpr fun character member => by simpa using clean character member

theorem takeLine_line (short : body.length < limit) (plain : ∀ character ∈ body, character ≠ newline) :
    takeLine limit (body ++ newline :: stream) = (body ++ [newline], stream) := by
  induction body generalizing limit with
  | nil =>
    cases limit with
    | zero => simp at short
    | succ limit => simp [takeLine]
  | cons character body ih =>
    cases limit with
    | zero => simp at short
    | succ limit =>
      simp only [length_cons] at short
      rw [cons_append, takeLine, if_neg (plain character (by simp)),
        ih (by omega) fun other member => plain other (by simp [member])]
      rfl

theorem takeLine_whole {others : Nat} (fits : stream.length ≤ others)
    (short : (takeLine others stream).1.length ≤ limit) :
    takeLine limit stream = takeLine others stream := by
  induction stream generalizing limit others with
  | nil => cases limit <;> cases others <;> rfl
  | cons character stream ih =>
    cases others with
    | zero => simp at fits
    | succ others =>
      cases limit with
      | zero =>
        rw [takeLine] at short
        split at short <;> simp at short
      | succ limit =>
        rw [takeLine] at short ⊢
        rw [takeLine]
        split at short
        · next ends => rw [if_pos ends, if_pos ends]
        · next more =>
            rw [if_neg more, if_neg more, ih (Nat.le_of_succ_le_succ fits)
              (Nat.le_of_succ_le_succ short)]

theorem takeLine_spec (limit : Nat) (stream : List UInt8) :
    stream = (takeLine limit stream).1 ++ (takeLine limit stream).2 ∧
      ∀ front back, (takeLine limit stream).1 = front ++ newline :: back → back = [] := by
  induction limit generalizing stream with
  | zero => simp [takeLine]
  | succ limit ih =>
    cases stream with
    | nil => simp [takeLine]
    | cons character stream =>
      obtain ⟨whole, last⟩ := ih stream
      rw [takeLine]
      split
      · refine ⟨rfl, fun front back same => ?_⟩
        cases front with
        | nil => exact (List.cons.inj same).2.symm
        | cons first front => simp at same
      · next other =>
          refine ⟨congrArg (character :: ·) whole, fun front back same => ?_⟩
          cases front with
          | nil => exact absurd (List.cons.inj same).1 other
          | cons first front => exact last front back (List.cons.inj same).2

theorem takeLine_isLine (more : (takeLine limit stream).2 ≠ []) :
    IsLine limit (takeLine limit stream).1 := by
  induction stream generalizing limit with
  | nil => cases limit <;> exact absurd rfl more
  | cons character stream ih =>
    cases limit with
    | zero => exact Or.inr ⟨not_mem_nil, rfl⟩
    | succ limit =>
      rw [takeLine] at more ⊢
      split at more
      · next ends => exact Or.inl ⟨[], by simp [ends], not_mem_nil, by simp [ends]⟩
      · next other =>
          rw [if_neg other]
          rcases ih more with ⟨body, same, plain, short⟩ | ⟨plain, full⟩
          · refine Or.inl ⟨character :: body, by rw [same, cons_append], ?_,
              Nat.succ_le_succ short⟩
            exact not_mem_cons_of_ne_of_not_mem (Ne.symm other) plain
          · exact Or.inr ⟨not_mem_cons_of_ne_of_not_mem (Ne.symm other) plain, congrArg (· + 1) full⟩

theorem takeLine_shorter (limit : Nat) (character : UInt8) (stream : List UInt8) :
    (takeLine (limit + 1) (character :: stream)).2.length ≤ stream.length := by
  have whole := congrArg length (takeLine_spec limit stream).1
  rw [length_append] at whole
  rw [takeLine]
  split
  · exact le_rfl
  · exact Nat.le_of_add_left_le whole.ge

theorem linesLoop_turns {turns others : Nat} (enough : stream.length ≤ turns)
    (also_ : stream.length ≤ others) :
    linesLoop (limit + 1) turns stream = linesLoop (limit + 1) others stream := by
  induction turns generalizing stream others with
  | zero =>
    rw [length_eq_zero_iff.mp (Nat.le_zero.mp enough)]
    cases others <;> rfl
  | succ turns ih =>
    cases stream with
    | nil => cases others <;> rfl
    | cons character stream =>
      cases others with
      | zero => simp at also_
      | succ others =>
        have fewer := takeLine_shorter limit character stream
        exact congrArg _ (ih (fewer.trans (Nat.le_of_succ_le_succ enough))
          (fewer.trans (Nat.le_of_succ_le_succ also_)))

theorem linesLoop_whole {others turns : Nat} (fits : stream.length ≤ others)
    (short : ∀ line ∈ linesLoop others turns stream, line.length ≤ limit) :
    linesLoop limit turns stream = linesLoop others turns stream := by
  induction turns generalizing stream with
  | zero => rfl
  | succ turns ih =>
    by_cases empty : stream = []
    · rw [empty]
      rfl
    · simp only [linesLoop, fgets, if_neg empty] at short ⊢
      have shorter := congrArg length (takeLine_spec others stream).1
      rw [length_append] at shorter
      rw [takeLine_whole fits (short _ mem_cons_self),
        ih (by omega) fun line member => short line (mem_cons_of_mem _ member)]

theorem lines_eq (positive : 0 < limit) (some_ : stream ≠ []) :
    lines limit stream = (takeLine limit stream).1 :: lines limit (takeLine limit stream).2 := by
  cases limit with
  | zero => cases positive
  | succ limit =>
    cases stream with
    | nil => exact absurd rfl some_
    | cons character stream =>
      exact congrArg _ (linesLoop_turns (takeLine_shorter limit character stream) le_rfl)

theorem fgets_spec {stream line rest : List UInt8} (read : fgets limit stream = some (line, rest)) :
    stream = line ++ rest ∧ (rest ≠ [] → IsLine limit line) ∧
      ∀ front back, cString line = front ++ newline :: back →
        back = [] ∧ line = front ++ [newline] := by
  unfold fgets at read
  split at read
  · cases read
  · obtain ⟨whole, last⟩ := takeLine_spec limit stream
    have isLine : (takeLine limit stream).2 ≠ [] → IsLine limit (takeLine limit stream).1 :=
      takeLine_isLine
    rw [Option.some.inj read] at whole last isLine
    refine ⟨whole, isLine, fun front back same => ?_⟩
    have split : line = front ++ newline :: (back ++ line.dropWhile (· ≠ 0)) := by
      rw [← cons_append, ← append_assoc, ← same, cString, takeWhile_append_dropWhile]
    have none := last front _ split
    rw [none] at split
    exact ⟨(append_eq_nil_iff.mp none).1, split⟩

theorem fgets_line (short : body.length < limit) (plain : ∀ character ∈ body, character ≠ newline) :
    fgets limit (body ++ newline :: stream) = some (body ++ [newline], stream) := by
  rw [fgets, if_neg (by simp), takeLine_line short plain]

theorem lines_of_bodies {bodies : List (List UInt8)} (short : ∀ body ∈ bodies, body.length < limit)
    (plain : ∀ body ∈ bodies, ∀ character ∈ body, character ≠ newline) :
    lines limit (bodies.flatMap fun body => body ++ [newline]) =
      bodies.map fun body => body ++ [newline] := by
  induction bodies with
  | nil => rfl
  | cons body bodies ih =>
    have first := short body (by simp)
    rw [flatMap_cons, append_assoc, singleton_append, lines_eq (by omega) (by simp),
      takeLine_line first (plain body (by simp)), map_cons,
      ih (fun other member => short other (by simp [member]))
        (fun other member => plain other (by simp [member]))]

end Streams

end IpRange.Text
