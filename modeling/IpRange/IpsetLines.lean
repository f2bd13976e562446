import IpRange.IpsetDiff

/-!
The lines of a text file. The loader reads them through a buffer, and takes what did not fit
for a line of its own.
-/

namespace IpRange.Ipset

open Text List

variable (environment : Environment) (machine : Machine)

/-- The lines of a file as a buffer that has room for all of it gives them. -/
def wholeLines (file : Bytes) : List Bytes := Text.lines file.length file

def loadLines (lines : List Bytes) : Option Ipset := do
  let loading ← lines.foldlM (loadLine environment machine)
    { ips := opened, parseErrors := false, requests := [] }
  loadDone environment machine loading

def IsText (file : Bytes) : Prop := ¬ binaryHeaderV10 <+: file ∧ ¬ binaryHeaderV20 <+: file

variable {environment machine}

theorem loadLine_comment {line : Bytes} (clean : 0 ∉ line)
    (comment : atComment (skipSpaces line) = true) (loading : Loading) :
    loadLine environment machine loading line = some loading := by
  rw [loadLine, cString_clean fun character member => ne_of_mem_of_not_mem member clean, parseLine,
    comment]
  rfl

theorem load_text {file : Bytes} (text : IsText file) (clean : 0 ∉ file) :
    load environment machine file = loadLines environment machine (Text.lines maxLine file) := by
  by_cases empty : file = []
  · subst empty
    rfl
  · have front : (takeLine maxLine file).1 <+: file := ⟨_, (takeLine_spec maxLine file).1.symm⟩
    have whole : cString (takeLine maxLine file).1 = (takeLine maxLine file).1 :=
      cString_clean fun character member => ne_of_mem_of_not_mem (front.subset member) clean
    have plain10 : (takeLine maxLine file).1 ≠ binaryHeaderV10 := fun same => text.1 (same ▸ front)
    have plain20 : (takeLine maxLine file).1 ≠ binaryHeaderV20 := fun same => text.2 (same ▸ front)
    rw [load, fgets, if_neg empty, loadLines, lines_eq (by decide : 0 < maxLine) empty]
    simp only [whole, if_neg plain10, if_neg plain20]

/-- A comment that fills the buffer, and what follows on its line. -/
def longComment (rest : String) : Bytes := replicate maxLine (byte '#') ++ ascii rest

/-- A text file whose lines all fit into the buffer is loaded line by line. No larger bound
is enough for every file, though a file with a longer line may be loaded as if by lines when what
did not fit means nothing on its own. A whole comment line adds nothing, however it is read. -/
theorem loads_by_lines (environment : Environment) (machine : Machine) (file : Bytes) :
    (IsText file → 0 ∉ file → (∀ line ∈ wholeLines file, line.length ≤ maxLine) →
      load environment machine file = loadLines environment machine (wholeLines file)) ∧
    (∀ bound, maxLine < bound → ∃ environment machine file, IsText file ∧ 0 ∉ file ∧
      (∀ line ∈ wholeLines file, line.length ≤ bound) ∧
      load environment machine file ≠ loadLines environment machine (wholeLines file)) ∧
    (∃ environment machine file, IsText file ∧ 0 ∉ file ∧
      (∃ line ∈ wholeLines file, maxLine < line.length) ∧
      load environment machine file = loadLines environment machine (wholeLines file)) ∧
    ∀ line : Bytes, 0 ∉ line → atComment (skipSpaces line) = true →
      ∀ loading, loadLine environment machine loading line = some loading := by
  refine ⟨?_, ?_, ?_, fun _ clean comment => loadLine_comment clean comment⟩
  · intro text clean short
    rw [load_text text clean]
    exact congrArg _ (linesLoop_whole le_rfl short)
  · intro bound above
    have lines : wholeLines (longComment "x") = [longComment "x"] := by decide +kernel
    have size : (longComment "x").length = maxLine + 1 := by decide +kernel
    refine ⟨quadEnvironment, wide, longComment "x", ⟨by decide +kernel, by decide +kernel⟩,
      by decide +kernel, ?_, fun same => ?_⟩
    · rw [lines]
      simp only [mem_singleton, forall_eq, size]
      omega
    · have refused : (load quadEnvironment wide (longComment "x")).isSome = false := by
        decide +kernel
      rw [same] at refused
      revert refused
      decide +kernel
  · refine ⟨quadEnvironment, wide, longComment "#", ⟨by decide +kernel, by decide +kernel⟩,
      by decide +kernel, ⟨longComment "#", ?_, ?_⟩, ?_⟩
    all_goals decide +kernel

theorem long_comment_adds_address :
    IsText (longComment "1.2.3.4\n") ∧ 0 ∉ longComment "1.2.3.4\n" ∧
      (wholeLines (longComment "1.2.3.4\n")).map atComment = [true] ∧
      (load quadEnvironment wide (longComment "1.2.3.4\n")).map netaddrs =
        some [⟨0x01020304, 0x01020304⟩] ∧
      (loadLines quadEnvironment wide (wholeLines (longComment "1.2.3.4\n"))).map netaddrs =
        some [] := by
  refine ⟨⟨?_, ?_⟩, ?_, ?_, ?_, ?_⟩
  all_goals decide +kernel

end IpRange.Ipset
