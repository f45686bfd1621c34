import HmmOS.Nonstd.StringView
import Mathlib.Logic.Function.Basic

/-! # The command line of the shell

`parse_cmd` cuts a command into arguments in place: blanks become NULs, and the
places where arguments start are stored. Pointers are positions in the command.
-/
namespace HmmOS.Userspace
open Function Nonstd.StringView

def maxArgCount : ℕ := 1024

def isspace : Char → Bool
  | ' ' | '\x0c' | '\n' | '\r' | '\t' | '\x0b' => true
  | _ => false

/-- The command and the pointers stored in `args`, whose number is `argc`. -/
structure ParsedCmd where
  buf : ℕ → Char
  args : List ℕ

/-- One turn of the loop. A blank is overwritten before it is tested again. -/
def parseTurn (st : ParsedCmd) (i : ℕ) : ParsedCmd :=
  let buf := if isspace (st.buf i) then update st.buf i nul else st.buf
  { buf := buf
    args := if i = 0 ∨ buf (i - 1) = nul ∧ ¬ isspace (buf i) then st.args ++ [i] else st.args }

def parseCmd (buf : ℕ → Char) (n : ℕ) : ParsedCmd := (List.range n).foldl parseTurn ⟨buf, []⟩

section
variable (buf : ℕ → Char) (n i : ℕ)

def blanked : ℕ → Char := fun i => if i < n ∧ isspace (buf i) then nul else buf i

/-- The beginning of the command, or the place after a blank. -/
def follows : Bool := i = 0 || isspace (buf (i - 1))

/-- The starts of the maximal runs of characters that are not blank. -/
def runStarts : List ℕ := (List.range n).filter fun i => follows buf i && !isspace (buf i)

end

variable {buf : ℕ → Char} {n : ℕ}

theorem blanked_succ (buf : ℕ → Char) (n : ℕ) :
    (if isspace (blanked buf n n) then update (blanked buf n) n nul else blanked buf n) =
      blanked buf (n + 1) := by
  have hlast : blanked buf n n = buf n := by simp [blanked]
  rw [hlast]
  funext i
  by_cases hi : i = n
  · subst hi
    split_ifs with hspace
    · simp [blanked, hspace]
    · simp [blanked, hspace]
  · have hlt : i < n + 1 ↔ i < n := by omega
    split_ifs with hspace
    · simp [blanked, update_of_ne hi, hlt]
    · simp [blanked, hlt]

/-- After its own test the character at `i` is never a blank. -/
theorem not_isspace_blanked {i : ℕ} (hi : i < n) : isspace (blanked buf n i) = false := by
  have hnospace : isspace nul = false := by decide
  by_cases hspace : isspace (buf i) = true
  · simp [blanked, hi, hspace, hnospace]
  · simp [blanked, hspace]

theorem blanked_eq_nul {i : ℕ} (hi : i < n) (hnul : buf i ≠ nul) :
    blanked buf n i = nul ↔ isspace (buf i) = true := by
  by_cases hspace : isspace (buf i) = true
  · simp [blanked, hi, hspace]
  · simp [blanked, hspace, hnul]

theorem parseCmd_eq (hnul : ∀ i < n, buf i ≠ nul) :
    parseCmd buf n = ⟨blanked buf n, (List.range n).filter (follows buf)⟩ := by
  induction n with
  | zero =>
    rfl
  | succ n ih =>
    have htest : (n = 0 ∨ blanked buf (n + 1) (n - 1) = nul ∧ ¬ isspace (blanked buf (n + 1) n)) ↔
        follows buf n = true := by
      rw [not_isspace_blanked (Nat.lt_succ_self n), blanked_eq_nul (by omega) (hnul _ (by omega))]
      simp [follows]
    have hturn : parseCmd buf (n + 1) = parseTurn (parseCmd buf n) n := by
      rw [parseCmd, List.range_succ, List.foldl_append]
      rfl
    rw [hturn, ih fun i hi => hnul i (by omega), parseTurn]
    simp only [blanked_succ, htest, List.range_succ, List.filter_append]
    by_cases hfollows : follows buf n = true
    · simp [hfollows]
    · simp [hfollows]

/-- The pointers are the starts of the arguments exactly if these are separated by single blanks,
with none in front. -/
theorem parseCmd_exact_iff (hnul : ∀ i < n, buf i ≠ nul) :
    ((parseCmd buf n).buf = blanked buf n ∧ (parseCmd buf n).args.length ≤ maxArgCount ∧
        ((runStarts buf n).length ≤ maxArgCount → (parseCmd buf n).args = runStarts buf n)) ↔
      (runStarts buf n).length ≤ maxArgCount ∧
        ∀ i < n, isspace (buf i) = true → i ≠ 0 ∧ isspace (buf (i - 1)) = false := by
  have hsub : (runStarts buf n).Sublist ((List.range n).filter (follows buf)) := by
    have htwice : runStarts buf n = ((List.range n).filter (follows buf)).filter fun i => !isspace (buf i) := by
      simp [runStarts, List.filter_filter, Bool.and_comm]
    exact htwice ▸ List.filter_sublist
  rw [parseCmd_eq hnul]
  constructor
  · rintro ⟨-, hlen, heq⟩
    have hcount : (runStarts buf n).length ≤ maxArgCount := hsub.length_le.trans hlen
    refine ⟨hcount, fun i hi hspace => ?_⟩
    -- a stored pointer to a blank would be the start of an argument
    by_contra hno
    have hfollows : follows buf i = true := by
      simp only [follows, Bool.or_eq_true, decide_eq_true_eq]
      grind
    have hmem : i ∈ runStarts buf n := heq hcount ▸ List.mem_filter.mpr ⟨List.mem_range.mpr hi, hfollows⟩
    simp [runStarts, hspace] at hmem
  · rintro ⟨hcount, hsingle⟩
    have heq : (List.range n).filter (follows buf) = runStarts buf n := by
      apply List.filter_congr
      intro i hi
      by_cases hspace : isspace (buf i) = true
      · obtain ⟨hne, hbefore⟩ := hsingle i (List.mem_range.mp hi) hspace
        simp [follows, hspace, hne, hbefore]
      · simp [hspace]
    exact ⟨rfl, heq ▸ hcount, fun _ => heq⟩

def command (s : String) : ℕ → Char := fun i => s.toList.getD i nul

theorem parseCmd_exact_oneBlank : (parseCmd (command "ls -l") 5).args = runStarts (command "ls -l") 5 :=
  ((parseCmd_exact_iff (by decide)).mpr ⟨by decide, by decide⟩).2.2 (by decide)

/-- Between two blanks there is an empty argument, and so there is in a blank line. -/
theorem parseCmd_twoBlanks : (parseCmd (command "ls  -l") 6).args = [0, 3, 4] ∧
    runStarts (command "ls  -l") 6 = [0, 4] ∧ (parseCmd (command " ") 1).args = [0] ∧
    runStarts (command " ") 1 = [] := by
  decide

end HmmOS.Userspace
