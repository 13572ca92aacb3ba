import MallocLab.Scanf

/-!
Formatted output: numbers in decimal, and lines of words with single blanks between them.
The conversions of `fscanf` read them back.
-/

namespace MallocLab.PrintedText

open MallocLab.Scanf

/-- A natural number as `%d` prints it. -/
def decimalOf (n : Nat) : List Char := Nat.toDigits 10 n

/-- The words with single blanks between them. -/
def spaced : List (List Char) → List Char
  | [] => []
  | [w] => w
  | w :: ws => w ++ ' ' :: spaced ws

def endLine (l : List Char) : List Char := l ++ ['\n']

/-- Lines of words, each ended. -/
def printLines (lines : List (List (List Char))) : List Char :=
  lines.flatMap fun ws => endLine (spaced ws)

/-- Not empty, and without a blank. -/
def IsWord (w : List Char) : Prop := w ≠ [] ∧ ∀ c ∈ w, isSpace c = false

section Numbers

variable {n m : Nat}

theorem digitsValue_decimalOf (n : Nat) : digitsValue (decimalOf n) = n :=
  Nat.ofDigitChars_ten_toDigits

theorem spells_decimalOf (n : Nat) : Spells (decimalOf n) n := by
  refine ⟨[], false, decimalOf n, .inl ⟨rfl, rfl⟩, Nat.toDigits_ne_nil, ?_, rfl, ?_⟩
  · exact fun c hc => Nat.isDigit_of_mem_toDigits (by decide) (by decide) hc
  · rw [digitsValue_decimalOf]
    rfl

theorem numeralValue_decimalOf (n : Nat) : numeralValue (decimalOf n) = some (n : Int) :=
  numeralValue_eq_some (spells_decimalOf n)

theorem isWord_decimalOf (n : Nat) : IsWord (decimalOf n) :=
  ⟨(spells_decimalOf n).ne_nil, (spells_decimalOf n).not_isSpace⟩

theorem decimalOf_inj : decimalOf n = decimalOf m ↔ n = m := by
  constructor
  · intro heq
    rw [← digitsValue_decimalOf n, heq, digitsValue_decimalOf]
  · exact congrArg decimalOf

end Numbers

section Lines

variable {w rest : List Char} {ws : List (List Char)} {lines : List (List (List Char))}

theorem isWord_letter {c : Char} (hc : isSpace c = false) : IsWord [c] := by
  refine ⟨List.cons_ne_nil c [], fun e he => ?_⟩
  obtain rfl := List.mem_singleton.mp he
  exact hc

/-- The words of a line come back, in front of those of the rest. -/
theorem words_spaced (hws : ∀ w ∈ ws, IsWord w) (hrest : atBlank rest = true) :
    words (spaced ws ++ rest) = ws ++ words rest := by
  induction ws with
  | nil => rfl
  | cons w ws ih =>
      obtain ⟨⟨hne, hw⟩, hws'⟩ := List.forall_mem_cons.mp hws
      cases ws with
      | nil => exact words_append hne hw hrest
      | cons u us =>
          have hblank : atBlank (' ' :: spaced (u :: us) ++ rest) = true := rfl
          have hskip : words (' ' :: spaced (u :: us) ++ rest) = words (spaced (u :: us) ++ rest) :=
            if_pos rfl
          change words ((w ++ ' ' :: spaced (u :: us)) ++ rest) = _
          rw [List.append_assoc, words_append hne hw hblank, hskip, ih hws']
          rfl

/-- A text of lines has the words of its lines. -/
theorem words_printLines (hlines : ∀ ws ∈ lines, ∀ w ∈ ws, IsWord w) :
    words (printLines lines) = lines.flatten := by
  induction lines with
  | nil => rfl
  | cons ws lines ih =>
      obtain ⟨hws, hlines'⟩ := List.forall_mem_cons.mp hlines
      have hskip : words ('\n' :: printLines lines) = words (printLines lines) := if_pos rfl
      change words ((spaced ws ++ ['\n']) ++ printLines lines) = _
      rw [List.append_assoc, words_spaced hws rfl]
      change ws ++ words ('\n' :: printLines lines) = _
      rw [hskip, ih hlines']
      rfl

end Lines

end MallocLab.PrintedText
