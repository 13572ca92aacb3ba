import MallocLab.TraceReports
import MallocLab.TraceScripts

/-!
A trace that a script prints is read back as it was.
-/

namespace MallocLab.PrintedTraces

open MallocLab.Mdriver
open MallocLab.TraceSteps
open MallocLab.Scanf
open MallocLab.PrintedText
open MallocLab.ReadTrace
open MallocLab.TraceGrammar
open MallocLab.WellFormedTraces
open MallocLab.MdriverMain
open MallocLab.TraceReports
open MallocLab.TraceScripts

variable {heapSize numBlocks : Nat} {ls : List Line}

theorem isWord_lineWords (l : Line) : ∀ w ∈ lineWords l, IsWord w := by
  intro w hw
  cases l with
  | alloc id bytes =>
      simp only [lineWords, List.mem_cons, List.not_mem_nil, or_false] at hw
      rcases hw with rfl | rfl | rfl
      · exact isWord_letter rfl
      · exact isWord_decimalOf id
      · exact isWord_decimalOf bytes
  | realloc id bytes =>
      simp only [lineWords, List.mem_cons, List.not_mem_nil, or_false] at hw
      rcases hw with rfl | rfl | rfl
      · exact isWord_letter rfl
      · exact isWord_decimalOf id
      · exact isWord_decimalOf bytes
  | free id =>
      simp only [lineWords, List.mem_cons, List.not_mem_nil, or_false] at hw
      rcases hw with rfl | rfl
      · exact isWord_letter rfl
      · exact isWord_decimalOf id

theorem spellLines_lineWords (ls : List Line) : SpellLines (ls.map lineWords).flatten ls := by
  induction ls with
  | nil => exact .nil
  | cons l ls ih =>
      cases l with
      | alloc id bytes =>
          exact .alloc (numeralValue_decimalOf id) (numeralValue_decimalOf bytes) ih
      | realloc id bytes =>
          exact .realloc (numeralValue_decimalOf id) (numeralValue_decimalOf bytes) ih
      | free id => exact .free (numeralValue_decimalOf id) ih

theorem words_printTrace (heapSize numBlocks numOps : Nat) (ls : List Line) :
    words (printTrace heapSize numBlocks numOps ls) =
      decimalOf heapSize :: decimalOf numBlocks :: decimalOf numOps :: ['1'] ::
        (ls.map lineWords).flatten := by
  apply words_printLines
  intro ws hws w hw
  rcases List.mem_append.mp hws with hheader | hline
  · simp only [List.mem_cons, List.not_mem_nil, or_false] at hheader
    rcases hheader with rfl | rfl | rfl | rfl
    · exact List.mem_singleton.mp hw ▸ isWord_decimalOf heapSize
    · exact List.mem_singleton.mp hw ▸ isWord_decimalOf numBlocks
    · exact List.mem_singleton.mp hw ▸ isWord_decimalOf numOps
    · exact List.mem_singleton.mp hw ▸ isWord_letter rfl
  · obtain ⟨l, -, rfl⟩ := List.mem_map.mp hline
    exact isWord_lineWords l w hw

theorem formatted_printTrace (heapSize numBlocks : Nat) (ls : List Line) :
    Formatted (printTrace heapSize numBlocks ls.length ls) ⟨heapSize, numBlocks, ls.length, 1⟩ ls :=
  ⟨_, _, _, _, _, words_printTrace heapSize numBlocks ls.length ls,
    ⟨numeralValue_decimalOf heapSize, numeralValue_decimalOf numBlocks,
      numeralValue_decimalOf ls.length, rfl⟩, spellLines_lineWords ls, rfl⟩

theorem fitsInt_natCast {n : Nat} (hn : n ≤ 2147483647) : fitsInt n = true := by
  simp only [fitsInt, Bool.and_eq_true, decide_eq_true_eq]
  omega

/-- The ids are below the number of blocks, and the last of them is there. -/
structure Numbered (numBlocks : Nat) (ls : List Line) : Prop where
  ids : ∀ l ∈ ls, l.id < numBlocks
  last : ∃ l ∈ ls, l.tracked = true ∧ l.id + 1 = numBlocks

theorem readable_printTrace (hasks : ∀ l ∈ ls, Asks l) (hids : Numbered numBlocks ls)
    (hheap : heapSize ≤ 2147483647) (hblocks : numBlocks ≤ 2147483647)
    (hops : ls.length ≤ 2147483647) :
    Readable (printTrace heapSize numBlocks ls.length ls) ⟨heapSize, numBlocks, ls.length, 1⟩ ls where
  formatted := formatted_printTrace heapSize numBlocks ls
  acceptable := by
    obtain ⟨l, hl, htracked, hid⟩ := hids.last
    have hpos := List.length_pos_of_mem hl
    refine ⟨?_, fun l hl => ?_, fun l hl => (hasks l hl).1, l, hl, htracked, ?_⟩
    · exact Int.ofNat_le.mpr hpos
    · exact Int.ofNat_lt.mpr (hids.ids l hl)
    · change (l.id : Int) = (numBlocks : Int) - 1
      omega
  fits := ⟨fitsInt_natCast hheap, fitsInt_natCast hblocks, fitsInt_natCast hops, rfl⟩

end MallocLab.PrintedTraces
