import Mathlib.Data.Char
import Mathlib.Data.List.Lex
import Mathlib.Data.List.Sort
import MallocLab.PrintedText
import MallocLab.TraceGrammar

/-!
The scripts that make the trace files: `gen_coalescing.pl` and `gen_random.pl`, which print
traces, and `checktrace.pl`, which checks a trace and appends the free requests that balance it.
-/

namespace MallocLab.TraceScripts

open MallocLab.Scanf
open MallocLab.PrintedText
open MallocLab.TraceGrammar

section Generators

/-- The words of a request that a script prints. -/
def lineWords : Line → List (List Char)
  | .alloc id bytes => [['a'], decimalOf id, decimalOf bytes]
  | .realloc id bytes => [['r'], decimalOf id, decimalOf bytes]
  | .free id => [['f'], decimalOf id]

/-- The text of a trace file of weight 1. -/
def printTrace (heapSize numBlocks numOps : Nat) (trace : List Line) : List Char :=
  printLines ([[decimalOf heapSize], [decimalOf numBlocks], [decimalOf numOps], [['1']]] ++
    trace.map lineWords)

/-- The body of the loop of `gen_coalescing.pl`. -/
def coalescingIter (blkSize i : Nat) : List Line :=
  let blk1 := 3 * i
  let blk2 := blk1 + 1
  let blk3 := blk1 + 2
  [.alloc blk1 blkSize, .alloc blk2 blkSize, .free blk1, .free blk2, .alloc blk3 (2 * blkSize),
    .free blk3]

def coalescingTrace (blkSize numIters : Nat) : List Line :=
  (List.range numIters).flatMap (coalescingIter blkSize)

/-- `gen_coalescing.pl` -/
def genCoalescing (blkSize numIters : Nat) : List Char :=
  printTrace (2 * blkSize * numIters + 100) (3 * numIters) (6 * numIters)
    (coalescingTrace blkSize numIters)

/-- `coalescing.rep` -/
def coalescingRep : List Char := genCoalescing 4095 2400

/-- The random choices of a run of `gen_random.pl`: `int(rand n)` for the size of a block, and
for the place of its free request. -/
structure Choices where
  size : Nat → Nat
  place : Nat → Nat → Nat

/-- The allocation requests. -/
def randomAllocs (c : Choices) (numBlocks : Nat) : List Line :=
  (List.range numBlocks).map fun i => .alloc i (c.size i)

def isAllocOf (i : Nat) : Line → Bool
  | .alloc id _ => id = i
  | _ => false

/-- The free request of `i` is put somewhere behind its allocation. -/
def insertFree (c : Choices) (numBlocks i : Nat) (trace : List Line) : List Line :=
  let minval := i + (trace.drop i).findIdx (isAllocOf i)
  let pos := c.place i (numBlocks + i - minval - 1) + minval + 1
  trace.insertIdx pos (.free i)

/-- The second loop, for the `n` blocks from `i` on. -/
def insertFrees (c : Choices) (numBlocks : Nat) : (i n : Nat) → List Line → List Line
  | _, 0, trace => trace
  | i, n + 1, trace => insertFrees c numBlocks (i + 1) n (insertFree c numBlocks i trace)

def randomTrace (c : Choices) (numBlocks : Nat) : List Line :=
  insertFrees c numBlocks 0 numBlocks (randomAllocs c numBlocks)

/-- `gen_random.pl`, which never sees its arguments: the array `argv` of a Perl script is
`@ARGV`. -/
def genRandom (c : Choices) (numBlocks : Nat) : List Char :=
  printTrace (((List.range numBlocks).map c.size).sum + 100) numBlocks (2 * numBlocks)
    (randomTrace c numBlocks)

end Generators

section Checktrace

/-- `%HASH`: the last request of the ids that are outstanding. -/
abbrev Hash := List (List Char × List Char)

def Hash.delete (h : Hash) (id : List Char) : Hash := h.filter fun e => e.1 ≠ id

def Hash.set (h : Hash) (id cmd : List Char) : Hash := (id, cmd) :: h.delete id

inductive Death where
  | reallocWithoutAlloc (linenum : Nat)
  | allocWithoutFree (linenum : Nat)
  | reusedId (linenum : Nat) (id : List Char)
  | freeUnallocated (linenum : Nat)
  | invalidResidue
  deriving DecidableEq, Repr

/-- The message of `die`, without the name of the script. -/
def Death.msg : Death → String
  | .reallocWithoutAlloc linenum => s!"ERROR[{linenum}]: realloc without previous alloc\n"
  | .allocWithoutFree linenum => s!"ERROR[{linenum}]: allocate with no intervening free.\n"
  | .reusedId linenum id => s!"ERROR[{linenum}]: reused ID {String.ofList id}.\n"
  | .freeUnallocated linenum => s!"ERROR[{linenum}]: freeing unallocated block.\n"
  | .invalidResidue => "ERROR: Invalid free request in residue.\n"

/-- `<STDIN>` with `chomp`: the next line, if there is one, and the rest. -/
def nextLine : List Char → Option (List Char × List Char)
  | [] => none
  | c :: t => some ((c :: t).takeWhile (· ≠ '\n'), ((c :: t).dropWhile (· ≠ '\n')).tail)

/-- The lines of a text. -/
def linesOf : (n : Nat) → List Char → List (List Char)
  | 0, _ => []
  | n + 1, t =>
      match nextLine t with
      | none => []
      | some (l, rest) => l :: linesOf n rest

/-- A word of `split`, or the empty string where there is none. -/
def wordAt (l : List Char) (i : Nat) : List Char := (words l).getD i []

/-- A line whose first word is missing, or false in Perl. -/
def ignored (l : List Char) : Bool := wordAt l 0 = [] || wordAt l 0 = ['0']

/-- The body of the loop over the requests.  The last check of the script is left out, for
`!$HASH{$id} eq "f"` is never true. -/
def checkRequest (linenum : Nat) (h : Hash) (l : List Char) : Except Death Hash :=
  let cmd := wordAt l 0
  let id := wordAt l 1
  if cmd = ['r'] then
    if (h.lookup id).isSome then .ok h else .error (.reallocWithoutAlloc linenum)
  else if cmd = ['a'] ∧ h.lookup id = some ['a'] then .error (.allocWithoutFree linenum)
  else if cmd = ['a'] ∧ h.lookup id = some ['f'] then .error (.reusedId linenum id)
  else if cmd = ['f'] then
    if (h.lookup id).isSome then .ok (h.delete id) else .error (.freeUnallocated linenum)
  else .ok (h.set id cmd)

/-- The loop over the requests: the lines that are kept, and `%HASH` at the end. -/
def checkRequests : Nat → Hash → List (List Char) → Except Death (List (List Char) × Hash)
  | _, h, [] => .ok ([], h)
  | linenum, h, l :: ls =>
      if ignored l then checkRequests (linenum + 1) h ls
      else do
        let h' ← checkRequest linenum h l
        let (kept, h'') ← checkRequests (linenum + 1) h' ls
        return (l :: kept, h'')

/-- The signed integers of 64 bits, with which Perl counts exactly. -/
def fitsInteger (v : Int) : Bool :=
  decide (-9223372036854775808 ≤ v) && decide (v ≤ 9223372036854775807)

def exactly (v : Int) : Option Int := if fitsInteger v then some v else none

/-- The number that a string stands for, 0 if it is blank.  Nothing where Perl takes it for a
floating-point number, or where something other than a number is in it. -/
def numberIn (l : List Char) : Option Int :=
  match scanNumeral l with
  | .noInput => some 0
  | .mismatch _ => none
  | .number v rest => if skipSpace rest = [] then exactly v else none

/-- `$old_num_ops + $new_ops` -/
def newNumOps (oldNumOps : List Char) (newOps : Nat) : Option Int :=
  (numberIn oldNumOps).bind fun n => exactly (n + newOps)

/-- `sort keys %HASH` -/
def sortedKeys (h : Hash) : List (List Char) :=
  (h.map Prod.fst).insertionSort (· ≤ ·)

/-- The free requests that balance the trace. -/
def residue (h : Hash) : List (List Char) → Except Death (List (List Char))
  | [] => .ok []
  | key :: keys =>
      if h.lookup key ≠ some ['a'] ∧ h.lookup key ≠ some ['r'] then .error .invalidResidue
      else do return ('f' :: ' ' :: key) :: (← residue h keys)

/-- A trace as the script reads it: the four lines of the header, and the requests. -/
structure Checked where
  heapSize : List Char
  numBlocks : List Char
  oldNumOps : List Char
  weight : List Char
  lines : List (List Char)
  hash : Hash

def readChecked (t : List Char) : Except Death Checked := do
  let ls := linesOf (t.length + 1) t
  let (kept, h) ← checkRequests 5 [] (ls.drop 4)
  return ⟨ls.getD 0 [], ls.getD 1 [], ls.getD 2 [], ls.getD 3 [], kept, h⟩

/-- `checktrace.pl -s` -/
def checktraceSummary (t : List Char) : Except Death String := do
  let c ← readChecked t
  return if c.hash.isEmpty then "Balanced trace.\n" else "Unbalanced tree.\n"

/-- `checktrace.pl`.  Nothing where the number of requests is no such integer: how Perl prints it
then is left out. -/
def checktrace (t : List Char) : Except Death (Option (List Char)) := do
  let c ← readChecked t
  let frees ← residue c.hash (sortedKeys c.hash)
  return (newNumOps c.oldNumOps c.hash.length).map fun n =>
    ([c.heapSize, c.numBlocks, (toString n).toList, c.weight] ++ c.lines ++ frees).flatMap endLine

end Checktrace

end MallocLab.TraceScripts
