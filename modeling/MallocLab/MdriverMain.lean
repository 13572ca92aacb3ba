import MallocLab.Mdriver
import MallocLab.ReadTrace

/-!
The function `main` of `mdriver.c` on the package, without the options that ask for more:
one trace file after the other is read and evaluated, and the results are printed.
-/

namespace MallocLab.MdriverMain

open MallocLab.Mdriver
open MallocLab.MallocPackage
open MallocLab.ReadTrace

section Timers

variable {σ τ : Type}

/-- `ftimer_itimer`, but for the clock: `n` runs of `f`. -/
def ftimerItimer (f : DriverM σ τ Unit) : (n : Nat) → DriverM σ τ Unit
  | 0 => return
  | n + 1 => do
      f
      ftimerItimer f n

def fsecs (f : DriverM σ τ Unit) : DriverM σ τ Unit := ftimerItimer f 10

end Timers

/-- How `main` stops short of its end: in `read_trace`, at an id that is outside the arrays of
its trace, or in the evaluation. -/
inductive MainStop where
  | read (s : ReadStop)
  | wildIndex
  | run (s : Stop)
  deriving DecidableEq, Repr

/-- A trace file of that name, if it opens, and what its trace record, its arrays and the
variable `size` hold before anything is assigned to them. -/
structure TraceFile where
  name : String
  file : Option (List Char)
  stale : Header (BitVec 32)
  staleSize : BitVec 32
  stalePayloads : Payloads

/-- A `stats_t`, but for the seconds. -/
structure Stats where
  traceName : String
  ops : BitVec 32
  valid : Bool
  util : ℚ
  errorMsg : String
  deriving DecidableEq

/-- The text that `malloc_error` leaves in `error_msg`. -/
def reportText (r : Report) : String :=
  s!"ERROR [trace {r.tracenum} on line {r.line}]: {r.complaint.msg}\n"

/-- `error_msg` of a trace: the array is zeroed at first, each report of the trace takes the
place of the one before, and `snprintf` keeps 1023 characters. -/
def errorMsg (errors : List Report) (tracenum : Nat) : String :=
  match (errors.filter fun r => r.tracenum = tracenum).getLast? with
  | some r => String.ofList ((reportText r).toList.take 1023)
  | none => ""

abbrev MainM (σ : Type) := StateT (Driver σ Payloads) (Except MainStop)

variable {σ α : Type}

def evaluate (x : TraceM σ α) : MainM σ α := fun d =>
  match x.run d with
  | .ok r => .ok r
  | .error s => .error (.run s)

def readFile (tracedir : String) (f : TraceFile) : MainM σ Trace := fun d =>
  match readTrace (tracedir ++ f.name) f.file f.stale f.staleSize with
  | .ok (trace, _) => .ok (trace, d)
  | .error s => .error (.read s)

def requestOf : TraceOp → Request
  | .alloc index size => .alloc index.toNat size
  | .realloc index size => .realloc index.toNat size
  | .free index => .free index.toNat

/-- The arrays `blocks` and `block_sizes` have an entry for the id. -/
def inArrays (numIds : BitVec 32) (op : TraceOp) : Bool :=
  decide (0 ≤ op.index.toInt) && decide (op.index.toInt < numIds.toInt)

/-- The body of the loop of `main`. -/
def evalTrace (P : Package σ) (tracedir : String) (i : Nat) (f : TraceFile) :
    MainM σ Stats := do
  let trace ← readFile tracedir f
  if trace.ops.all (inArrays trace.header.numIds) then
    modify fun d => { d with table := f.stalePayloads }
    let ops := trace.ops.map requestOf
    if ← evaluate (evalMmValid P i ops) then
      let util ← evaluate (evalMmUtil P i ops)
      evaluate (fsecs (evalMmSpeed P ops))
      return ⟨f.name, trace.header.numOps, true, util, errorMsg (← get).errors i⟩
    else
      return ⟨f.name, trace.header.numOps, false, 0, errorMsg (← get).errors i⟩
  else
    throw .wildIndex

def evalTraces (P : Package σ) (tracedir : String) : Nat → List TraceFile → MainM σ (List Stats)
  | _, [] => return []
  | i, f :: files => do
      let s ← evalTrace P tracedir i f
      let stats ← evalTraces P tracedir (i + 1) files
      return s :: stats

/-- `trace_baseline_table`; the field `consistent` of its entries is not read. -/
def traceBaselineTable : List (String × ℚ) :=
  [("amptjp-bal.rep", 0), ("cccp-bal.rep", 0),
    ("cp-decl-bal.rep", 0), ("expr-bal.rep", 0),
    ("random-bal.rep", 0), ("random2-bal.rep", 0),
    ("binary-bal.rep", 0), ("binary2-bal.rep", 0),
    ("coalescing-bal.rep", 9 / 10), ("coalescing2-bal.rep", 9 / 10),
    ("realloc-bal.rep", 9 / 20), ("realloc2-bal.rep", 9 / 20)]

/-- A line of the table that `printpassed` prints. -/
structure Row where
  tracenum : Nat
  traceName : String
  util : Option ℚ
  passed : Bool
  deriving DecidableEq

def printpassedRow (i : Nat) (s : Stats) (minUtil : ℚ) : Row :=
  if s.valid then ⟨i, s.traceName, some (s.util * 100), decide (minUtil ≤ s.util)⟩
  else ⟨i, s.traceName, none, false⟩

@[simp] theorem tracenum_printpassedRow (i : Nat) (s : Stats) (minUtil : ℚ) :
    (printpassedRow i s minUtil).tracenum = i := by
  unfold printpassedRow
  split
  · rfl
  · rfl

@[simp] theorem traceName_printpassedRow (i : Nat) (s : Stats) (minUtil : ℚ) :
    (printpassedRow i s minUtil).traceName = s.traceName := by
  unfold printpassedRow
  split
  · rfl
  · rfl

@[simp] theorem passed_printpassedRow_iff (i : Nat) (s : Stats) (minUtil : ℚ) :
    (printpassedRow i s minUtil).passed = true ↔ s.valid = true ∧ minUtil ≤ s.util := by
  unfold printpassedRow
  split
  · simp [*]
  · simp [*]

/-- Quotients of numbers as small as these compare like the `double`s they are rounded to. -/
def printpassed : (i : Nat) → List Stats → List Row
  | _, [] => []
  | i, s :: stats =>
      (traceBaselineTable.filter fun b => s.traceName = b.1).map
        (fun b => printpassedRow i s b.2) ++ printpassed (i + 1) stats

/-- What `main` has found out, and the number it terminates with. -/
structure Results where
  stats : List Stats
  rows : List Row
  numcorrect : Nat
  errors : Nat
  deriving DecidableEq

def main (P : Package σ) (tracedir : String) (files : List TraceFile) : MainM σ Results := do
  let stats ← evalTraces P tracedir 0 files
  return ⟨stats, printpassed 0 stats, (stats.filter Stats.valid).length, (← get).errors.length⟩

end MallocLab.MdriverMain
