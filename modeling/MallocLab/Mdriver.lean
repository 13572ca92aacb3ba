import Mathlib.Data.Rat.Defs
import MallocLab.MallocPackage

/-!
The driver of `mdriver.c`: the range list, and the three interpreters that replay
a trace on a malloc package.
-/

namespace MallocLab.Mdriver

open MallocLab.Machine
open MallocLab.Runs
open MallocLab.MallocPackage

/-- How the driver stops short of its end: an access that faults, a failing
`assert`, or `app_error`, which exits. -/
inductive Stop where
  | fault (e : Fault)
  | assertion
  | appError (msg : String)
  deriving DecidableEq, Repr

/-- The extent of a payload, from its first to its last byte. -/
structure Range where
  lo : Nat
  hi : Nat
  deriving DecidableEq, Repr

/-- What the driver reports about a package. -/
inductive Complaint where
  | initFailed
  | mallocFailed
  | reallocFailed
  | notPreserved
  | notAligned (lo : Nat)
  | outsideHeap (lo hi heapLo heapHi : Nat)
  | overlaps (lo hi plo phi : Nat)
  deriving DecidableEq, Repr

/-- The conversion `%p`. -/
def pointer (p : Nat) : String := "0x" ++ String.ofList (Nat.toDigits 16 p)

def Complaint.msg : Complaint → String
  | .initFailed => "mm_init failed."
  | .mallocFailed => "mm_malloc failed."
  | .reallocFailed => "mm_realloc failed."
  | .notPreserved => "mm_realloc did not preserve the data from old block"
  | .notAligned lo =>
      s!"Payload address ({pointer lo}) not aligned to {alignment.toNat} bytes"
  | .outsideHeap lo hi heapLo heapHi =>
      s!"Payload ({pointer lo}:{pointer hi}) lies outside heap " ++
        s!"({pointer heapLo}:{pointer heapHi})"
  | .overlaps lo hi plo phi =>
      s!"Payload ({pointer lo}:{pointer hi}) overlaps another payload " ++
        s!"({pointer plo}:{pointer phi})\n"

/-- The line of a request in its trace file. -/
def linenum (i : Nat) : Nat := i + 5

structure Report where
  tracenum : Nat
  line : Nat
  complaint : Complaint
  deriving DecidableEq, Repr

/-- A call of the package, for the id of the request that led to it. -/
structure Issued where
  index : Nat
  call : Call
  result : Nat
  deriving DecidableEq, Repr

/-- The state of the driver; `table` is what it remembers about its payloads.
`issued` records the calls since the last `mem_reset_brk`, and no function reads it. -/
structure Driver (σ τ : Type) where
  heap : σ
  ranges : List Range
  errors : List Report
  issued : List Issued
  table : τ

abbrev DriverM (σ τ : Type) := StateT (Driver σ τ) (Except Stop)

variable {σ τ α : Type}

def onHeap (x : StateT σ (Except Fault) α) : DriverM σ τ α := do
  match x.run (← get).heap with
  | .ok (a, s) =>
      modify fun d => { d with heap := s }
      return a
  | .error e => throw (.fault e)

def callMm (P : Package σ) (index : Nat) (c : Call) : DriverM σ τ Nat := do
  let q ← onHeap (P.exec c)
  modify fun d => { d with issued := d.issued ++ [⟨index, c, q⟩] }
  return q

def resetBrk (P : Package σ) : DriverM σ τ Unit := do
  onHeap P.memResetBrk
  modify fun d => { d with issued := [] }

def mallocError (tracenum opnum : Nat) (c : Complaint) : DriverM σ τ Unit :=
  modify fun d => { d with errors := d.errors ++ [⟨tracenum, linenum opnum, c⟩] }

def isAligned (p : Nat) : Prop := p % alignment.toNat = 0

instance (p : Nat) : Decidable (isAligned p) := inferInstanceAs (Decidable (_ = _))

/-- The test of `add_range` against one record. -/
def overlapTest (lo hi : Nat) (p : Range) : Bool :=
  (p.lo ≤ lo && lo ≤ p.hi) || (p.lo ≤ hi && hi ≤ p.hi)

/-- What `add_range` finds wrong with a payload, in the order of its tests. -/
def rangeError (heapLo heapHi : Nat) (ranges : List Range) (lo hi : Nat) : Option Complaint :=
  if ¬ isAligned lo then
    some (.notAligned lo)
  else if lo < heapLo ∨ heapHi < lo ∨ hi < heapLo ∨ heapHi < hi then
    some (.outsideHeap lo hi heapLo heapHi)
  else
    (ranges.find? (overlapTest lo hi)).map fun p => .overlaps lo hi p.lo p.hi

def addRange (P : Package σ) (lo : Nat) (size : BitVec 32) (tracenum opnum : Nat) :
    DriverM σ τ Bool := do
  if size = 0 then
    return true
  else if size.toInt > 0 then
    let d ← get
    let hi := lo + size.toNat - 1
    match rangeError (P.memHeapLo d.heap) (P.memHeapHi d.heap) d.ranges lo hi with
    | some c =>
        mallocError tracenum opnum c
        return false
    | none =>
        set { d with ranges := ⟨lo, hi⟩ :: d.ranges }
        return true
  else
    throw .assertion

def removeRange (lo : Nat) : DriverM σ τ Unit :=
  modify fun d => { d with ranges := d.ranges.eraseP fun p => p.lo = lo }

def clearRanges : DriverM σ τ Unit := modify fun d => { d with ranges := [] }

/-- The byte `memset` stores for the `int` argument `index & 0xFF`. -/
def fillByte (index : Nat) : BitVec 8 := BitVec.ofNat 8 (index &&& 0xFF)

def fillRange (P : Package σ) (p index : Nat) (size : BitVec 32) : DriverM σ τ Unit :=
  onHeap (P.memset p (fillByte index) (size.signExtend 64).toNat)

/-- The loop over `newp[j] != (index & 0xFF)` for the `n` bytes from `j` on; the
plain `char` is signed. -/
def compareLoop (P : Package σ) (s : σ) (newp index : Nat) : (j n : Nat) → Except Fault Bool
  | _, 0 => return true
  | j, n + 1 => do
      if (← P.readByte s (newp + j)).toInt ≠ ((index &&& 0xFF : Nat) : Int) then
        return false
      else
        compareLoop P s newp index (j + 1) n

/-- The bound of the loop, of type `int` like the parameter it starts from. -/
def compareBound (oldsize : Word) (size : BitVec 32) : BitVec 32 :=
  if size.toInt < (oldsize.setWidth 32).toInt then size else oldsize.setWidth 32

/-- Does the new payload hold the data of the old one? -/
def compareData (P : Package σ) (s : σ) (newp index : Nat) (oldsize : Word)
    (size : BitVec 32) : Except Fault Bool :=
  compareLoop P s newp index 0 (compareBound oldsize size).toInt.toNat

def checkData (P : Package σ) (newp index : Nat) (oldsize : Word) (size : BitVec 32) :
    DriverM σ τ Bool := do
  match compareData P (← get).heap newp index oldsize size with
  | .ok b => return b
  | .error e => throw (.fault e)

inductive Request where
  | alloc (index : Nat) (size : BitVec 32)
  | realloc (index : Nat) (size : BitVec 32)
  | free (index : Nat)
  deriving DecidableEq, Repr

/-- The arrays `blocks` and `block_sizes` of a trace.  `read_trace` leaves their
entries uninitialised. -/
structure Payloads where
  blocks : Nat → Nat
  blockSizes : Nat → Word

abbrev TraceM (σ : Type) := DriverM σ Payloads

def getBlock (index : Nat) : TraceM σ Nat := return (← get).table.blocks index

def getBlockSize (index : Nat) : TraceM σ Word := return (← get).table.blockSizes index

def setBlock (index p : Nat) : TraceM σ Unit :=
  modify fun d =>
    { d with table := { d.table with blocks := Function.update d.table.blocks index p } }

def setBlockSize (index : Nat) (size : BitVec 32) : TraceM σ Unit :=
  modify fun d =>
    { d with table :=
      { d.table with
        blockSizes := Function.update d.table.blockSizes index (size.signExtend 64) } }

/-- The body of the loop of `eval_mm_valid`; false where it returns 0. -/
def validRequest (P : Package σ) (tracenum i : Nat) : Request → TraceM σ Bool
  | .alloc index size => do
      let p ← callMm P index (.malloc (size.signExtend 64))
      if p = null ∧ size ≠ 0 then
        mallocError tracenum i .mallocFailed
        return false
      else if size = 0 then
        return true
      else if ← addRange P p size tracenum i then
        fillRange P p index size
        setBlock index p
        setBlockSize index size
        return true
      else
        return false
  | .realloc index size => do
      let oldp ← getBlock index
      let newp ← callMm P index (.realloc oldp (size.signExtend 64))
      if newp = null ∧ size ≠ 0 then
        mallocError tracenum i .reallocFailed
        return false
      else if size = 0 then
        return true
      else
        removeRange oldp
        if ← addRange P newp size tracenum i then
          if ← checkData P newp index (← getBlockSize index) size then
            fillRange P newp index size
            setBlock index newp
            setBlockSize index size
            return true
          else
            mallocError tracenum i .notPreserved
            return false
        else
          return false
  | .free index => do
      let p ← getBlock index
      removeRange p
      let _ ← callMm P index (.free p)
      return true

def validRequests (P : Package σ) (tracenum : Nat) : Nat → List Request → TraceM σ Bool
  | _, [] => return true
  | i, op :: ops => do
      if ← validRequest P tracenum i op then
        validRequests P tracenum (i + 1) ops
      else
        return false

def evalMmValid (P : Package σ) (tracenum : Nat) (ops : List Request) : TraceM σ Bool := do
  resetBrk P
  clearRanges
  if (← onHeap P.mmInit) < 0 then
    mallocError tracenum 0 .initFailed
    return false
  else
    validRequests P tracenum 0 ops

/-- The counters of `eval_mm_util`. -/
structure Totals where
  totalSize : BitVec 32
  maxTotalSize : BitVec 32
  deriving DecidableEq, Repr

/-- `total_size += n`, and the update of `max_total_size` after it. -/
def Totals.add (t : Totals) (n : BitVec 32) : Totals where
  totalSize := t.totalSize + n
  maxTotalSize :=
    if (t.totalSize + n).toInt > t.maxTotalSize.toInt then t.totalSize + n else t.maxTotalSize

/-- The body of the loop of `eval_mm_util`; `none` where it returns 0. -/
def utilRequest (P : Package σ) (tracenum i : Nat) (t : Totals) :
    Request → TraceM σ (Option Totals)
  | .alloc index size => do
      let p ← callMm P index (.malloc (size.signExtend 64))
      if p = null ∧ size ≠ 0 then
        throw (.appError "mm_malloc failed in eval_mm_util")
      else if size = 0 then
        return some t
      else if ← addRange P p size tracenum i then
        fillRange P p index size
        setBlock index p
        setBlockSize index size
        return some (t.add size)
      else
        return none
  | .realloc index newsize => do
      let oldp ← getBlock index
      let newp ← callMm P index (.realloc oldp (newsize.signExtend 64))
      if newp = null ∧ newsize ≠ 0 then
        throw (.appError "mm_realloc failed in eval_mm_util")
      else if newsize = 0 then
        return some t
      else
        removeRange oldp
        if ← addRange P newp newsize tracenum i then
          fillRange P newp index newsize
          let oldsize := (← getBlockSize index).setWidth 32
          setBlock index newp
          setBlockSize index newsize
          return some (t.add (newsize - oldsize))
        else
          return none
  | .free index => do
      let size := (← getBlockSize index).setWidth 32
      let p ← getBlock index
      removeRange p
      let _ ← callMm P index (.free p)
      return some { t with totalSize := t.totalSize - size }

def utilRequests (P : Package σ) (tracenum : Nat) :
    Nat → Totals → List Request → TraceM σ (Option Totals)
  | _, t, [] => return some t
  | i, t, op :: ops => do
      match ← utilRequest P tracenum i t op with
      | some t' => utilRequests P tracenum (i + 1) t' ops
      | none => return none

/-- `eval_mm_util` up to its last line. -/
def utilTotals (P : Package σ) (tracenum : Nat) (ops : List Request) :
    TraceM σ (Option Totals) := do
  resetBrk P
  clearRanges
  if (← onHeap P.mmInit) < 0 then
    throw (.appError "mm_init failed in eval_mm_util")
  else
    utilRequests P tracenum 0 ⟨0, 0⟩ ops

/-- The result is the quotient that the two `double`s stand for. -/
def evalMmUtil (P : Package σ) (tracenum : Nat) (ops : List Request) : TraceM σ ℚ := do
  match ← utilTotals P tracenum ops with
  | some t => return (t.maxTotalSize.toInt : ℚ) / (P.memHeapsize (← get).heap : ℚ)
  | none => return 0

/-- The body of the loop of `eval_mm_speed`. -/
def speedRequest (P : Package σ) : Request → TraceM σ Unit
  | .alloc index size => do
      let p ← callMm P index (.malloc (size.signExtend 64))
      if p = null then
        throw (.appError "mm_malloc error in eval_mm_speed")
      else
        fillRange P p index size
        setBlock index p
  | .realloc index newsize => do
      let oldp ← getBlock index
      let newp ← callMm P index (.realloc oldp (newsize.signExtend 64))
      if newp = null then
        throw (.appError "mm_realloc error in eval_mm_speed")
      else
        fillRange P newp index newsize
        setBlock index newp
  | .free index => do
      let p ← getBlock index
      let _ ← callMm P index (.free p)

def speedRequests (P : Package σ) : List Request → TraceM σ Unit
  | [] => return
  | op :: ops => do
      speedRequest P op
      speedRequests P ops

def evalMmSpeed (P : Package σ) (ops : List Request) : TraceM σ Unit := do
  resetBrk P
  if (← onHeap P.mmInit) < 0 then
    throw (.appError "mm_init failed in eval_mm_speed")
  else
    speedRequests P ops

end MallocLab.Mdriver
