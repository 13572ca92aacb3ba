import MallocLab.Mdriver

/-!
The REPL of `mdriver.c`: its table of blocks, and the commands that share it with the
range list and the package.
-/

namespace MallocLab.Repl

open MallocLab.Machine
open MallocLab.Mminline
open MallocLab.MallocPackage
open MallocLab.Mdriver

/-- `MAX_REPL_SIZE`, the `num_blocks` of the only state that `driver` makes. -/
def numBlocks : Nat := 1024

structure ReplBlock where
  isValid : Bool
  ptr : Nat
  size : Word
  index : Nat
  deriving DecidableEq, Repr

/-- What `repl_state` holds besides the range list. -/
structure ReplState where
  tracenum : Nat
  numOps : Nat
  blocks : Nat → ReplBlock

def makeReplState : ReplState where
  tracenum := 0
  numOps := 0
  blocks := fun i => ⟨false, null, 0, i⟩

abbrev ReplM (σ : Type) := DriverM σ ReplState

/-- What a command prints about a request that it turns down, about a block, or about
the heap. -/
inductive Printed where
  | indexRange
  | inUse
  | notInUse
  | notAllocated (index : Nat)
  | allocatedBlock (index b : Nat) (size : Word)
  | heapSize (size : Nat)
  | prologue (b : Nat) (size : Word)
  | allocated (index : Option Nat) (b : Nat) (size : Word)
  | free (b : Nat) (size : Word) (flink blink : Nat)
  | differingTags (index : Option Nat) (b : Nat) (size endSize : Word)
  | tooSmall (index : Option Nat) (b : Nat) (size : Word)
  | nextOutside
  | epilogue (b : Nat) (size : Word)
  deriving DecidableEq, Repr

/-- The conversion `%d` of a `long` that is cast to `int`. -/
def decimal (size : Word) : String := toString (size.setWidth 32).toInt

def indexstr : Option Nat → String
  | some index => s!"[{index}]"
  | none => ""

def Printed.text : Printed → String
  | .indexRange => s!"ERROR: index must be between 0 and {numBlocks}\n"
  | .inUse => "ERROR: index already in use\n"
  | .notInUse => "ERROR: index not in use\n"
  | .notAllocated index => s!"block[{index}] is not allocated\n"
  | .allocatedBlock index b size =>
      s!"block[{index}] allocated \tblock at {pointer b} \tsize {decimal size}\n"
  | .heapSize size => s!"heap size: {decimal (BitVec.ofNat 64 size)}\n"
  | .prologue b size => s!"prologue \t\tblock at {pointer b} \tsize {decimal size}\n"
  | .allocated index b size =>
      s!"block{indexstr index} allocated \tblock at {pointer b} \tsize {decimal size}\n"
  | .free b size flink blink =>
      s!"free block \t\tblock at {pointer b} \tsize {decimal size} \t" ++
        s!"Next: {pointer flink}\tPrev: {pointer blink}\n"
  | .differingTags index b size endSize =>
      s!"block{indexstr index} at {pointer b} had differing size tags: " ++
        s!"{decimal size} and {decimal endSize}\n\n"
  | .tooSmall index b size =>
      s!"block{indexstr index} at {pointer b} had too small a size: {decimal size}\n\n"
  | .nextOutside => "next block wasn't in the heap. \n\n"
  | .epilogue b size => s!"epilogue \t\tblock at {pointer b} \tsize {decimal size}\n\n\n"

section Table

variable {σ : Type}

def getReplBlock (i : Nat) : ReplM σ ReplBlock := return (← get).table.blocks i

def setReplBlock (i : Nat) (b : ReplBlock) : ReplM σ Unit :=
  modify fun d =>
    { d with table := { d.table with blocks := Function.update d.table.blocks i b } }

/-- `repl_state->num_ops++` -/
def countOp : ReplM σ Unit :=
  modify fun d => { d with table := { d.table with numOps := d.table.numOps + 1 } }

def replError (c : Complaint) : ReplM σ Unit := do
  let t := (← get).table
  mallocError t.tracenum t.numOps c

def addReplRange (P : Package σ) (lo : Nat) (size : BitVec 32) : ReplM σ Bool := do
  let t := (← get).table
  addRange P lo size t.tracenum t.numOps

/-- The index of a command, if it is one of the table. -/
def indexInTable (index : Int) : Option Nat :=
  if index < 0 ∨ index ≥ numBlocks then none else some index.toNat

end Table

section Commands

variable {σ : Type}

def mallocCmd (P : Package σ) (index : Int) (size : BitVec 32) : ReplM σ (List Printed) := do
  match indexInTable index with
  | none => return [.indexRange]
  | some i =>
      let b ← getReplBlock i
      if b.isValid then
        return [.inUse]
      else
        countOp
        let p ← callMm P i (.malloc (size.signExtend 64))
        if p = null ∧ size ≠ 0 then
          replError .mallocFailed
          return []
        else if size = 0 then
          return []
        else if ← addReplRange P p size then
          fillRange P p i size
          setReplBlock i { b with isValid := true, ptr := p, size := size.signExtend 64 }
          return []
        else
          return []

def freeCmd (P : Package σ) (index : Int) : ReplM σ (List Printed) := do
  match indexInTable index with
  | none => return [.indexRange]
  | some i =>
      let b ← getReplBlock i
      if ¬ b.isValid then
        return [.notInUse]
      else
        countOp
        removeRange b.ptr
        let _ ← callMm P i (.free b.ptr)
        setReplBlock i { b with isValid := false }
        return []

/-- The test whether the index is in use is commented out. -/
def remallocCmd (P : Package σ) (index : Int) (size : BitVec 32) : ReplM σ (List Printed) := do
  match indexInTable index with
  | none => return [.indexRange]
  | some i =>
      let b ← getReplBlock i
      let newp ← callMm P i (.realloc b.ptr (size.signExtend 64))
      if newp = null ∧ size ≠ 0 then
        replError .reallocFailed
        return []
      else if size = 0 then
        return []
      else
        removeRange b.ptr
        if ← addReplRange P newp size then
          if ← checkData P newp i b.size size then
            fillRange P newp i size
            setReplBlock i { b with ptr := newp, size := size.signExtend 64 }
            return []
          else
            replError .notPreserved
            return []
        else
          return []

/-- `exit(1)` after the report, where `mm_init` fails. -/
def resetCmd (P : Package σ) : ReplM σ (List Printed) := do
  resetBrk P
  clearRanges
  if (← onHeap P.mmInit) < 0 then
    mallocError (← get).table.tracenum 0 .initFailed
    throw (.appError Complaint.initFailed.msg)
  else
    modify fun d => { d with table := { d.table with tracenum := d.table.tracenum + 1, numOps := 0 } }
    return []

end Commands

section Printing

/-- The loop of `find_repl_block_from_block` over the `n` blocks from `i` on. -/
def findReplBlock (blocks : Nat → ReplBlock) (b : Nat) :
    (i n : Nat) → Option ReplBlock → Option ReplBlock
  | _, 0, tentative => tentative
  | i, n + 1, tentative =>
      if (blocks i).ptr - 8 = b then
        if (blocks i).isValid then some (blocks i)
        else findReplBlock blocks b (i + 1) n (some (blocks i))
      else findReplBlock blocks b (i + 1) n tentative

def findReplBlockFromBlock (blocks : Nat → ReplBlock) (b replSize : Nat) : Option ReplBlock :=
  findReplBlock blocks b 0 replSize none

def printStatus (index : Option Nat) (b : Nat) : HeapM Printed := do
  if (← blockAllocated b) ≠ 0 then
    return .allocated index b (← blockSize b)
  else
    return .free b (← blockSize b) (← blockFlink b) (← blockBlink b)

/-- What the loop of `mm_print_heap_repl` prints for `b`. -/
def printBlock (blocks : Nat → ReplBlock) (epilogue b : Nat) : HeapM (List Printed) := do
  let index := (findReplBlockFromBlock blocks b numBlocks).map ReplBlock.index
  let line ← printStatus index b
  let s1 ← blockSize b
  let s2 ← blockEndSize b
  let next ← blockNext b
  -- the pointer is to blocks of eight bytes
  return line :: ((if s1 ≠ s2 then [.differingTags index b s1 s2] else []) ++
    (if s1.toInt < minBlockSize.toInt then [.tooSmall index b s1] else []) ++
    (if next > epilogue + minBlockSize.toNat * 8 then [.nextOutside] else []))

def printBlocks (blocks : Nat → ReplBlock) (epilogue : Nat) : Nat → Nat → HeapM (List Printed)
  | 0, _ => throw .diverges
  | fuel + 1, b => do
      if b = epilogue then
        return []
      else
        let lines ← printBlock blocks epilogue b
        return lines ++ (← printBlocks blocks epilogue fuel (← blockNext b))

def mmPrintHeapRepl (blocks : Nat → ReplBlock) : HeapM (List Printed) := do
  let h ← get
  let start := h.memHeapLo
  let size ← blockSize start
  let first ← blockNext start
  let epilogue := h.memHeapHi - tagsSize.toNat + 1
  let lines ← printBlocks blocks epilogue h.memHeapsize first
  return [.heapSize h.memHeapsize, .prologue start size] ++ lines ++
    [.epilogue epilogue (← blockSize epilogue)]

/-- `print -b`, or `print`. -/
def printCmd : Option Int → ReplM Heap (List Printed)
  | some index => do
      match indexInTable index with
      | none => return [.indexRange]
      | some i =>
          let b ← getReplBlock i
          if ¬ b.isValid then
            return [.notAllocated i]
          else if (← onHeap (blockAllocated (b.ptr - 8))) ≠ 0 then
            return [.allocatedBlock i (b.ptr - 8) (← onHeap (blockSize (b.ptr - 8)))]
          else
            return []
  | none => do
      onHeap (mmPrintHeapRepl (← get).table.blocks)

end Printing

/-- A line of the REPL, parsed. -/
inductive Command where
  | malloc (index : Int) (size : BitVec 32)
  | realloc (index : Int) (size : BitVec 32)
  | free (index : Int)
  | reset
  | print (block : Option Int)
  deriving DecidableEq, Repr

def Command.handler : Command → ReplM Heap (List Printed)
  | .malloc index size => mallocCmd mmPackage index size
  | .realloc index size => remallocCmd mmPackage index size
  | .free index => freeCmd mmPackage index
  | .reset => resetCmd mmPackage
  | .print block => printCmd block

/-- The loop of `driver` over the lines of its input. -/
def driverLoop : List Command → ReplM Heap Unit
  | [] => return
  | cmd :: cmds => do
      let _ ← cmd.handler
      driverLoop cmds

def driver (cmds : List Command) : ReplM Heap Unit := do
  let _ ← resetCmd mmPackage
  driverLoop cmds

/-- The state of `driver` before its first `reset_cmd`. -/
def replStart (arena : Arena) (stale : ByteMemory.Memory) : Driver Heap ReplState where
  heap := memInit arena stale
  ranges := []
  errors := []
  issued := []
  table := makeReplState

end MallocLab.Repl
