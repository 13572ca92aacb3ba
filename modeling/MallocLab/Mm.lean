import MallocLab.Mminline

/-!
The allocator of `mm.c`.
-/

namespace MallocLab.Mm

open MallocLab.Machine
open MallocLab.Mminline

def align (size : Word) : Word :=
  (size + (wordSize - 1)) &&& ~~~(wordSize - 1)

/-- The first test of `coalescing`: a free `prev` takes in `block`. -/
def coalescePrev (prev block : Nat) : HeapM Unit := do
  if (← blockAllocated prev) = 0 then
    pullFreeBlock prev
    let newSize := (← blockSize prev) + (← blockSize block)
    blockSetSizeAndAllocated prev newSize 0

def coalescing (block : Nat) : HeapM Unit := do
  let next ← blockNext block
  let prev ← blockPrev block
  pullFreeBlock block
  coalescePrev prev block
  if (← blockAllocated next) = 0 then
    if (← blockAllocated prev) = 0 then
      pullFreeBlock next
      let newSize := (← blockSize next) + (← blockSize prev)
      blockSetSizeAndAllocated prev newSize 0
      insertFreeBlock prev
    else
      pullFreeBlock next
      let newSize := (← blockSize next) + (← blockSize block)
      blockSetSizeAndAllocated block newSize 0
      insertFreeBlock block
  else if (← blockAllocated prev) = 0 then
    insertFreeBlock prev
  else
    insertFreeBlock block

/-- Zero on success and minus one when the arena has no room. -/
def mmInit : HeapM Int := do
  setFlistFirst null
  let p ← memSbrk (tagsSize.setWidth 32)
  modify fun h => { h with prologue := p }
  if p = sbrkFailed then
    return -1
  else
    let e ← memSbrk (tagsSize.setWidth 32)
    modify fun h => { h with epilogue := e }
    if e = sbrkFailed then
      return -1
    else
      blockSetSizeAndAllocated (← get).prologue tagsSize 1
      blockSetSizeAndAllocated (← get).epilogue tagsSize 1
      return 0

/-- The body of the search loop of `mm_malloc` for a block that is large
enough: take it off the list, and split it if the rest makes a block. -/
def placeBlock (currBlock : Nat) (bSize : Word) : HeapM Nat := do
  pullFreeBlock currBlock
  let freeSize := (← blockSize currBlock) - bSize
  if freeSize.toInt ≥ minBlockSize.toInt then
    blockSetSizeAndAllocated currBlock bSize 1
    blockSetSizeAndAllocated (← blockNext currBlock) freeSize 0
    insertFreeBlock (← blockNext currBlock)
  else
    blockSetAllocated currBlock 1
  return payload currBlock

/-- The search loop of `mm_malloc`; `none` when it ends without a block.  A
walk of `fuel` blocks that has not come back to `flist_first` never does. -/
def searchFreeList (bSize : Word) : Nat → Nat → HeapM (Option Nat)
  | 0, _ => throw .diverges
  | fuel + 1, currBlock => do
      if currBlock = null then
        return none
      else if (← blockSize currBlock).toInt ≥ bSize.toInt then
        return some (← placeBlock currBlock bSize)
      else
        let currBlock ← blockFlink currBlock
        if currBlock = (← getFlistFirst) then
          return none
        else
          searchFreeList bSize fuel currBlock

/-- The end of `mm_malloc`: extend the heap over the old epilogue. -/
def extendHeap (bSize : Word) : HeapM Nat := do
  -- the `long` is converted to the `int` parameter of `mem_sbrk`
  let newBlock ← memSbrk (bSize.setWidth 32)
  if newBlock = sbrkFailed then
    return null
  else
    let newBlock := (← get).epilogue
    blockSetSizeAndAllocated newBlock bSize 1
    let e ← blockNext newBlock
    modify fun h => { h with epilogue := e }
    blockSetSizeAndAllocated e tagsSize 1
    return payload newBlock

/-- The block size `mm_malloc` looks for. -/
def requestSize (size : Word) : Word :=
  let bSize := align size + tagsSize
  if bSize.toInt < minBlockSize.toInt then minBlockSize else bSize

def mmMalloc (size : Word) : HeapM Nat := do
  if size = 0 then
    return null
  else
    let h ← get
    match ← searchFreeList (requestSize size) h.memHeapsize h.flistFirst with
    | some p => return p
    | none => extendHeap (requestSize size)

def mmFree (ptr : Nat) : HeapM Unit := do
  if ptr = null then
    return
  else
    let block := payloadToBlock ptr
    if (← blockAllocated block) = 0 then
      return
    else
      blockSetAllocated block 0
      insertFreeBlock block
      coalescing block

/-- The end of the last branch of `mm_realloc`, for the result of `mm_malloc`. -/
def moveToNew (newptr ptr : Nat) (oldSize : Word) : HeapM Unit := do
  if newptr ≠ null then
    memmove newptr ptr oldSize
    mmFree ptr

def isFree (b : Nat) : HeapM Bool :=
  return decide ((← blockAllocated b) = 0)

def mmRealloc (ptr : Nat) (size : Word) : HeapM Nat := do
  if ptr = null then
    -- the pointer `mm_malloc` returns is dropped
    let _ ← mmMalloc size
    return null
  else if size = 0 then
    mmFree ptr
    return null
  else
    let original := payloadToBlock ptr
    let bSize := align size + tagsSize
    let oldSize ← blockSize original
    if oldSize.toInt ≥ bSize.toInt then
      return ptr
    else
      let next ← blockNext original
      let prev ← blockPrev original
      if ← (isFree prev <&&> do
          return decide ((oldSize + (← blockSize prev)).toInt ≥ bSize.toInt)) then
        pullFreeBlock prev
        blockSetSizeAndAllocated prev (oldSize + (← blockSize prev)) 1
        memmove (payload prev) ptr oldSize
        return payload prev
      else if ← (isFree next <&&> do
          return decide ((oldSize + (← blockSize next)).toInt ≥ bSize.toInt)) then
        let next ← blockNext original
        pullFreeBlock next
        blockSetSizeAndAllocated original (oldSize + (← blockSize next)) 1
        return payload original
      else if ← (isFree prev <&&> isFree next <&&> do
          return decide ((oldSize + (← blockSize prev) + (← blockSize next)).toInt ≥
            bSize.toInt)) then
        pullFreeBlock next
        pullFreeBlock prev
        blockSetSizeAndAllocated prev (oldSize + (← blockSize next) + (← blockSize prev)) 1
        memmove (payload prev) ptr oldSize
        return payload prev
      else
        let newptr ← mmMalloc bSize
        moveToNew newptr ptr oldSize
        return newptr

end MallocLab.Mm
