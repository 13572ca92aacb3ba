import MallocLab.Mm
import MallocLab.Tiling
import MallocLab.WordBits

/-!
The abstract allocator.  A layout is the sequence of blocks between prologue
and epilogue and the order of the free list; it knows no memory contents.
Each request is one replacement of neighbouring blocks.
-/

namespace MallocLab.AbstractLayout

open MallocLab.Machine
open MallocLab.Mm
open MallocLab.Tiling
open MallocLab.WordBits

/-- A block of the heap, tags included. -/
@[ext]
structure Block where
  addr : Nat
  size : Nat
  alloc : Bool
  aligned : size % 8 = 0
  large : 16 ≤ size
  deriving DecidableEq, Repr

namespace Block

def stop (b : Block) : Nat := b.addr + b.size

theorem addr_lt_stop (b : Block) : b.addr < b.stop := by
  have := b.large
  unfold stop
  omega

/-- The block that `b` makes together with the blocks before and after it. -/
def absorb (before : Option Block) (b : Block) (after : Option Block) (alloc : Bool) : Block where
  addr := (before.getD b).addr
  size := (before.elim 0 Block.size) + b.size + (after.elim 0 Block.size)
  alloc := alloc
  aligned := by
    have hb := b.aligned
    rcases before with _ | p <;> rcases after with _ | n
    · simpa using hb
    · have := n.aligned
      simp only [Option.elim]
      omega
    · have := p.aligned
      simp only [Option.elim]
      omega
    · have := p.aligned
      have := n.aligned
      simp only [Option.elim]
      omega
  large := by
    have := b.large
    omega

end Block

/-- A block size `mm_malloc` may look for. -/
structure Need where
  bytes : Nat
  aligned : bytes % 8 = 0
  large : 32 ≤ bytes
  small : bytes < 2 ^ 63

theorem Need.sixteen_le (n : Need) : 16 ≤ n.bytes := (by decide : 16 ≤ 32).trans n.large

theorem requestSize_spec (size : Word) :
    (requestSize size).toNat % 8 = 0 ∧ 32 ≤ (requestSize size).toNat ∧
      (requestSize size).toNat < 2 ^ 63 := by
  have halign : (align size).toNat % 8 = 0 := by
    have : (align size).toNat = (size + (wordSize - 1)).toNat / 8 * 8 :=
      toNat_and_not_seven (size + (wordSize - 1))
    omega
  have hmin : minBlockSize.toInt = 32 := by decide
  have htags : tagsSize.toNat = 16 := by decide
  have hsum : (align size + tagsSize).toNat % 8 = 0 := by
    rw [BitVec.toNat_add, htags]
    omega
  unfold requestSize
  simp only [hmin]
  split
  · decide
  · rename_i hge
    have hlt := (align size + tagsSize).isLt
    rw [BitVec.toInt_eq_toNat_cond] at hge
    refine ⟨hsum, ?_, ?_⟩ <;> split at hge <;> omega

def need (size : Word) : Need where
  bytes := (requestSize size).toNat
  aligned := (requestSize_spec size).1
  large := (requestSize_spec size).2.1
  small := (requestSize_spec size).2.2

theorem requestSize_eq (size : Word) : requestSize size = BitVec.ofNat 64 (need size).bytes := by
  simp [need]

/-- The blocks from `start + 16` to the epilogue at `top`, and the addresses
on the free list from `flist_first` on. -/
structure Layout where
  start : Nat
  top : Nat
  blocks : List Block
  freeList : List Nat

/-- Does `b` follow `c`, or is one of them allocated? -/
def Apart (b c : Block) : Prop := b.alloc = true ∨ c.alloc = true

namespace Layout

def prologue (L : Layout) : Block := ⟨L.start, 16, true, rfl, le_rfl⟩

def epilogue (L : Layout) : Block := ⟨L.top, 16, true, rfl, le_rfl⟩

/-- All blocks of the heap, in address order. -/
def all (L : Layout) : List Block := L.prologue :: L.blocks ++ [L.epilogue]

def brk (L : Layout) : Nat := L.top + 16

def maxAddr (L : Layout) : Nat := L.start + maxHeap

structure WellFormed (L : Layout) : Prop where
  tiles : Tiles Block.addr Block.stop L.start L.all L.brk
  large : ∀ b ∈ L.blocks, 32 ≤ b.size
  mem_free : ∀ a, a ∈ L.freeList ↔ ∃ b ∈ L.all, b.addr = a ∧ b.alloc = false
  nodup : L.freeList.Nodup
  coalesced : L.all.IsChain Apart
  fits : L.brk ≤ L.maxAddr

def blockAt (L : Layout) (a : Nat) : Option Block :=
  L.blocks.find? fun b => b.addr = a

/-- The block before `b`, if it is free. -/
def freeBefore (L : Layout) (b : Block) : Option Block :=
  L.blocks.find? fun c => !c.alloc && c.stop = b.addr

/-- The block after `b`, if it is free. -/
def freeAfter (L : Layout) (b : Block) : Option Block :=
  L.blocks.find? fun c => !c.alloc && c.addr = b.stop

/-- Put the blocks of `new` in the place of those inside `m`. -/
def replace (L : Layout) (m : Block) (new : List Block) : List Block :=
  splice Block.addr m.addr m.stop new L.blocks

def unlist (freeList : List Nat) : Option Block → List Nat
  | none => freeList
  | some b => freeList.erase b.addr

/-- Allocate `b` together with the given free neighbours. -/
def grow (L : Layout) (before : Option Block) (b : Block) (after : Option Block) : Layout :=
  let m := b.absorb before after true
  { L with
    blocks := L.replace m [m]
    freeList := unlist (unlist L.freeList after) before }

/-- Free `b` and merge it with its free neighbours. -/
def release (L : Layout) (b : Block) : Layout :=
  let before := L.freeBefore b
  let after := L.freeAfter b
  let m := b.absorb before after false
  { L with
    blocks := L.replace m [m]
    freeList := m.addr :: unlist (unlist L.freeList before) after }

/-- Allocate `n.bytes` of the free block `x`, and keep the rest as a free block
if it is large enough for one. -/
def place (L : Layout) (x : Block) (n : Need) : Layout :=
  if h : 32 ≤ x.size - n.bytes then
    let used : Block := ⟨x.addr, n.bytes, true, n.aligned, (by decide : 16 ≤ 32).trans n.large⟩
    let rest : Block := ⟨x.addr + n.bytes, x.size - n.bytes, false,
      by have := x.aligned; have := n.aligned; omega, by omega⟩
    { L with
      blocks := L.replace x [used, rest]
      freeList := rest.addr :: L.freeList.erase x.addr }
  else
    { L with
      blocks := L.replace x [{ x with alloc := true }]
      freeList := L.freeList.erase x.addr }

/-- Allocate a new block over the old epilogue. -/
def extend (L : Layout) (n : Need) : Layout :=
  { L with
    top := L.top + n.bytes
    blocks := L.blocks ++ [⟨L.top, n.bytes, true, n.aligned, (by decide : 16 ≤ 32).trans n.large⟩] }

/-- The first block of the free list that is large enough. -/
def firstFit (L : Layout) (n : Need) : Option Block :=
  L.freeList.findSome? fun a => (L.blockAt a).filter fun b => n.bytes ≤ b.size

def malloc (L : Layout) (size : Word) : Layout × Nat :=
  if size = 0 then (L, null)
  else match L.firstFit (need size) with
    | some x => (L.place x (need size), x.addr + 8)
    | none =>
        if L.brk + (need size).bytes ≤ L.maxAddr then
          (L.extend (need size), L.top + 8)
        else (L, null)

def free (L : Layout) (ptr : Nat) : Layout :=
  match L.blockAt (ptr - 8) with
  | some b => if b.alloc then L.release b else L
  | none => L

/-- The free neighbours that `mm_realloc` joins to `b` to reach `bSize` bytes. -/
def growth (L : Layout) (b : Block) (bSize : Int) : Option (Option Block × Option Block) :=
  let fits (before after : Option Block) : Bool := bSize ≤ (b.absorb before after true).size
  match L.freeBefore b, L.freeAfter b with
  | none, none => none
  | some p, none => if fits (some p) none then some (some p, none) else none
  | none, some n => if fits none (some n) then some (none, some n) else none
  | some p, some n =>
      if fits (some p) none then some (some p, none)
      else if fits none (some n) then some (none, some n)
      else if fits (some p) (some n) then some (some p, some n)
      else none

def reallocBlock (L : Layout) (b : Block) (size : Word) : Layout × Nat :=
  let bSize := align size + tagsSize
  if bSize.toInt ≤ b.size then (L, b.addr + 8)
  else match L.growth b bSize.toInt with
    | some (before, after) =>
        (L.grow before b after, (b.absorb before after true).addr + 8)
    | none =>
        match L.malloc bSize with
        | (L', q) => if q = null then (L, null) else (L'.free (b.addr + 8), q)

def realloc (L : Layout) (ptr : Nat) (size : Word) : Layout × Nat :=
  if ptr = null then ((L.malloc size).1, null)
  else if size = 0 then (L.free ptr, null)
  else match L.blockAt (ptr - 8) with
    | some b => L.reallocBlock b size
    | none => (L, null)

end Layout

end MallocLab.AbstractLayout
