import MallocLab.Runs

/-!
A malloc package as the driver sees it: the functions of `mm.h` and `memlib.h`,
and the bytes of the heap, which the driver fills and reads itself.
-/

namespace MallocLab.MallocPackage

open MallocLab.ByteMemory
open MallocLab.Machine
open MallocLab.Mm
open MallocLab.HeapPrograms
open MallocLab.Runs

/-- `σ` is all the state there is behind the interface. -/
structure Package (σ : Type) where
  memResetBrk : StateT σ (Except Fault) Unit
  mmInit : StateT σ (Except Fault) Int
  mmMalloc : Word → StateT σ (Except Fault) Nat
  mmFree : Nat → StateT σ (Except Fault) Unit
  mmRealloc : Nat → Word → StateT σ (Except Fault) Nat
  memHeapLo : σ → Nat
  memHeapHi : σ → Nat
  memHeapsize : σ → Nat
  readByte : σ → Nat → Except Fault (BitVec 8)
  memset : Nat → BitVec 8 → Nat → StateT σ (Except Fault) Unit

/-- Execute a call; `mm_free` counts as returning `NULL`. -/
def Package.exec {σ : Type} (P : Package σ) : Call → StateT σ (Except Fault) Nat
  | .malloc size => P.mmMalloc size
  | .free ptr => do
      P.mmFree ptr
      return null
  | .realloc ptr size => P.mmRealloc ptr size

def readByte (h : Heap) (a : Nat) : Except Fault (BitVec 8) :=
  if h.InHeap a 1 then .ok (h.memory a) else .error (.outOfHeap a)

/-- `memset` of libc, on the heap. -/
def memset (a : Nat) (c : BitVec 8) (n : Nat) : HeapM Unit := do
  let h ← get
  if h.InHeap a n then set { h with memory := fill h.memory a c n }
  else throw (.outOfHeap a)

/-- The package of `mm.c`. -/
def mmPackage : Package Heap where
  memResetBrk := memResetBrk
  mmInit := mmInit
  mmMalloc := mmMalloc
  mmFree := mmFree
  mmRealloc := mmRealloc
  memHeapLo := Heap.memHeapLo
  memHeapHi := Heap.memHeapHi
  memHeapsize := Heap.memHeapsize
  readByte := readByte
  memset := memset

theorem exec_mmPackage (c : Call) : mmPackage.exec c = c.exec := by
  cases c with
  | malloc size => rfl
  | free ptr => rfl
  | realloc ptr size => rfl

variable {h : Heap} {a n : Nat}

theorem readByte_of_inHeap (ha : h.InHeap a 1) : readByte h a = .ok (h.memory a) := if_pos ha

theorem memset_run (ha : h.InHeap a n) (c : BitVec 8) :
    (memset a c n).run h = .ok ((), { h with memory := fill h.memory a c n }) := by
  rw [memset, run_bind_of_ok (run_get h), if_pos ha]
  rfl

end MallocLab.MallocPackage
