import MallocLab.Reallocation
import MallocLab.RequestArithmetic

/-!
Runs of a client: calls of the allocator and writes into live payloads, from a
successful `mm_init` on.  Every reachable heap represents a layout in which
each live pointer has an allocated block of its own.
-/

namespace MallocLab.Runs

open MallocLab.Machine
open MallocLab.Mminline
open MallocLab.Mm
open MallocLab.HeapPrograms
open MallocLab.AbstractLayout
open MallocLab.AbstractLayout.Layout
open MallocLab.HeapInvariant
open MallocLab.Representation
open MallocLab.HeapGrowth
open MallocLab.Allocation
open MallocLab.Reallocation
open MallocLab.RequestArithmetic

inductive Call where
  | malloc (size : Word)
  | free (ptr : Nat)
  | realloc (ptr : Nat) (size : Word)
  deriving DecidableEq, Repr

/-- Execute a call; `mm_free` counts as returning `NULL`. -/
def Call.exec : Call → HeapM Nat
  | .malloc size => mmMalloc size
  | .free ptr => do
      mmFree ptr
      return null
  | .realloc ptr size => mmRealloc ptr size

/-- The pointers the client holds, each with the size it last asked for. -/
abbrev Live := List (Nat × Word)

/-- The live pointers after a call that returned `q`. -/
def liveAfter (live : Live) : Call → Nat → Live
  | .malloc size, q => if q = null then live else (q, size) :: live
  | .free ptr, _ => live.filter fun e => e.1 ≠ ptr
  | .realloc ptr size, q =>
      if ptr = null then
        if q = null then live else (q, size) :: live
      else if size = 0 then live.filter fun e => e.1 ≠ ptr
      else if q = null then live
      else (q, size) :: live.filter fun e => e.1 ≠ ptr

/-- The pointer argument is `NULL` or live. -/
def Call.Legal (live : Live) : Call → Prop
  | .malloc _ => True
  | .free ptr => ptr = null ∨ ∃ size, (ptr, size) ∈ live
  | .realloc ptr _ => ptr = null ∨ ∃ size, (ptr, size) ∈ live

/-- A size of type `int`. -/
def IsInt (size : Word) : Prop := -2 ^ 31 ≤ size.toInt ∧ size.toInt < 2 ^ 31

def Call.IntSized : Call → Prop
  | .malloc size => IsInt size
  | .free _ => True
  | .realloc _ size => IsInt size

structure Config where
  heap : Heap
  live : Live

/-- `x` is a requested byte of a live pointer, or at least one of the
`block_size - 16` bytes behind it. -/
def Writable (cfg : Config) (x : Nat) : Prop :=
  ∃ e ∈ cfg.live, e.1 ≤ x ∧
    ((x : Int) < e.1 + e.2.toInt ∨ x + 16 < e.1 + (cfg.heap.word (e.1 - 8) &&& -2#64).toNat)

def writeByte (h : Heap) (x : Nat) (v : BitVec 8) : Heap :=
  { h with memory := Function.update h.memory x v }

/-- One step of a client whose calls are among those that `admits` allows. -/
inductive Step (admits : Config → Call → Prop) : Config → Config → Prop where
  | call {cfg : Config} {c : Call} {q : Nat} {h' : Heap} (hlegal : c.Legal cfg.live)
      (hadmits : admits cfg c) (hrun : c.exec.run cfg.heap = .ok (q, h')) :
      Step admits cfg ⟨h', liveAfter cfg.live c q⟩
  | write {cfg : Config} {x : Nat} (v : BitVec 8) (hx : Writable cfg x) :
      Step admits cfg ⟨writeByte cfg.heap x v, cfg.live⟩

/-- What `mem_init` or `mem_reset_brk` leaves. -/
inductive Fresh : Heap → Prop where
  | memInit (arena : Arena) (stale : ByteMemory.Memory) : Fresh (memInit arena stale)
  | memResetBrk {h h' : Heap} (hrun : memResetBrk.run h = .ok ((), h')) : Fresh h'

inductive Reachable (admits : Config → Call → Prop) : Config → Prop where
  | init {h h' : Heap} (hfresh : Fresh h) (hrun : mmInit.run h = .ok (0, h')) :
      Reachable admits ⟨h', []⟩
  | step {cfg cfg' : Config} (hreach : Reachable admits cfg) (hstep : Step admits cfg cfg') :
      Reachable admits cfg'

theorem Fresh.memBrk {h : Heap} (hfresh : Fresh h) : h.memBrk = h.memStartBrk := by
  cases hfresh with
  | memInit arena stale => rfl
  | memResetBrk hrun =>
      cases hrun
      rfl

section Ownership

variable {A B : Set Block} {live : Live} {b u : Block} {size : Word}

/-- Every live pointer has a block of `A` of its own, large enough. -/
structure Owned (A : Set Block) (live : Live) : Prop where
  nodup : (live.map Prod.fst).Nodup
  block : ∀ e ∈ live, ∃ b ∈ A, b.addr + 8 = e.1 ∧ e.2.toInt + 16 ≤ b.size

/-- Every block of `A` belongs to a live pointer. -/
def NoOrphan (A : Set Block) (live : Live) : Prop :=
  ∀ b ∈ A, ∃ size, (b.addr + 8, size) ∈ live

theorem Owned.mono (hO : Owned A live) (hAB : A ⊆ B) : Owned B live where
  nodup := hO.nodup
  block e he := by
    obtain ⟨b, hb, hrest⟩ := hO.block e he
    exact ⟨b, hAB hb, hrest⟩

theorem Owned.filter (hO : Owned A live) (q : Nat × Word → Bool) : Owned A (live.filter q) where
  nodup := hO.nodup.sublist (List.filter_sublist.map Prod.fst)
  block e he := hO.block e (List.mem_filter.mp he).1

theorem Owned.insert (hO : Owned A live) (hfresh : ∀ c ∈ A, c.addr ≠ u.addr)
    (hlarge : size.toInt + 16 ≤ u.size) : Owned (insert u A) ((u.addr + 8, size) :: live) := by
  constructor
  · rw [List.map_cons, List.nodup_cons]
    refine ⟨fun hmem => ?_, hO.nodup⟩
    obtain ⟨e, he, heq⟩ := List.mem_map.mp hmem
    obtain ⟨c, hc, hce, -⟩ := hO.block e he
    exact hfresh c hc (Nat.add_right_cancel (hce.trans heq))
  · intro e he
    rcases List.mem_cons.mp he with rfl | he
    · exact ⟨u, .inl rfl, rfl, hlarge⟩
    · obtain ⟨c, hc, hrest⟩ := hO.block e he
      exact ⟨c, .inr hc, hrest⟩

theorem Owned.remove (hO : Owned A live) :
    Owned (A \ {b}) (live.filter fun e => e.1 ≠ b.addr + 8) := by
  refine ⟨(hO.filter _).nodup, fun e he => ?_⟩
  obtain ⟨hmem, hne⟩ := List.mem_filter.mp he
  obtain ⟨c, hc, hce, hlarge⟩ := hO.block e hmem
  refine ⟨c, ⟨hc, ?_⟩, hce, hlarge⟩
  rintro rfl
  exact of_decide_eq_true hne hce.symm

theorem NoOrphan.insert (hN : NoOrphan A live) :
    NoOrphan (insert u A) ((u.addr + 8, size) :: live) := by
  rintro c (rfl | hc)
  · exact ⟨size, List.mem_cons_self⟩
  · obtain ⟨s, hs⟩ := hN c hc
    exact ⟨s, List.mem_cons_of_mem _ hs⟩

theorem NoOrphan.remove (hN : NoOrphan A live) (hinj : ∀ c ∈ A, c.addr = b.addr → c = b) :
    NoOrphan (A \ {b}) (live.filter fun e => e.1 ≠ b.addr + 8) := by
  rintro c ⟨hc, hne⟩
  obtain ⟨s, hs⟩ := hN c hc
  refine ⟨s, List.mem_filter.mpr ⟨hs, decide_eq_true fun heq => hne ?_⟩⟩
  exact hinj c hc (Nat.add_right_cancel heq)

end Ownership

/-- What holds of every reachable configuration. -/
structure Invariant (cfg : Config) (L : Layout) : Prop where
  represents : Represents cfg.heap L
  owned : Owned L.allocated cfg.live

section Abstract

variable {L : Layout} {live : Live} {b : Block} {size : Word}

/-- A call as the layout sees it. -/
def execLayout (L : Layout) : Call → Layout × Nat
  | .malloc size => L.malloc size
  | .free ptr => (if ptr = null then L else L.free ptr, null)
  | .realloc ptr size => L.realloc ptr size

/-- `mm_malloc` returns `NULL` or all of the bytes asked for. -/
def MallocServes (L : Layout) (size : Word) : Prop :=
  MallocSafe L size ∧ ((L.malloc size).2 = null ∨ size.toInt + 23 < 2 ^ 63)

def ReallocServes (L : Layout) (b : Block) (size : Word) : Prop :=
  ReallocSafe L b size ∧ ((L.reallocBlock b size).2 = null ∨ size.toInt + 23 < 2 ^ 63)

def Serves (L : Layout) : Call → Prop
  | .malloc size => MallocServes L size
  | .free _ => True
  | .realloc ptr size =>
      if ptr = null then MallocSafe L size
      else size = 0 ∨ ∀ b ∈ L.allocated, b.addr + 8 = ptr → ReallocServes L b size

theorem sbrkExact_of_lt {n : Need} (hlt : n.bytes < 2 ^ 32) : SbrkExact L n := by
  rcases Nat.lt_or_ge n.bytes (2 ^ 31) with hsmall | hlarge
  · have harg := sbrkArgument_of_lt hsmall
    unfold SbrkExact
    omega
  · refine .inr (.inl ?_)
    unfold sbrkArgument
    rw [BitVec.toInt_eq_toNat_cond, BitVec.toNat_ofNat]
    split <;> omega

theorem mallocSafe_of_lt (hsize : size.toInt < 2 ^ 31 + 2 ^ 30) : MallocSafe L size := by
  refine .inr (.inr (sbrkExact_of_lt ?_))
  have hneed := need_eq (show size.toInt + 23 < 2 ^ 63 by omega)
  unfold rounded at hneed
  omega

theorem mallocServes_of_lt (hlt : size.toInt < 2 ^ 31) : MallocServes L size :=
  ⟨mallocSafe_of_lt (by omega), .inr (by omega)⟩

theorem reallocServes_of_lt (hlt : size.toInt < 2 ^ 31) : ReallocServes L b size := by
  have hsum := toInt_align_add (show size.toInt + 23 < 2 ^ 63 by omega)
  have hrounded : rounded size.toInt ≤ size.toInt + 23 := by
    unfold rounded
    omega
  refine ⟨?_, .inr (by omega)⟩
  rcases lt_or_ge (b.size : Int) (align size + tagsSize).toInt with hlarge | hfits
  · refine .inr (.inr ⟨mallocSafe_of_lt (by omega), .inr ?_⟩)
    have hneed := need_eq (show (align size + tagsSize).toInt + 23 < 2 ^ 63 by omega)
    have hle := le_rounded (align size + tagsSize).toInt
    omega
  · exact .inl hfits

theorem serves_of_int {c : Call} (hint : c.IntSized) : Serves L c := by
  cases c with
  | malloc size => exact mallocServes_of_lt hint.2
  | free ptr => trivial
  | realloc ptr size =>
      change if ptr = null then _ else _
      split
      · exact (mallocServes_of_lt hint.2).1
      · exact .inr fun b _ _ => reallocServes_of_lt hint.2

theorem granted_fresh {L' : Layout} {u : Block} {k : Nat} (hu : Granted L L' u k) :
    ∀ c ∈ L.allocated, c.addr ≠ u.addr := by
  intro c hc heq
  have hd := hu.fresh c hc
  have hcpos := c.addr_lt_stop
  have hupos := u.addr_lt_stop
  omega

/-- The layout after `mm_malloc` serves one more pointer, or nothing changed. -/
theorem owned_malloc (hL : L.WellFormed) (hO : Owned L.allocated live)
    (hserved : (L.malloc size).2 = null ∨ size.toInt + 23 < 2 ^ 63) :
    Owned (L.malloc size).1.allocated (liveAfter live (.malloc size) (L.malloc size).2) := by
  rcases hL.malloc_cases size with ⟨hlayout, hnull⟩ | ⟨u, haddr, -, hu⟩
  · rw [hlayout, hnull]
    exact hO
  · have hne : (L.malloc size).2 ≠ null := by
      rw [← haddr]
      exact Nat.succ_ne_zero _
    have hneed := need_eq (hserved.resolve_left hne)
    have hle := le_rounded size.toInt
    have hlarge := hu.large
    rw [hu.allocated, liveAfter, if_neg hne, ← haddr]
    exact hO.insert (granted_fresh hu) (by omega)

theorem noOrphan_malloc (hL : L.WellFormed) (hN : NoOrphan L.allocated live) :
    NoOrphan (L.malloc size).1.allocated (liveAfter live (.malloc size) (L.malloc size).2) := by
  rcases hL.malloc_cases size with ⟨hlayout, hnull⟩ | ⟨u, haddr, -, hu⟩
  · rw [hlayout, hnull]
    exact hN
  · have hne : (L.malloc size).2 ≠ null := by
      rw [← haddr]
      exact Nat.succ_ne_zero _
    rw [hu.allocated, liveAfter, if_neg hne, ← haddr]
    exact hN.insert

theorem allocated_malloc_mono (hL : L.WellFormed) (size : Word) :
    L.allocated ⊆ (L.malloc size).1.allocated := by
  rcases hL.malloc_cases size with ⟨hlayout, -⟩ | ⟨u, -, -, hu⟩
  · rw [hlayout]
  · rw [hu.allocated]
    exact Set.subset_insert u _

theorem owned_realloc (hL : L.WellFormed) (hb : b ∈ L.allocated) (hsize : size ≠ 0)
    (hO : Owned L.allocated live) (hserves : ReallocServes L b size) :
    Owned (L.reallocBlock b size).1.allocated
      (liveAfter live (.realloc (b.addr + 8) size) (L.reallocBlock b size).2) := by
  have hptr : b.addr + 8 ≠ null := Nat.succ_ne_zero _
  rw [liveAfter, if_neg hptr, if_neg hsize]
  rcases Decidable.em ((L.reallocBlock b size).2 = null) with hnull | hne
  · rw [if_pos hnull, WellFormed.reallocBlock_of_null hnull]
    exact hO
  · obtain ⟨u, haddr, -, -, halloc, hlarge, hfresh⟩ := hL.reallocBlock_granted hb hne
    obtain ⟨hsafe, hserved⟩ := hserves
    have hsum := toInt_align_add (hserved.resolve_left hne)
    have hle := le_rounded size.toInt
    rw [if_neg hne, halloc, ← haddr]
    refine hO.remove.insert ?_ ?_
    · rintro c ⟨hc, hcb⟩ heq
      have hd := hfresh c hc hcb
      have hcpos := c.addr_lt_stop
      have hupos := u.addr_lt_stop
      omega
    · rcases hlarge with hlarge | ⟨hfits, hgrow, hmalloc, hlarge⟩
      · omega
      · -- the request to `mm_malloc` does not wrap, since the copy fits
        have hroom := ((hsafe.resolve_left hfits).resolve_left fun hsome => by
          rw [hgrow] at hsome
          cases hsome).2.resolve_left hmalloc
        have hblarge := hL.large b hb.1
        rcases lt_or_ge ((align size + tagsSize).toInt + 23) (2 ^ 63) with hlt | hge
        · have hneed := need_eq hlt
          have hle' := le_rounded (align size + tagsSize).toInt
          omega
        · have hneed := need_eq_of_overflow hge
          omega

theorem noOrphan_realloc (hL : L.WellFormed) (hb : b ∈ L.allocated) (hsize : size ≠ 0)
    (hN : NoOrphan L.allocated live) :
    NoOrphan (L.reallocBlock b size).1.allocated
      (liveAfter live (.realloc (b.addr + 8) size) (L.reallocBlock b size).2) := by
  have hptr : b.addr + 8 ≠ null := Nat.succ_ne_zero _
  rw [liveAfter, if_neg hptr, if_neg hsize]
  rcases Decidable.em ((L.reallocBlock b size).2 = null) with hnull | hne
  · rw [if_pos hnull, WellFormed.reallocBlock_of_null hnull]
    exact hN
  · obtain ⟨u, haddr, -, -, halloc, -, -⟩ := hL.reallocBlock_granted hb hne
    rw [if_neg hne, halloc, ← haddr]
    refine (hN.remove fun c hc heq => ?_).insert
    exact hL.eq_of_addr_eq (WellFormed.mem_all_of_mem hc.1) (WellFormed.mem_all_of_mem hb.1) heq

theorem noOrphan_release (hL : L.WellFormed) (hb : b ∈ L.allocated)
    (hN : NoOrphan L.allocated live) :
    NoOrphan (L.release b).allocated (live.filter fun e => e.1 ≠ b.addr + 8) := by
  rw [hL.allocated_release hb.1]
  refine hN.remove fun c hc heq => ?_
  exact hL.eq_of_addr_eq (WellFormed.mem_all_of_mem hc.1) (WellFormed.mem_all_of_mem hb.1) heq

theorem owned_release (hL : L.WellFormed) (hb : b ∈ L.allocated) (hO : Owned L.allocated live) :
    Owned (L.release b).allocated (live.filter fun e => e.1 ≠ b.addr + 8) := by
  rw [hL.allocated_release hb.1]
  exact hO.remove

theorem realloc_addr (hL : L.WellFormed) (hb : b ∈ L.allocated) (hsize : size ≠ 0) :
    L.realloc (b.addr + 8) size = L.reallocBlock b size := by
  have hat : L.blockAt (b.addr + 8 - 8) = some b := by
    rw [Nat.add_sub_cancel]
    exact hL.blockAt_addr hb.1
  rw [Layout.realloc, if_neg (Nat.succ_ne_zero _), if_neg hsize, hat]

theorem realloc_addr_zero (hL : L.WellFormed) (hb : b ∈ L.allocated) :
    L.realloc (b.addr + 8) 0 = (L.release b, null) := by
  rw [Layout.realloc, if_neg (Nat.succ_ne_zero _), if_pos rfl, hL.free_addr hb]

end Abstract

section Calls

variable {h : Heap} {cfg : Config} {L : Layout} {b : Block} {c : Call} {ptr : Nat} {size : Word}

theorem Invariant.block_of_live (hI : Invariant cfg L) (hlive : (ptr, size) ∈ cfg.live) :
    ∃ b ∈ L.allocated, b.addr + 8 = ptr ∧ size.toInt + 16 ≤ b.size :=
  hI.owned.block (ptr, size) hlive

theorem mmRealloc_null_run {q : Nat} {h' : Heap} (hrun : (mmMalloc size).run h = .ok (q, h')) :
    (mmRealloc null size).run h = .ok (null, h') := by
  rw [mmRealloc, if_pos rfl, run_bind_of_ok hrun]
  rfl

theorem mmRealloc_zero_run {h' : Heap} (hptr : ptr ≠ null)
    (hrun : (mmFree ptr).run h = .ok ((), h')) : (mmRealloc ptr 0).run h = .ok (null, h') := by
  rw [mmRealloc, if_neg hptr, if_pos rfl, run_bind_of_ok hrun]
  rfl

/-- Every call returns, does to the heap what it does to the layout, and keeps
the invariant. -/
theorem exec_run (hI : Invariant cfg L) (hlegal : c.Legal cfg.live) (hserves : Serves L c) :
    ∃ h', c.exec.run cfg.heap = .ok ((execLayout L c).2, h') ∧
      Invariant ⟨h', liveAfter cfg.live c (execLayout L c).2⟩ (execLayout L c).1 := by
  obtain ⟨hR, hO⟩ := hI
  have hL := hR.wellFormed
  cases c with
  | malloc size =>
      obtain ⟨h', hrun, hR', -⟩ := mmMalloc_run hR hserves.1
      exact ⟨h', hrun, hR', owned_malloc hL hO hserves.2⟩
  | free ptr =>
      rcases hlegal with rfl | ⟨size, hlive⟩
      · exact ⟨cfg.heap, rfl, hR, hO.filter _⟩
      · obtain ⟨b, hb, rfl, -⟩ := hO.block _ hlive
        have hptr : b.addr + 8 ≠ null := Nat.succ_ne_zero _
        obtain ⟨h', hrun, hR', -⟩ := hR.mmFree hb.1 hb.2
        refine ⟨h', run_bind_of_ok hrun, ?_⟩
        simp only [execLayout, if_neg hptr, hL.free_addr hb]
        exact ⟨hR', owned_release hL hb hO⟩
  | realloc ptr size =>
      rcases hlegal with rfl | ⟨old, hlive⟩
      · obtain ⟨h', hrun, hR', -⟩ := mmMalloc_run hR hserves
        exact ⟨h', mmRealloc_null_run hrun, hR', hO.mono (allocated_malloc_mono hL size)⟩
      · obtain ⟨b, hb, rfl, -⟩ := hO.block _ hlive
        have hptr : b.addr + 8 ≠ null := Nat.succ_ne_zero _
        simp only [Serves, if_neg hptr] at hserves
        rcases Decidable.em (size = 0) with rfl | hsize
        · obtain ⟨h', hrun, hR', -⟩ := hR.mmFree hb.1 hb.2
          refine ⟨h', ?_, ?_⟩
          · simp only [execLayout, realloc_addr_zero hL hb]
            exact mmRealloc_zero_run hptr hrun
          · simp only [execLayout, realloc_addr_zero hL hb, liveAfter, if_neg hptr, if_pos]
            exact ⟨hR', owned_release hL hb hO⟩
        · have hserves' := hserves.resolve_left hsize b hb rfl
          obtain ⟨h', hrun, hR', -⟩ := mmRealloc_run hR hb hsize hserves'.1
          simp only [execLayout, realloc_addr hL hb hsize]
          exact ⟨h', hrun, hR', owned_realloc hL hb hsize hO hserves'⟩

/-- No call but `mm_realloc(NULL, size)` leaves a block that belongs to nobody. -/
theorem noOrphan_exec (hI : Invariant cfg L) (hlegal : c.Legal cfg.live)
    (hN : NoOrphan L.allocated cfg.live)
    (hnull : ∀ size, c = .realloc null size → (L.malloc size).2 = null) :
    NoOrphan (execLayout L c).1.allocated (liveAfter cfg.live c (execLayout L c).2) := by
  have hL := hI.represents.wellFormed
  cases c with
  | malloc size => exact noOrphan_malloc hL hN
  | free ptr =>
      rcases hlegal with rfl | ⟨size, hlive⟩
      · intro b hb
        obtain ⟨size, hmem⟩ := hN b hb
        exact ⟨size, List.mem_filter.mpr ⟨hmem, decide_eq_true (Nat.succ_ne_zero _)⟩⟩
      · obtain ⟨b, hb, rfl, -⟩ := hI.block_of_live hlive
        have hptr : b.addr + 8 ≠ null := Nat.succ_ne_zero _
        simp only [execLayout, if_neg hptr, hL.free_addr hb]
        exact noOrphan_release hL hb hN
  | realloc ptr size =>
      rcases hlegal with rfl | ⟨old, hlive⟩
      · have hsame := hL.malloc_of_null (hnull size rfl)
        simp only [execLayout, Layout.realloc, if_pos, hsame]
        exact hN
      · obtain ⟨b, hb, rfl, -⟩ := hI.block_of_live hlive
        have hptr : b.addr + 8 ≠ null := Nat.succ_ne_zero _
        rcases Decidable.em (size = 0) with rfl | hsize
        · simp only [execLayout, realloc_addr_zero hL hb, liveAfter, if_neg hptr, if_pos]
          exact noOrphan_release hL hb hN
        · simp only [execLayout, realloc_addr hL hb hsize]
          exact noOrphan_realloc hL hb hsize hN

/-- A client write stays inside the payload of a block of the client. -/
theorem Invariant.writable (hI : Invariant cfg L) {x : Nat} (hx : Writable cfg x) :
    ∃ b ∈ L.allocated, (∃ size, (b.addr + 8, size) ∈ cfg.live) ∧ b.addr + 8 ≤ x ∧ x < b.stop - 8 := by
  obtain ⟨⟨ptr, size⟩, hlive, hlo, hhi⟩ := hx
  obtain ⟨b, hb, rfl, hlarge⟩ := hI.block_of_live hlive
  refine ⟨b, hb, ⟨size, hlive⟩, hlo, ?_⟩
  have ht := hI.represents.tagged (WellFormed.mem_all_of_mem hb.1)
  have hheader : (cfg.heap.word (b.addr + 8 - 8) &&& -2#64).toNat = b.size :=
    ht.toNat_header_size
  unfold Block.stop
  rcases hhi with hhi | hhi
  · change (x : Int) < ↑(b.addr + 8) + size.toInt at hhi
    omega
  · rw [hheader] at hhi
    change x + 16 < b.addr + 8 + b.size at hhi
    omega

theorem write_invariant (hI : Invariant cfg L) {x : Nat} (hx : Writable cfg x) (v : BitVec 8) :
    Invariant ⟨writeByte cfg.heap x v, cfg.live⟩ L := by
  obtain ⟨b, hb, -, hlo, hhi⟩ := hI.writable hx
  refine ⟨?_, hI.owned⟩
  refine hI.represents.write hb ⟨rfl, rfl, rfl, rfl⟩ rfl fun y hy => ?_
  apply Function.update_of_ne
  rintro rfl
  exact hy ⟨hlo, hhi⟩

end Calls

section Reachability

variable {admits admits' : Config → Call → Prop} {cfg cfg' : Config} {L : Layout}

/-- Every call the client may make is one that the allocator can serve. -/
def Served (admits : Config → Call → Prop) : Prop :=
  ∀ cfg L c, Invariant cfg L → c.Legal cfg.live → admits cfg c → Serves L c

theorem init_invariant {h h' : Heap} (hfresh : Fresh h) (hrun : mmInit.run h = .ok (0, h')) :
    Invariant ⟨h', []⟩ (emptyLayout h.memStartBrk) := by
  obtain ⟨h'', hrun', hR, -⟩ := mmInit_run hfresh.memBrk
  rw [hrun'] at hrun
  obtain rfl : h'' = h' := congrArg Prod.snd (Except.ok.inj hrun)
  exact ⟨hR, List.nodup_nil, by simp⟩

theorem step_invariant (hserved : Served admits) (hI : Invariant cfg L)
    (hstep : Step admits cfg cfg') : ∃ L', Invariant cfg' L' := by
  cases hstep with
  | @call c q h' hlegal hadmits hrun =>
      obtain ⟨h'', hrun', hI'⟩ := exec_run hI hlegal (hserved cfg L c hI hlegal hadmits)
      rw [hrun] at hrun'
      obtain ⟨rfl, rfl⟩ := Prod.mk.inj (Except.ok.inj hrun')
      exact ⟨_, hI'⟩
  | write v hx => exact ⟨L, write_invariant hI hx v⟩

theorem Reachable.invariant (hserved : Served admits) (hreach : Reachable admits cfg) :
    ∃ L, Invariant cfg L := by
  induction hreach with
  | init hfresh hrun => exact ⟨_, init_invariant hfresh hrun⟩
  | step hreach hstep ih =>
      obtain ⟨L, hI⟩ := ih
      exact step_invariant hserved hI hstep

theorem Reachable.mono (hsub : ∀ cfg c, admits cfg c → admits' cfg c)
    (hreach : Reachable admits cfg) : Reachable admits' cfg := by
  induction hreach with
  | init hfresh hrun => exact .init hfresh hrun
  | step hreach hstep ih =>
      cases hstep with
      | call hlegal hadmits hrun => exact .step ih (.call hlegal (hsub _ _ hadmits) hrun)
      | write v hx => exact .step ih (.write v hx)

/-- No block is orphaned where no `mm_realloc(NULL, size)` allocates one. -/
theorem Reachable.exact (hserved : Served admits)
    (hkeeps : ∀ cfg L size, Invariant cfg L → admits cfg (.realloc null size) →
      (L.malloc size).2 = null)
    (hreach : Reachable admits cfg) : ∃ L, Invariant cfg L ∧ NoOrphan L.allocated cfg.live := by
  induction hreach with
  | init hfresh hrun =>
      refine ⟨_, init_invariant hfresh hrun, ?_⟩
      rintro b ⟨hb, -⟩
      cases hb
  | @step cfg cfg' hreach hstep ih =>
      obtain ⟨L, hI, hN⟩ := ih
      cases hstep with
      | @call c q h' hlegal hadmits hrun =>
          obtain ⟨h'', hrun', hI'⟩ := exec_run hI hlegal (hserved cfg L c hI hlegal hadmits)
          rw [hrun] at hrun'
          obtain ⟨rfl, rfl⟩ := Prod.mk.inj (Except.ok.inj hrun')
          refine ⟨_, hI', noOrphan_exec hI hlegal hN fun size heq => ?_⟩
          exact hkeeps cfg L size hI (heq ▸ hadmits)
      | write v hx => exact ⟨L, write_invariant hI hx v, hN⟩

end Reachability

/-- Calls with sizes of type `int`. -/
def IntCalls (_ : Config) (c : Call) : Prop := c.IntSized

/-- The same, without `mm_realloc(NULL, size)`. -/
def LiveIntCalls (_ : Config) (c : Call) : Prop := c.IntSized ∧ ∀ size, c ≠ .realloc null size

theorem served_intCalls : Served IntCalls := fun _ _ _ _ _ hint => serves_of_int hint

section Sample

def sampleArena : Arena := ⟨4096, rfl, by decide, by decide⟩

/-- A short run: three blocks, and the first of them freed. -/
def sampleRun : HeapM Nat := do
  let _ ← mmInit
  let _ ← (Call.malloc 24).exec
  let _ ← (Call.malloc 40).exec
  let _ ← (Call.malloc 8).exec
  (Call.free 4120).exec

@[irreducible] def sampleHeap : Heap :=
  match sampleRun.run (memInit sampleArena fun _ => 255) with
  | .ok (_, h) => h
  | .error _ => memInit sampleArena fun _ => 255

def sampleLive : Live := [(4216, 8), (4160, 40)]

def sampleLayout : Layout :=
  [Call.malloc 24, Call.malloc 40, Call.malloc 8, Call.free 4120].foldl
    (fun L c => (execLayout L c).1) (emptyLayout 4096)

theorem sample_run : Reachable LiveIntCalls ⟨sampleHeap, sampleLive⟩ ∧
    Invariant ⟨sampleHeap, sampleLive⟩ sampleLayout := by
  obtain ⟨h₁, hinit, -⟩ := mmInit_run (h := memInit sampleArena fun _ => 255) rfl
  have hI₁ := init_invariant (.memInit _ _) hinit
  have hadmits : ∀ cfg, ∀ c ∈ [Call.malloc 24, .malloc 40, .malloc 8, .free 4120],
      LiveIntCalls cfg c := by
    intro cfg c hc
    simp only [List.mem_cons, List.not_mem_nil, or_false] at hc
    rcases hc with rfl | rfl | rfl | rfl
    · exact ⟨⟨by decide, by decide⟩, by simp⟩
    · exact ⟨⟨by decide, by decide⟩, by simp⟩
    · exact ⟨⟨by decide, by decide⟩, by simp⟩
    · exact ⟨trivial, by simp⟩
  have hserves : ∀ L, ∀ c ∈ [Call.malloc 24, .malloc 40, .malloc 8, .free 4120], Serves L c :=
    fun L c hc => serves_of_int (hadmits ⟨sampleHeap, []⟩ c hc).1
  obtain ⟨h₂, hrun₂, hI₂⟩ := exec_run hI₁ (c := .malloc 24) trivial (hserves _ _ (by simp))
  obtain ⟨h₃, hrun₃, hI₃⟩ := exec_run hI₂ (c := .malloc 40) trivial (hserves _ _ (by simp))
  obtain ⟨h₄, hrun₄, hI₄⟩ := exec_run hI₃ (c := .malloc 8) trivial (hserves _ _ (by simp))
  have hlegal : (Call.free 4120).Legal [(4216, 8), (4160, 40), (4120, 24)] := .inr ⟨24, by decide⟩
  obtain ⟨h₅, hrun₅, hI₅⟩ := exec_run hI₄ hlegal trivial
  have hheap : sampleHeap = h₅ := by
    unfold sampleHeap sampleRun
    rw [run_bind_of_ok hinit, run_bind_of_ok hrun₂, run_bind_of_ok hrun₃, run_bind_of_ok hrun₄,
      hrun₅]
  have hreach₁ : Reachable LiveIntCalls ⟨h₁, []⟩ := .init (.memInit _ _) hinit
  have hreach₂ := hreach₁.step (.call (c := .malloc 24) trivial (hadmits _ _ (by simp)) hrun₂)
  have hreach₃ := hreach₂.step (.call (c := .malloc 40) trivial (hadmits _ _ (by simp)) hrun₃)
  have hreach₄ := hreach₃.step (.call (c := .malloc 8) trivial (hadmits _ _ (by simp)) hrun₄)
  rw [hheap]
  exact ⟨hreach₄.step (.call hlegal (hadmits _ _ (by simp)) hrun₅), hI₅⟩

theorem sample_reachable : Reachable LiveIntCalls ⟨sampleHeap, sampleLive⟩ := sample_run.1

theorem sample_reachable_int : Reachable IntCalls ⟨sampleHeap, sampleLive⟩ :=
  sample_reachable.mono fun _ _ hadmits => hadmits.1

end Sample

end MallocLab.Runs
