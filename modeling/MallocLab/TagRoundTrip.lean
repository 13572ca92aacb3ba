import Mathlib.Data.List.Chain
import MallocLab.BoundaryTags
import MallocLab.Tiling

/-!
The boundary tags as an encoding: what was written at both ends of a block is read
back from either end, and consecutive blocks are found in both directions.
-/

namespace MallocLab.TagRoundTrip

open MallocLab.Machine
open MallocLab.Mminline
open MallocLab.HeapPrograms
open MallocLab.BoundaryTags
open MallocLab.Tiling
open MallocLab.WordBits

/-- A call `block_set_size_and_allocated(b, size, allocated)` that asks for a block. -/
structure TagCall where
  block : Nat
  size : Word
  allocated : Bool
  aligned : size.toNat % 8 = 0
  large : 16 ≤ size.toInt

namespace TagCall

def exec (c : TagCall) : HeapM Unit :=
  blockSetSizeAndAllocated c.block c.size (bit c.allocated)

def stop (c : TagCall) : Nat := c.block + c.size.toNat

theorem toInt_size (c : TagCall) : c.size.toInt = c.size.toNat :=
  (toNat_of_nonneg (by have := c.large; omega)).symm

theorem sixteen_le (c : TagCall) : 16 ≤ c.size.toNat := by
  have hlarge := c.large
  have hint := c.toInt_size
  omega

theorem size_lt (c : TagCall) : c.size.toNat < 2 ^ 63 := by
  have hint := c.toInt_size
  have hlt := BitVec.toInt_lt (x := c.size)
  omega

theorem ofNat_size (c : TagCall) : BitVec.ofNat 64 c.size.toNat = c.size :=
  BitVec.eq_of_toNat_eq (toNat_ofNat_of_lt c.size.isLt)

theorem block_lt_stop (c : TagCall) : c.block < c.stop := by
  have hlarge := c.sixteen_le
  unfold stop
  omega

end TagCall

/-- What the inline functions read of the block at `b`. -/
structure ReadsBack (h : Heap) (b : Nat) (size : Word) (alloc : Bool) : Prop where
  blockSize : (blockSize b).run h = .ok (size, h)
  blockEndSize : (blockEndSize b).run h = .ok (size, h)
  blockAllocated : (blockAllocated b).run h = .ok (bit alloc, h)
  blockEndAllocated : (blockEndAllocated b).run h = .ok (bit alloc, h)
  blockNext : (blockNext b).run h = .ok (b + size.toNat, h)
  blockPrev : (blockPrev (b + size.toNat)).run h = .ok (b, h)

section OneBlock

variable {h : Heap} {b size : Nat} {alloc : Bool} {c : TagCall}

theorem blockEndTag_of_tagged (ht : Tagged h b size alloc) :
    (blockEndTag b).run h = .ok (b + size - 8, h) :=
  blockEndTag_run ht.aligned ht.large ht.small ht.inHeap_header ht.header

theorem readsBack_of_tagged (ht : Tagged h b size alloc) :
    ReadsBack h b (BitVec.ofNat 64 size) alloc := by
  have hsmall := ht.small
  have hsize : (BitVec.ofNat 64 size).toNat = size := toNat_ofNat_of_lt (by omega)
  refine ⟨ht.blockSize_run, ?_, ht.blockAllocated_run, ?_, ?_, ?_⟩
  · rw [Mminline.blockEndSize, run_bind_of_ok (blockEndTag_of_tagged ht),
      run_bind_of_ok (readWord_run ht.inHeap_endTag), ht.endTag,
      tagWord_and_neg_two ht.aligned ht.small]
    rfl
  · rw [Mminline.blockEndAllocated, run_bind_of_ok (blockEndTag_of_tagged ht),
      run_bind_of_ok (readWord_run ht.inHeap_endTag), ht.endTag,
      tagWord_and_one ht.aligned ht.small]
    rfl
  · rw [hsize]
    exact ht.blockNext_run
  · rw [hsize]
    exact ht.blockPrev_run

theorem exec_run (hin : h.InHeap c.block c.size.toNat) :
    c.exec.run h = .ok ((), setTags h c.block c.size.toNat c.allocated) := by
  have hrun := blockSetSizeAndAllocated_run c.aligned c.sixteen_le c.size_lt hin c.allocated
  rw [c.ofNat_size] at hrun
  exact hrun

theorem tagged_exec (hin : h.InHeap c.block c.size.toNat) :
    Tagged (setTags h c.block c.size.toNat c.allocated) c.block c.size.toNat c.allocated :=
  tagged_setTags c.aligned c.sixteen_le c.size_lt hin c.allocated

theorem readsBack_call (ht : Tagged h c.block c.size.toNat c.allocated) :
    ReadsBack h c.block c.size c.allocated := by
  have hread := readsBack_of_tagged ht
  rwa [c.ofNat_size] at hread

end OneBlock

section Layout

/-- Tag the blocks one after the other. -/
def tagAll : List TagCall → HeapM Unit
  | [] => return
  | c :: calls => do
      c.exec
      tagAll calls

/-- The tags of all the blocks. -/
def allTagBytes (calls : List TagCall) : Set Nat :=
  {x | ∃ c ∈ calls, x ∈ tagBytes c.block c.size.toNat}

/-- The blocks share no byte. -/
def Apart (c e : TagCall) : Prop := c.stop ≤ e.block ∨ e.stop ≤ c.block

theorem Apart.symm {c e : TagCall} (hce : Apart c e) : Apart e c := Or.symm hce

theorem Apart.not_mem_tagBytes {c e : TagCall} (hce : Apart c e) {x : Nat}
    (hx : x ∈ tagBytes c.block c.size.toNat) : x ∉ tagBytes e.block e.size.toNat := by
  have hc := c.sixteen_le
  have he := e.sixteen_le
  unfold Apart TagCall.stop at hce
  rintro (⟨hlo, hhi⟩ | ⟨hlo, hhi⟩)
  · rcases hx with ⟨hlo', hhi'⟩ | ⟨hlo', hhi'⟩
    · omega
    · omega
  · rcases hx with ⟨hlo', hhi'⟩ | ⟨hlo', hhi'⟩
    · omega
    · omega

/-- Later calls spare the tags of earlier ones. -/
theorem tagAll_run {h : Heap} {calls : List TagCall}
    (hin : ∀ c ∈ calls, h.InHeap c.block c.size.toNat) (hapart : calls.Pairwise Apart) :
    ∃ h', (tagAll calls).run h = .ok ((), h') ∧ SameExcept h h' (allTagBytes calls) ∧
      h'.flistFirst = h.flistFirst ∧
      ∀ c ∈ calls, Tagged h' c.block c.size.toNat c.allocated := by
  induction calls generalizing h with
  | nil =>
      exact ⟨h, rfl, .refl h _, rfl, fun c hc => absurd hc List.not_mem_nil⟩
  | cons c calls ih =>
      obtain ⟨hhead, htail⟩ := List.forall_mem_cons.mp hin
      obtain ⟨hfirst, hrest⟩ := List.pairwise_cons.mp hapart
      have hset := sameExcept_setTags (h := h) (b := c.block) c.sixteen_le c.allocated
      obtain ⟨h', hrun, hsame, hflist, htagged⟩ := ih
        (fun e he => (hset.inHeap_iff e.block e.size.toNat).mpr (htail e he)) hrest
      have hkept : Tagged h' c.block c.size.toNat c.allocated := by
        apply (tagged_exec hhead).congr hsame
        rintro x hx ⟨e, he, hxe⟩
        exact (hfirst e he).not_mem_tagBytes hx hxe
      refine ⟨h', ?_, ?_, hflist, List.forall_mem_cons.mpr ⟨hkept, htagged⟩⟩
      · rw [tagAll, run_bind_of_ok (exec_run hhead)]
        exact hrun
      · apply (hset.trans hsame).mono
        rintro x (hx | ⟨e, he, hx⟩)
        · exact ⟨c, List.mem_cons_self, hx⟩
        · exact ⟨e, List.mem_cons_of_mem c he, hx⟩

/-- The addresses met by following `step` `n` times. -/
def walk (step : Nat → HeapM Nat) : Nat → Nat → HeapM (List Nat)
  | 0, b => return [b]
  | n + 1, b => do
      let next ← step b
      return b :: (← walk step n next)

theorem walk_run {h : Heap} {step : Nat → HeapM Nat} {b : Nat} {l : List Nat}
    (hchain : (b :: l).IsChain fun x y => (step x).run h = .ok (y, h)) :
    (walk step l.length b).run h = .ok (b :: l, h) := by
  induction l generalizing b with
  | nil => rfl
  | cons y l ih =>
      obtain ⟨hstep, hrest⟩ := List.isChain_cons_cons.mp hchain
      rw [List.length_cons, walk, run_bind_of_ok hstep, run_bind_of_ok (ih hrest)]
      rfl

/-- Where the blocks start, and where the last one stops. -/
def bounds (layout : List TagCall) (stop : Nat) : List Nat := layout.map TagCall.block ++ [stop]

/-- Neighbouring bounds are found from each other. -/
theorem isChain_bounds {h : Heap} {layout : List TagCall} {start stop : Nat}
    (htiles : Tiles TagCall.block TagCall.stop start layout stop)
    (hread : ∀ c ∈ layout, ReadsBack h c.block c.size c.allocated) :
    (bounds layout stop).IsChain fun x y =>
      (blockNext x).run h = .ok (y, h) ∧ (blockPrev y).run h = .ok (x, h) := by
  induction layout generalizing start with
  | nil => exact List.isChain_singleton stop
  | cons c layout ih =>
      obtain ⟨hhead, htail⟩ := List.forall_mem_cons.mp hread
      obtain ⟨-, hrest⟩ := htiles
      have hchain := ih hrest htail
      cases layout with
      | nil =>
          obtain rfl : c.stop = stop := hrest
          exact List.isChain_pair.mpr ⟨hhead.blockNext, hhead.blockPrev⟩
      | cons e layout =>
          have hstart : e.block = c.block + c.size.toNat := hrest.1
          apply List.IsChain.cons_cons _ hchain
          rw [hstart]
          exact ⟨hhead.blockNext, hhead.blockPrev⟩

theorem bounds_eq_cons {layout : List TagCall} {start stop : Nat}
    (htiles : Tiles TagCall.block TagCall.stop start layout stop) :
    ∃ l, bounds layout stop = start :: l ∧ l.length = layout.length := by
  cases layout with
  | nil =>
      obtain rfl : start = stop := htiles
      exact ⟨[], rfl, rfl⟩
  | cons c layout =>
      obtain ⟨rfl, -⟩ := htiles
      exact ⟨bounds layout stop, rfl, by simp [bounds]⟩

/-- The blocks of a tagged layout, forwards and backwards. -/
structure Enumerates (h : Heap) (layout : List TagCall) (start stop : Nat) : Prop where
  forwards : (walk blockNext layout.length start).run h = .ok (bounds layout stop, h)
  backwards : (walk blockPrev layout.length stop).run h = .ok ((bounds layout stop).reverse, h)

theorem enumerates_of_reads {h : Heap} {layout : List TagCall} {start stop : Nat}
    (htiles : Tiles TagCall.block TagCall.stop start layout stop)
    (hread : ∀ c ∈ layout, ReadsBack h c.block c.size c.allocated) :
    Enumerates h layout start stop := by
  have hchain := isChain_bounds htiles hread
  constructor
  · obtain ⟨l, hbounds, hlength⟩ := bounds_eq_cons htiles
    rw [hbounds, ← hlength]
    rw [hbounds] at hchain
    exact walk_run (hchain.imp fun _ _ hxy => hxy.1)
  · have hreverse : (bounds layout stop).reverse = stop :: (layout.map TagCall.block).reverse :=
      List.reverse_concat ..
    have hback := (List.isChain_reverse.mpr hchain).imp fun _ _ hxy => hxy.2
    rw [hreverse] at hback ⊢
    have hwalk := walk_run hback
    rwa [List.length_reverse, List.length_map] at hwalk

end Layout

/-- Whatever the memory held, tags read back from both ends as they were written, nothing but
the two words changes, and a layout tagged in any order is met block by block in both
directions. -/
theorem tag_round_trip (h : Heap) :
    (∀ c : TagCall, h.InHeap c.block c.size.toNat →
      ∃ h', c.exec.run h = .ok ((), h') ∧ ReadsBack h' c.block c.size c.allocated ∧
        SameExcept h h' (tagBytes c.block c.size.toNat) ∧ h'.flistFirst = h.flistFirst) ∧
    ∀ (layout calls : List TagCall) (start stop : Nat),
      Tiles TagCall.block TagCall.stop start layout stop →
      (∀ c ∈ layout, h.InHeap c.block c.size.toNat) → calls.Perm layout →
      ∃ h', (tagAll calls).run h = .ok ((), h') ∧ Enumerates h' layout start stop ∧
        (∀ c ∈ layout, ReadsBack h' c.block c.size c.allocated) ∧
        SameExcept h h' (allTagBytes layout) ∧ h'.flistFirst = h.flistFirst := by
  constructor
  · intro c hin
    exact ⟨_, exec_run hin, readsBack_call (tagged_exec hin),
      sameExcept_setTags c.sixteen_le c.allocated, rfl⟩
  · intro layout calls start stop htiles hin hperm
    have hapart : calls.Pairwise Apart :=
      (hperm.pairwise_iff fun hce => hce.symm).mpr
        ((htiles.pairwise TagCall.block_lt_stop).imp .inl)
    obtain ⟨h', hrun, hsame, hflist, htagged⟩ :=
      tagAll_run (fun c hc => hin c (hperm.mem_iff.mp hc)) hapart
    have hread : ∀ c ∈ layout, ReadsBack h' c.block c.size c.allocated := fun c hc =>
      readsBack_call (htagged c (hperm.mem_iff.mpr hc))
    have hbytes : allTagBytes calls ⊆ allTagBytes layout := by
      rintro x ⟨c, hc, hx⟩
      exact ⟨c, hperm.mem_iff.mp hc, hx⟩
    exact ⟨h', hrun, enumerates_of_reads htiles hread, hread, hsame.mono hbytes, hflist⟩

section Sample

/-- Memory full of set bits. -/
def garbage : Heap :=
  { memInit ⟨12288, rfl, by decide, by decide⟩ (fun _ => 255) with memBrk := 12336 }

def lowBlock : TagCall := ⟨12288, 16, false, by decide, by decide⟩

def highBlock : TagCall := ⟨12304, 32, true, by decide, by decide⟩

/-- Two blocks, the second tagged first. -/
theorem tag_round_trip_sample : ∃ h', (tagAll [highBlock, lowBlock]).run garbage = .ok ((), h') ∧
    (walk blockNext 2 12288).run h' = .ok ([12288, 12304, 12336], h') ∧
    (walk blockPrev 2 12336).run h' = .ok ([12336, 12304, 12288], h') := by
  have htiles : Tiles TagCall.block TagCall.stop 12288 [lowBlock, highBlock] 12336 :=
    ⟨rfl, rfl, rfl⟩
  have hin : ∀ c ∈ [lowBlock, highBlock], garbage.InHeap c.block c.size.toNat := by decide
  obtain ⟨h', hrun, henum, -⟩ := (tag_round_trip garbage).2 [lowBlock, highBlock]
    [highBlock, lowBlock] 12288 12336 htiles hin (List.Perm.swap lowBlock highBlock [])
  exact ⟨h', hrun, henum.forwards, henum.backwards⟩

end Sample

end MallocLab.TagRoundTrip
