import MallocLab.BoundaryTags
import MallocLab.LinkRing

/-!
The circular free list.  `insert_free_block` and `pull_free_block` act on the
sequence of listed blocks as consing and erasing, and write link words only.
-/

namespace MallocLab.FreeLists

open MallocLab.Machine
open MallocLab.Mminline
open MallocLab.HeapPrograms
open MallocLab.BoundaryTags
open MallocLab.WordBits
open MallocLab.LinkRing

def flink (h : Heap) (a : Nat) : Nat := (h.word (a + 8)).toNat

def blink (h : Heap) (a : Nat) : Nat := (h.word (a + 16)).toNat

def setFlink (h : Heap) (a b : Nat) : Heap := h.setWord (a + 8) (BitVec.ofNat 64 b)

def setBlink (h : Heap) (a b : Nat) : Heap := h.setWord (a + 16) (BitVec.ofNat 64 b)

/-- The words of a free block at `a` that list operations touch: a header with
a clear alloc bit and two links. -/
structure FreeNode (h : Heap) (a : Nat) : Prop where
  inHeap : h.InHeap a 24
  free : h.word a &&& 1#64 = 0
  small : a < 2 ^ 64

/-- Nodes at `a` and `b` are one node or share no word. -/
def Clear (a b : Nat) : Prop := a = b ∨ a + 24 ≤ b ∨ b + 24 ≤ a

theorem Clear.refl (a : Nat) : Clear a a := .inl rfl

theorem Clear.symm {a b : Nat} (h : Clear a b) : Clear b a := by
  unfold Clear at *
  omega

/-- `flist_first` represents the sequence `L`. -/
structure FreeList (h : Heap) (L : List Nat) : Prop where
  first : h.flistFirst = L.headD null
  ring : Ring (flink h) (blink h) L
  nodup : L.Nodup
  node : ∀ a ∈ L, FreeNode h a
  clear : ∀ a ∈ L, ∀ b ∈ L, Clear a b

/-- The link words of the nodes of `L`. -/
def linkBytes (L : List Nat) : Set Nat := {x | ∃ a ∈ L, a + 8 ≤ x ∧ x < a + 24}

theorem linkBytes_mono {L M : List Nat} (h : L ⊆ M) : linkBytes L ⊆ linkBytes M := by
  rintro x ⟨a, ha, hx⟩
  exact ⟨a, h ha, hx⟩

section Links

variable {h h' : Heap} {a b x : Nat}

theorem flink_setFlink_self (hb : b < 2 ^ 64) : flink (setFlink h a b) a = b := by
  rw [flink, setFlink, word_setWord_self, toNat_ofNat_of_lt hb]

theorem blink_setBlink_self (hb : b < 2 ^ 64) : blink (setBlink h a b) a = b := by
  rw [blink, setBlink, word_setWord_self, toNat_ofNat_of_lt hb]

theorem flink_setFlink_of_ne (hc : Clear a x) (hne : x ≠ a) :
    flink (setFlink h a b) x = flink h x := by
  unfold Clear at hc
  rw [flink, setFlink, word_setWord_of_disjoint _ (by omega), flink]

theorem blink_setBlink_of_ne (hc : Clear a x) (hne : x ≠ a) :
    blink (setBlink h a b) x = blink h x := by
  unfold Clear at hc
  rw [blink, setBlink, word_setWord_of_disjoint _ (by omega), blink]

theorem flink_setBlink (hc : Clear a x) : flink (setBlink h a b) x = flink h x := by
  unfold Clear at hc
  rw [flink, setBlink, word_setWord_of_disjoint _ (by omega), flink]

theorem blink_setFlink (hc : Clear a x) : blink (setFlink h a b) x = blink h x := by
  unfold Clear at hc
  rw [blink, setFlink, word_setWord_of_disjoint _ (by omega), blink]

theorem FreeNode.setFlink (hx : FreeNode h x) (hc : Clear a x) :
    FreeNode (setFlink h a b) x where
  inHeap := hx.inHeap
  free := by
    unfold Clear at hc
    rw [FreeLists.setFlink, word_setWord_of_disjoint _ (by omega), hx.free]
  small := hx.small

theorem FreeNode.setBlink (hx : FreeNode h x) (hc : Clear a x) :
    FreeNode (setBlink h a b) x where
  inHeap := hx.inHeap
  free := by
    unfold Clear at hc
    rw [FreeLists.setBlink, word_setWord_of_disjoint _ (by omega), hx.free]
  small := hx.small

/-- List operations on nodes clear of `x` keep `x` a free node. -/
theorem FreeNode.congr {N : List Nat} (hx : FreeNode h x)
    (hsame : SameExcept h h' (linkBytes N)) (hclear : ∀ a ∈ N, Clear a x) : FreeNode h' x where
  inHeap := (hsame.inHeap_iff x 24).mpr hx.inHeap
  free := by
    rw [hsame.word_eq, hx.free]
    rintro y hlo hhi ⟨a, ha, hy⟩
    have hc := hclear a ha
    unfold Clear at hc
    omega
  small := hx.small

theorem FreeNode.ne_null (hx : FreeNode h x) : x ≠ null := by
  have hlo := hx.inHeap.1
  have hpos := h.arena.pos
  unfold Heap.memStartBrk at hlo
  change x ≠ 0
  omega

theorem sameExcept_setFlink (L : List Nat) (ha : a ∈ L) :
    SameExcept h (setFlink h a b) (linkBytes L) := by
  refine (sameExcept_setWord h (a + 8) _).mono ?_
  rintro x ⟨hlo, hhi⟩
  exact ⟨a, ha, hlo, by omega⟩

theorem sameExcept_setBlink (L : List Nat) (ha : a ∈ L) :
    SameExcept h (setBlink h a b) (linkBytes L) := by
  refine (sameExcept_setWord h (a + 16) _).mono ?_
  rintro x ⟨hlo, hhi⟩
  exact ⟨a, ha, by omega, by omega⟩

end Links

section Runs

variable {h : Heap} {a b : Nat}

theorem payloadAt_zero (a : Nat) : payloadAt a 0 = a + 8 := by
  unfold payloadAt
  omega

theorem payloadAt_one (a : Nat) : payloadAt a 1 = a + 16 := by
  unfold payloadAt
  omega

theorem FreeNode.blockAllocated_run (ha : FreeNode h a) :
    (blockAllocated a).run h = .ok (0#64, h) := by
  have hin := ha.inHeap
  have hheader : h.InHeap a 8 := by unfold Heap.InHeap at *; omega
  rw [BoundaryTags.blockAllocated_run hheader, ha.free]
  rfl

theorem FreeNode.assertBothFree_run (ha : FreeNode h a) (hb : FreeNode h b) :
    (assertBothFree a b).run h = .ok ((), h) := by
  simp only [assertBothFree, StateT.run_bind, ha.blockAllocated_run, ok_bind,
    assertThat_run (p := (0#64 : Word) = 0) rfl, hb.blockAllocated_run]

theorem FreeNode.blockFlink_run (ha : FreeNode h a) :
    (blockFlink a).run h = .ok (flink h a, h) := by
  have hin := ha.inHeap
  have hlink : h.InHeap (a + 8) 8 := by unfold Heap.InHeap at *; omega
  simp only [blockFlink, StateT.run_bind, ha.blockAllocated_run, ok_bind,
    assertThat_run (p := (0#64 : Word) = 0) rfl, payloadAt_zero, readWord_run hlink,
    StateT.run_pure, pure_eq_ok, flink]

theorem FreeNode.blockBlink_run (ha : FreeNode h a) :
    (blockBlink a).run h = .ok (blink h a, h) := by
  have hin := ha.inHeap
  have hlink : h.InHeap (a + 16) 8 := by unfold Heap.InHeap at *; omega
  simp only [blockBlink, StateT.run_bind, ha.blockAllocated_run, ok_bind,
    assertThat_run (p := (0#64 : Word) = 0) rfl, payloadAt_one, readWord_run hlink,
    StateT.run_pure, pure_eq_ok, blink]

theorem FreeNode.blockSetFlink_run (ha : FreeNode h a) (hb : FreeNode h b) :
    (blockSetFlink a b).run h = .ok ((), FreeLists.setFlink h a b) := by
  have hin := ha.inHeap
  have hlink : h.InHeap (a + 8) 8 := by unfold Heap.InHeap at *; omega
  simp only [blockSetFlink, StateT.run_bind, ha.assertBothFree_run hb, ok_bind,
    payloadAt_zero, writeWord_run hlink, FreeLists.setFlink]

theorem FreeNode.blockSetBlink_run (ha : FreeNode h a) (hb : FreeNode h b) :
    (blockSetBlink a b).run h = .ok ((), FreeLists.setBlink h a b) := by
  have hin := ha.inHeap
  have hlink : h.InHeap (a + 16) 8 := by unfold Heap.InHeap at *; omega
  simp only [blockSetBlink, StateT.run_bind, ha.assertBothFree_run hb, ok_bind,
    payloadAt_one, writeWord_run hlink, FreeLists.setBlink]

end Runs

section Insert

variable {h : Heap} {fb a : Nat} {L : List Nat}

theorem FreeList.nil_iff (hL : FreeList h L) : h.flistFirst = null ↔ L = [] := by
  rw [hL.first]
  cases L with
  | nil => simp
  | cons a L => simpa using (hL.node a (by simp)).ne_null

/-- The last block of the list links back to the first. -/
theorem FreeList.flink_last {s : List Nat} (hL : FreeList h (s ++ [a])) :
    flink h a = h.flistFirst := by
  rw [hL.ring.next_eq, hL.first]
  cases s <;> rfl

/-- Every other block links to its successor, which is not the first. -/
theorem FreeList.flink_inner {s t : List Nat} {b : Nat} (hL : FreeList h (s ++ a :: b :: t)) :
    flink h a = b ∧ b ≠ h.flistFirst := by
  have hnodup := hL.nodup
  refine ⟨hL.ring.next_eq, ?_⟩
  rw [hL.first]
  intro heq
  cases s with
  | nil =>
      obtain rfl : b = a := heq
      simp at hnodup
  | cons c s =>
      obtain rfl : b = c := heq
      simp at hnodup

/-- The heap after `insert_free_block(fb)` put `fb` before `a` and after `last`. -/
def linkIn (h : Heap) (fb a last : Nat) : Heap :=
  { setBlink (setFlink (setBlink (setFlink h fb a) fb last) last fb) a fb with
    flistFirst := fb }

theorem insertFreeBlock_run_nil (hempty : h.flistFirst = null) (hfb : FreeNode h fb) :
    (insertFreeBlock fb).run h =
      .ok ((), { setBlink (setFlink h fb fb) fb fb with flistFirst := fb }) := by
  have hfb₁ : FreeNode (setFlink h fb fb) fb := hfb.setFlink (.refl fb)
  simp only [insertFreeBlock, StateT.run_bind, hfb.blockAllocated_run, ok_bind,
    assertThat_run (p := (0#64 : Word) = 0) rfl, run_getFlistFirst, hempty, ne_eq,
    not_true_eq_false, if_false, hfb.blockSetFlink_run hfb, hfb₁.blockSetBlink_run hfb₁,
    run_setFlistFirst]

theorem insertFreeBlock_run_cons (hfirst : h.flistFirst = a) (hfb : FreeNode h fb)
    (ha : FreeNode h a) (hlast : FreeNode h (blink h a))
    (hfa : Clear fb a) (hfl : Clear fb (blink h a)) (hal : Clear a (blink h a)) :
    (insertFreeBlock fb).run h = .ok ((), linkIn h fb a (blink h a)) := by
  have hne : a ≠ null := ha.ne_null
  have hfb₁ : FreeNode (setFlink h fb a) fb := hfb.setFlink (.refl fb)
  have ha₁ : FreeNode (setFlink h fb a) a := ha.setFlink hfa
  have hlast₁ : FreeNode (setFlink h fb a) (blink h a) := hlast.setFlink hfl
  have hfb₂ := hfb₁.setBlink (b := blink h a) (.refl fb)
  have ha₂ := ha₁.setBlink (b := blink h a) hfa
  have hlast₂ := hlast₁.setBlink (b := blink h a) hfl
  have hfb₃ := hfb₂.setFlink (b := fb) hfl.symm
  have ha₃ := ha₂.setFlink (b := fb) hal.symm
  simp only [insertFreeBlock, StateT.run_bind, hfb.blockAllocated_run, ok_bind,
    assertThat_run (p := (0#64 : Word) = 0) rfl, run_getFlistFirst, hfirst, ne_eq, hne,
    not_false_eq_true, if_true, ha.blockBlink_run, hfb.blockSetFlink_run ha,
    hfb₁.blockSetBlink_run hlast₁, hlast₂.blockSetFlink_run hfb₂, ha₃.blockSetBlink_run hfb₃,
    run_setFlistFirst]
  rfl

theorem sameExcept_linkIn {last : Nat} (hfb : fb ∈ L) (ha : a ∈ L) (hlast : last ∈ L) :
    SameExcept h (linkIn h fb a last) (linkBytes L) := by
  have h₁ := (sameExcept_setFlink (h := h) (b := a) L hfb).trans
    (sameExcept_setBlink (b := last) L hfb)
  have h₂ := h₁.trans (sameExcept_setFlink (b := fb) L hlast)
  have h₃ := h₂.trans (sameExcept_setBlink (b := fb) L ha)
  refine (h₃.trans (sameExcept_flistFirst _ fb)).mono ?_
  simp

section LinkIn

variable {last x : Nat}

theorem flink_linkIn_new (hfa : Clear fb a) (hfl : Clear fb last) (hne : last ≠ fb)
    (ha : a < 2 ^ 64) : flink (linkIn h fb a last) fb = a := by
  calc
    flink (linkIn h fb a last) fb =
        flink (setFlink (setBlink (setFlink h fb a) fb last) last fb) fb :=
      flink_setBlink hfa.symm
    _ = flink (setBlink (setFlink h fb a) fb last) fb := flink_setFlink_of_ne hfl.symm hne.symm
    _ = flink (setFlink h fb a) fb := flink_setBlink (.refl fb)
    _ = a := flink_setFlink_self ha

theorem blink_linkIn_new (hfa : Clear fb a) (hfl : Clear fb last) (hne : a ≠ fb)
    (hlast : last < 2 ^ 64) : blink (linkIn h fb a last) fb = last := by
  calc
    blink (linkIn h fb a last) fb =
        blink (setFlink (setBlink (setFlink h fb a) fb last) last fb) fb :=
      blink_setBlink_of_ne hfa.symm hne.symm
    _ = blink (setBlink (setFlink h fb a) fb last) fb := blink_setFlink hfl.symm
    _ = last := blink_setBlink_self hlast

theorem flink_linkIn_last (hal : Clear a last) (hfb : fb < 2 ^ 64) :
    flink (linkIn h fb a last) last = fb :=
  (flink_setBlink hal).trans (flink_setFlink_self hfb)

theorem blink_linkIn_head (hfb : fb < 2 ^ 64) : blink (linkIn h fb a last) a = fb :=
  blink_setBlink_self hfb

/-- The other forward links stay. -/
theorem flink_linkIn_of_ne (hfx : Clear fb x) (hlx : Clear last x) (hax : Clear a x)
    (hnew : x ≠ fb) (hlast : x ≠ last) : flink (linkIn h fb a last) x = flink h x := by
  calc
    flink (linkIn h fb a last) x =
        flink (setFlink (setBlink (setFlink h fb a) fb last) last fb) x := flink_setBlink hax
    _ = flink (setBlink (setFlink h fb a) fb last) x := flink_setFlink_of_ne hlx hlast
    _ = flink (setFlink h fb a) x := flink_setBlink hfx
    _ = flink h x := flink_setFlink_of_ne hfx hnew

theorem blink_linkIn_of_ne (hfx : Clear fb x) (hlx : Clear last x) (hax : Clear a x)
    (hnew : x ≠ fb) (hhead : x ≠ a) : blink (linkIn h fb a last) x = blink h x := by
  calc
    blink (linkIn h fb a last) x =
        blink (setFlink (setBlink (setFlink h fb a) fb last) last fb) x :=
      blink_setBlink_of_ne hax hhead
    _ = blink (setBlink (setFlink h fb a) fb last) x := blink_setFlink hlx
    _ = blink (setFlink h fb a) x := blink_setBlink_of_ne hfx hnew
    _ = blink h x := blink_setFlink hfx

end LinkIn

/-- Once the links are right, the rest of the invariant carries over to the longer list. -/
theorem FreeList.cons {h' : Heap} (hL : FreeList h L) (hfb : FreeNode h fb) (hnew : fb ∉ L)
    (hclear : ∀ a ∈ L, Clear fb a) (hsame : SameExcept h h' (linkBytes (fb :: L)))
    (hfirst : h'.flistFirst = fb) (hring : Ring (flink h') (blink h') (fb :: L)) :
    FreeList h' (fb :: L) := by
  have hclear' : ∀ x ∈ fb :: L, ∀ y ∈ fb :: L, Clear x y := by
    intro x hx y hy
    rcases List.mem_cons.mp hx with rfl | hxL <;> rcases List.mem_cons.mp hy with rfl | hyL
    · exact .refl _
    · exact hclear y hyL
    · exact (hclear x hxL).symm
    · exact hL.clear x hxL y hyL
  refine ⟨hfirst, hring, List.nodup_cons.mpr ⟨hnew, hL.nodup⟩, ?_, hclear'⟩
  intro x hx
  have hnode : FreeNode h x := by
    rcases List.mem_cons.mp hx with rfl | hx
    · exact hfb
    · exact hL.node x hx
  exact hnode.congr hsame fun y hy => hclear' y hy x hx

theorem FreeList.insert_nil (hL : FreeList h []) (hfb : FreeNode h fb) :
    ∃ h', (insertFreeBlock fb).run h = .ok ((), h') ∧ FreeList h' [fb] ∧
      SameExcept h h' (linkBytes [fb]) := by
  have hsame : SameExcept h { setBlink (setFlink h fb fb) fb fb with flistFirst := fb }
      (linkBytes [fb]) := by
    have h₁ := (sameExcept_setFlink (h := h) (a := fb) (b := fb) [fb] (by simp)).trans
      (sameExcept_setBlink (a := fb) (b := fb) [fb] (by simp))
    refine (h₁.trans (sameExcept_flistFirst _ fb)).mono ?_
    simp
  refine ⟨_, insertFreeBlock_run_nil (hL.nil_iff.mpr rfl) hfb, ?_, hsame⟩
  refine hL.cons hfb List.not_mem_nil (by simp) hsame rfl (ring_singleton_iff.mpr ⟨?_, ?_⟩)
  · exact (flink_setBlink (h := setFlink h fb fb) (.refl fb)).trans (flink_setFlink_self hfb.small)
  · exact blink_setBlink_self (h := setFlink h fb fb) hfb.small

theorem FreeList.insert_cons (hL : FreeList h (a :: L)) (hfb : FreeNode h fb)
    (hnew : fb ∉ a :: L) (hclear : ∀ x ∈ a :: L, Clear fb x) :
    ∃ h', (insertFreeBlock fb).run h = .ok ((), h') ∧ FreeList h' (fb :: a :: L) ∧
      SameExcept h h' (linkBytes (fb :: a :: L)) := by
  have ha : a ∈ a :: L := List.mem_cons_self
  have hlast : blink h a ∈ a :: L := hL.ring.prev_mem ha
  have hfa : Clear fb a := hclear a ha
  have hfl : Clear fb (blink h a) := hclear _ hlast
  have hal : Clear a (blink h a) := hL.clear a ha _ hlast
  have hne : ∀ x ∈ a :: L, x ≠ fb := fun x hx hxfb => hnew (hxfb ▸ hx)
  have hsame : SameExcept h (linkIn h fb a (blink h a)) (linkBytes (fb :: a :: L)) :=
    sameExcept_linkIn (by simp) (by simp) (List.mem_cons_of_mem fb hlast)
  refine ⟨linkIn h fb a (blink h a), ?_, ?_, hsame⟩
  · exact insertFreeBlock_run_cons hL.first hfb (hL.node a ha) (hL.node _ hlast) hfa hfl hal
  · refine hL.cons hfb hnew hclear hsame rfl (hL.ring.link hL.nodup ⟨?_, ?_⟩ ?_ ?_ ?_ ?_)
    · exact flink_linkIn_new hfa hfl (hne _ hlast) (hL.node a ha).small
    · exact blink_linkIn_new hfa hfl (hne a ha) (hL.node _ hlast).small
    · exact flink_linkIn_last hal hfb.small
    · exact blink_linkIn_head hfb.small
    · intro x hx hxlast
      exact flink_linkIn_of_ne (hclear x hx) (hL.clear _ hlast x hx) (hL.clear a ha x hx)
        (hne x hx) hxlast
    · intro x hx hxa
      exact blink_linkIn_of_ne (hclear x hx) (hL.clear _ hlast x hx) (hL.clear a ha x hx)
        (hne x hx) hxa

/-- `insert_free_block` conses: the new block becomes the head. -/
theorem FreeList.insert (hL : FreeList h L) (hfb : FreeNode h fb) (hnew : fb ∉ L)
    (hclear : ∀ a ∈ L, Clear fb a) :
    ∃ h', (insertFreeBlock fb).run h = .ok ((), h') ∧ FreeList h' (fb :: L) ∧
      SameExcept h h' (linkBytes (fb :: L)) := by
  cases L with
  | nil => exact hL.insert_nil hfb
  | cons a L => exact hL.insert_cons hfb hnew hclear

end Insert

section Pull

variable {h : Heap} {fb u v : Nat} {L : List Nat}

theorem relinkNeighbours_run (hfb : FreeNode h fb) (hu : FreeNode h u) (hv : FreeNode h v)
    (hblink : blink h fb = u) (hflink : flink h fb = v) (hne : u ≠ fb)
    (huf : Clear u fb) (huv : Clear u v) :
    (relinkNeighbours fb).run h = .ok ((), setBlink (setFlink h u v) v u) := by
  have hfb₁ := hfb.setFlink (b := v) huf
  have hu₁ := hu.setFlink (b := v) (.refl u)
  have hv₁ := hv.setFlink (b := v) huv
  have hflink₁ : flink (setFlink h u v) fb = v := by
    rw [flink_setFlink_of_ne huf hne.symm, hflink]
  have hblink₁ : blink (setFlink h u v) fb = u := by
    rw [blink_setFlink huf, hblink]
  simp only [relinkNeighbours, StateT.run_bind, hfb.blockBlink_run, hfb.blockFlink_run, ok_bind,
    hblink, hflink, hu.blockSetFlink_run hv, hfb₁.blockFlink_run, hfb₁.blockBlink_run, hflink₁,
    hblink₁, hv₁.blockSetBlink_run hu₁]

/-- The heap after `pull_free_block(fb)` when `fb` is not alone in the list. -/
def linkOut (h : Heap) (fb : Nat) : Heap :=
  { setBlink (setFlink h (blink h fb) (flink h fb)) (flink h fb) (blink h fb) with
    flistFirst := if h.flistFirst = fb then flink h fb else h.flistFirst }

theorem pullFreeBlock_run_alone (hfb : FreeNode h fb) (hfirst : h.flistFirst = fb)
    (halone : flink h fb = fb) :
    (pullFreeBlock fb).run h = .ok ((), { h with flistFirst := null }) := by
  simp only [pullFreeBlock, StateT.run_bind, hfb.blockAllocated_run, ok_bind,
    assertThat_run (p := (0#64 : Word) = 0) rfl, run_getFlistFirst, hfirst, if_true,
    hfb.blockFlink_run, halone, run_setFlistFirst]

theorem flink_withFirst (h : Heap) (first b : Nat) :
    flink { h with flistFirst := first } b = flink h b := by
  unfold flink Heap.word
  rfl

theorem blink_withFirst (h : Heap) (first b : Nat) :
    blink { h with flistFirst := first } b = blink h b := by
  unfold blink Heap.word
  rfl

theorem FreeNode.withFirst {x : Nat} (hx : FreeNode h x) (first : Nat) :
    FreeNode { h with flistFirst := first } x := by
  obtain ⟨hin, hfree, hsmall⟩ := hx
  refine ⟨hin, ?_, hsmall⟩
  unfold Heap.word at hfree ⊢
  exact hfree

theorem setLinks_withFirst (h : Heap) (u v first : Nat) :
    setBlink (setFlink { h with flistFirst := first } u v) v u =
      { setBlink (setFlink h u v) v u with flistFirst := first } := by
  unfold setBlink setFlink Heap.setWord
  rfl

theorem pullFreeBlock_run (hfb : FreeNode h fb) (hu : FreeNode h (blink h fb))
    (hv : FreeNode h (flink h fb)) (hne : blink h fb ≠ fb) (hne' : flink h fb ≠ fb)
    (huf : Clear (blink h fb) fb) (huv : Clear (blink h fb) (flink h fb)) :
    (pullFreeBlock fb).run h = .ok ((), linkOut h fb) := by
  by_cases hfirst : h.flistFirst = fb
  · have hrelink := relinkNeighbours_run (hfb.withFirst (flink h fb)) (hu.withFirst _)
      (hv.withFirst _) (blink_withFirst h _ fb) (flink_withFirst h _ fb) hne huf huv
    rw [setLinks_withFirst] at hrelink
    simp only [pullFreeBlock, StateT.run_bind, hfb.blockAllocated_run, ok_bind,
      assertThat_run (p := (0#64 : Word) = 0) rfl, run_getFlistFirst, hfirst, if_true,
      hfb.blockFlink_run, run_setFlistFirst, if_neg hne', linkOut]
    exact hrelink
  · simp only [pullFreeBlock, StateT.run_bind, hfb.blockAllocated_run, ok_bind,
      assertThat_run (p := (0#64 : Word) = 0) rfl, run_getFlistFirst, if_neg hfirst, linkOut]
    exact relinkNeighbours_run hfb hu hv rfl rfl hne huf huv

section LinkOut

variable {s t : List Nat}

/-- The head moves only when it is `fb` itself. -/
theorem FreeList.first_linkOut (hL : FreeList h (s ++ fb :: t)) (hfbs : fb ∉ s)
    (halone : flink h fb ≠ fb) : (linkOut h fb).flistFirst = (s ++ t).headD null := by
  have hfirst := hL.first
  have hnext := hL.ring.next_eq
  cases s with
  | nil =>
      rw [List.append_nil] at hnext
      have ht : t ≠ [] := by
        rintro rfl
        exact halone hnext
      obtain ⟨a, t, rfl⟩ := List.exists_cons_of_ne_nil ht
      simpa [linkOut, hfirst] using hnext
  | cons a s =>
      have hafb : a ≠ fb := fun heq => hfbs (by simp [heq])
      simp [linkOut, hfirst, hafb]

theorem FreeList.ring_linkOut (hL : FreeList h (s ++ fb :: t)) :
    Ring (flink (linkOut h fb)) (blink (linkOut h fb)) (s ++ t) := by
  have hfb : fb ∈ s ++ fb :: t := by simp
  have hu := hL.ring.prev_mem hfb
  have hv := hL.ring.next_mem hfb
  have hsub : ∀ x ∈ s ++ t, x ∈ s ++ fb :: t := by
    intro x hx
    simp only [List.mem_append, List.mem_cons] at hx ⊢
    tauto
  have hflink : ∀ b, flink (linkOut h fb) b = flink (setBlink
      (setFlink h (blink h fb) (flink h fb)) (flink h fb) (blink h fb)) b :=
    flink_withFirst _ _
  have hblink : ∀ b, blink (linkOut h fb) b = blink (setBlink
      (setFlink h (blink h fb) (flink h fb)) (flink h fb) (blink h fb)) b :=
    blink_withFirst _ _
  refine hL.ring.unlink hL.nodup ?_ ?_ ?_ ?_
  · rw [hflink, flink_setBlink (hL.clear _ hv _ hu)]
    exact flink_setFlink_self (hL.node _ hv).small
  · rw [hblink]
    exact blink_setBlink_self (hL.node _ hu).small
  · intro y hy hyu
    have hclear := hL.clear _ hu y (hsub y hy)
    rw [hflink, flink_setBlink (hL.clear _ hv y (hsub y hy))]
    exact flink_setFlink_of_ne hclear hyu
  · intro y hy hyv
    rw [hblink, blink_setBlink_of_ne (hL.clear _ hv y (hsub y hy)) hyv]
    exact blink_setFlink (hL.clear _ hu y (hsub y hy))

theorem sameExcept_linkOut (hu : blink h fb ∈ L) (hv : flink h fb ∈ L) :
    SameExcept h (linkOut h fb) (linkBytes L) := by
  have h₁ := (sameExcept_setFlink (h := h) (b := flink h fb) _ hu).trans
    (sameExcept_setBlink (b := blink h fb) _ hv)
  refine (h₁.trans (sameExcept_flistFirst _ _)).mono ?_
  simp

end LinkOut

/-- `pull_free_block` erases a block at any position of the list. -/
theorem FreeList.pull (hL : FreeList h L) (hfb : fb ∈ L) :
    ∃ h', (pullFreeBlock fb).run h = .ok ((), h') ∧ FreeList h' (L.erase fb) ∧
      SameExcept h h' (linkBytes L) := by
  obtain ⟨s, t, rfl⟩ := List.append_of_mem hfb
  have hnode := hL.node fb hfb
  have hfbs : fb ∉ s := by
    intro hmem
    exact (List.nodup_append.mp hL.nodup).2.2 fb hmem fb (by simp) rfl
  have herase : (s ++ fb :: t).erase fb = s ++ t := by
    rw [List.erase_append_right _ hfbs, List.erase_cons_head]
  have hnodup : (s ++ t).Nodup := herase ▸ hL.nodup.erase fb
  have hsub : ∀ x ∈ s ++ t, x ∈ s ++ fb :: t := fun x hx => List.mem_of_mem_erase (herase ▸ hx)
  rw [herase]
  by_cases halone : flink h fb = fb
  · obtain ⟨rfl, rfl⟩ := (hL.ring.next_self_iff hL.nodup).mp halone
    have hsame := (sameExcept_flistFirst h null).mono (Set.empty_subset (linkBytes [fb]))
    refine ⟨_, pullFreeBlock_run_alone hnode hL.first halone, ?_, hsame⟩
    exact ⟨rfl, ring_nil, List.nodup_nil, by simp, by simp⟩
  · have hu := hL.ring.prev_mem hfb
    have hv := hL.ring.next_mem hfb
    have hne : blink h fb ≠ fb := by
      intro heq
      have hnext := hL.ring.next_prev hfb
      rw [heq] at hnext
      exact halone hnext
    have hrun := pullFreeBlock_run hnode (hL.node _ hu) (hL.node _ hv) hne halone
      (hL.clear _ hu fb hfb) (hL.clear _ hu _ hv)
    have hsame := sameExcept_linkOut hu hv
    refine ⟨linkOut h fb, hrun, ⟨?_, hL.ring_linkOut, hnodup, ?_, ?_⟩, hsame⟩
    · exact hL.first_linkOut hfbs halone
    · intro x hx
      exact (hL.node x (hsub x hx)).congr hsame fun y hy => hL.clear y hy x (hsub x hx)
    · exact fun x hx y hy => hL.clear x (hsub x hx) y (hsub y hy)

end Pull

end MallocLab.FreeLists
