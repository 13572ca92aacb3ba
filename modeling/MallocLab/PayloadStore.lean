import MallocLab.ObjectStore
import MallocLab.ReplHoldings

/-!
The allocator as a store of objects.  A run of a client is recorded as its calls, with the
pointers they returned, and the bytes it stored; the record alone says which objects there
are and what they hold, and the heap agrees with it after every run.
-/

namespace MallocLab.PayloadStore

open MallocLab.ObjectStore
open MallocLab.Machine
open MallocLab.Mm
open MallocLab.HeapGrowth
open MallocLab.AbstractLayout
open MallocLab.AbstractLayout.Layout
open MallocLab.Representation
open MallocLab.Runs
open MallocLab.LiveBlocks
open MallocLab.DataPreservation
open MallocLab.MallocPackage
open MallocLab.AllocatorContract
open MallocLab.ReplHoldings

inductive Event where
  | call (c : Call) (q : Nat)
  | store (ptr j : Nat) (v : BitVec 8)

/-- Runs of a client with their events, the last one first.  What the client writes behind
the bytes it asked for is not recorded. -/
inductive Run : List Event → Config → Prop where
  | init {h h' : Heap} (hfresh : Fresh h) (hrun : mmInit.run h = .ok (0, h')) : Run [] ⟨h', []⟩
  | call {es : List Event} {cfg : Config} {c : Call} {q : Nat} {h' : Heap} (hprev : Run es cfg)
      (hlegal : c.Legal cfg.live) (hint : c.IntSized)
      (hrun : c.exec.run cfg.heap = .ok (q, h')) :
      Run (.call c q :: es) ⟨h', liveAfter cfg.live c q⟩
  | store {es : List Event} {cfg : Config} {r : Nat × Word} {j : Nat} (v : BitVec 8)
      (hprev : Run es cfg) (hr : r ∈ cfg.live) (hj : (j : Int) < r.2.toInt) :
      Run (.store r.1 j v :: es) ⟨writeByte cfg.heap (r.1 + j) v, cfg.live⟩
  | spill {es : List Event} {cfg : Config} {x : Nat} (v : BitVec 8) (hprev : Run es cfg)
      (hx : Writable cfg x) (hbehind : ∀ r ∈ cfg.live, x ∉ requested r) :
      Run es ⟨writeByte cfg.heap x v, cfg.live⟩

/-- The number of bytes asked for. -/
def extent (size : Word) : Nat := size.toInt.toNat

abbrev Contents := Store Nat (BitVec 8)

def contentsAfter (s : Contents) : Call → Nat → Contents
  | .malloc size, q => if q = null then s else s.alloc q (extent size)
  | .free ptr, _ => s.release ptr
  | .realloc ptr size, q =>
      if ptr = null then
        if q = null then s else s.alloc q (extent size)
      else if size = 0 then s.release ptr
      else if q = null then s
      else s.resize ptr q (extent size)

/-- The objects after a run. -/
def replay : List Event → Contents
  | [] => []
  | .call c q :: es => contentsAfter (replay es) c q
  | .store ptr j v :: es => (replay es).put ptr j v

def image (h : Heap) (ptr j : Nat) : BitVec 8 := h.memory (ptr + j)

/-- The objects are the live pointers with their sizes, and their known bytes are in the
heap. -/
structure Reflects (cfg : Config) (s : Contents) : Prop where
  shape : s.shape = cfg.live.map fun r => (r.1, extent r.2)
  agrees : Agrees (image cfg.heap) s

section Calls

variable {cfg : Config} {h' : Heap} {L : Layout} {s : Contents} {c : Call} {ptr q : Nat}
  {m size : Word} {r : Nat × Word}

theorem lt_extent {j : Nat} : j < extent size ↔ (j : Int) < size.toInt := Int.lt_toNat

theorem mem_requested {j : Nat} (hj : j < extent r.2) : r.1 + j ∈ requested r := by
  have hint := lt_extent.mp hj
  refine ⟨Nat.le_add_right _ _, ?_⟩
  push_cast
  omega

theorem Reflects.of_mem (hS : Reflects cfg s) {o : Object Nat (BitVec 8)} (ho : o ∈ s) :
    ∃ r ∈ cfg.live, r.1 = o.handle ∧ extent r.2 = o.length := by
  have hmem : (o.handle, o.length) ∈ s.shape := List.mem_map_of_mem ho
  rw [hS.shape] at hmem
  obtain ⟨r, hr, heq⟩ := List.mem_map.mp hmem
  exact ⟨r, hr, congrArg Prod.fst heq, congrArg Prod.snd heq⟩

theorem Reflects.handle_mem (hS : Reflects cfg s) (hr : r ∈ cfg.live) :
    r.1 ∈ s.shape.map Prod.fst := by
  rw [hS.shape]
  exact List.mem_map_of_mem (List.mem_map_of_mem hr)

/-- Where the requested bytes of the live pointers are kept, so are those of the objects. -/
theorem Reflects.same (hS : Reflects cfg s) {P : Nat → Prop}
    (hkeeps : ∀ r ∈ cfg.live, P r.1 → Keeps cfg.heap h' r) :
    ∀ o ∈ s, P o.handle → ∀ j < o.length, image h' o.handle j = image cfg.heap o.handle j := by
  intro o ho hP j hj
  obtain ⟨r, hr, hptr, hlength⟩ := hS.of_mem ho
  rw [← hptr] at hP
  rw [← hptr]
  exact hkeeps r hr hP _ (mem_requested (hlength ▸ hj))

theorem shape_filter (live : Live) (ptr : Nat) :
    ((live.map fun r => (r.1, extent r.2)).filter fun e => e.1 ≠ ptr) =
      (live.filter fun r => r.1 ≠ ptr).map fun r => (r.1, extent r.2) := by
  rw [List.filter_map]
  rfl

/-- `mm_realloc` brings the bytes that the old and the new size have in common. -/
theorem realloc_moves (hI : Invariant cfg L) (hlive : (ptr, m) ∈ cfg.live) (hint : IsInt size)
    (hsize : size ≠ 0) (hrun : (mmRealloc ptr size).run cfg.heap = .ok (q, h')) (hq : q ≠ null)
    {j : Nat} (hm : j < extent m) (hj : j < extent size) :
    image h' q j = image cfg.heap ptr j := by
  obtain ⟨b, hb, rfl, hlarge, L', u, hR', hu, rfl, hcarried⟩ :=
    mmRealloc_carries hI hlive hint hsize hrun hq
  have hold := lt_extent.mp hm
  apply hcarried.kept
  have hnew := lt_extent.mp hj
  omega

theorem reflects_release (hS : Reflects cfg s)
    (hkeeps : ∀ r ∈ cfg.live, r.1 ≠ ptr → Keeps cfg.heap h' r) :
    Reflects ⟨h', cfg.live.filter fun e => e.1 ≠ ptr⟩ (s.release ptr) where
  shape := by rw [Store.shape_release, hS.shape, shape_filter]
  agrees := hS.agrees.release (hS.same (P := fun p => p ≠ ptr) hkeeps)

theorem reflects_alloc (hS : Reflects cfg s) (hkeeps : ∀ r ∈ cfg.live, Keeps cfg.heap h' r)
    (q : Nat) (size : Word) : Reflects ⟨h', (q, size) :: cfg.live⟩ (s.alloc q (extent size)) where
  shape := by rw [Store.shape_alloc, hS.shape, List.map_cons]
  agrees := hS.agrees.alloc
    (fun o ho => hS.same (P := fun _ => True) (fun r hr _ => hkeeps r hr) o ho trivial) _ _

theorem Reflects.keep (hS : Reflects cfg s) (hkeeps : ∀ r ∈ cfg.live, Keeps cfg.heap h' r) :
    Reflects ⟨h', cfg.live⟩ s where
  shape := hS.shape
  agrees := by
    intro o ho j v hv
    have hsame := hS.same (P := fun _ => True) (fun r hr _ => hkeeps r hr) o ho trivial j
      (Object.lt_length hv)
    exact hsame.trans (hS.agrees o ho j v hv)

theorem reflects_resize (hS : Reflects cfg s) (hlive : (ptr, m) ∈ cfg.live)
    (hnodup : (cfg.live.map Prod.fst).Nodup)
    (hkeeps : ∀ r ∈ cfg.live, r.1 ≠ ptr → Keeps cfg.heap h' r)
    (hmoves : ∀ j < extent m, j < extent size → image h' q j = image cfg.heap ptr j) :
    Reflects ⟨h', (q, size) :: cfg.live.filter fun e => e.1 ≠ ptr⟩
      (s.resize ptr q (extent size)) where
  shape := by rw [Store.shape_resize (hS.handle_mem hlive), hS.shape, shape_filter, List.map_cons]
  agrees := by
    refine hS.agrees.resize (fun o ho hptr j hlt hj => hmoves j ?_ hj)
      (hS.same (P := fun p => p ≠ ptr) hkeeps)
    obtain ⟨r, hr, hhandle, hlength⟩ := hS.of_mem ho
    have heq : r = (ptr, m) := List.inj_on_of_nodup_map hnodup hr hlive (hhandle.trans hptr)
    rw [heq] at hlength
    rw [hlength]
    exact hlt

/-- A call changes the objects as its record says. -/
theorem reflects_exec (hI : Invariant cfg L) (hS : Reflects cfg s) (hlegal : c.Legal cfg.live)
    (hint : c.IntSized) (hrun : c.exec.run cfg.heap = .ok (q, h')) :
    Reflects ⟨h', liveAfter cfg.live c q⟩ (contentsAfter s c q) := by
  have hkeeps : ∀ r ∈ cfg.live, r.1 ≠ argument c → Keeps cfg.heap h' r := fun r hr hne =>
    exec_keeps hI hlegal hint (by rw [exec_mmPackage]; exact hrun) hr hne
  have hne_null : ∀ r ∈ cfg.live, r.1 ≠ null := by
    intro r hr
    obtain ⟨b, -, haddr, -⟩ := hI.block_of_live hr
    rw [← haddr]
    exact Nat.succ_ne_zero _
  cases c with
  | malloc size =>
      have hall : ∀ r ∈ cfg.live, Keeps cfg.heap h' r := fun r hr => hkeeps r hr (hne_null r hr)
      simp only [liveAfter, contentsAfter]
      split
      · exact hS.keep hall
      · exact reflects_alloc hS hall q size
  | free ptr => exact reflects_release hS hkeeps
  | realloc ptr size =>
      simp only [liveAfter, contentsAfter]
      split
      · rename_i hptr
        subst hptr
        rw [if_pos (mmRealloc_null_eq_ok hrun).1, if_pos (mmRealloc_null_eq_ok hrun).1]
        exact hS.keep fun r hr => hkeeps r hr (hne_null r hr)
      · rename_i hptr
        obtain ⟨m, hlive⟩ := hlegal.resolve_left hptr
        split
        · exact reflects_release hS hkeeps
        · rename_i hsize
          split
          · rename_i hnull
            subst hnull
            have hsame := realloc_null_same hI hlive hsize hrun
            rw [hsame]
            exact hS
          · rename_i hq
            exact reflects_resize hS hlive hI.owned.nodup hkeeps fun j hm hj =>
              realloc_moves hI hlive hint hsize hrun hq hm hj

end Calls

section Writes

variable {cfg : Config} {L : Layout} {s : Contents} {r : Nat × Word} {j x : Nat}

theorem requested_disjoint (hI : Invariant cfg L) {t : Nat × Word} (hr : r ∈ cfg.live)
    (ht : t ∈ cfg.live) (hne : r.1 ≠ t.1) : Disjoint (requested r) (requested t) := by
  obtain ⟨b, hb, hbaddr, hblarge⟩ := hI.owned.block r hr
  obtain ⟨c, hc, hcaddr, hclarge⟩ := hI.owned.block t ht
  have hbc : b ≠ c := by
    rintro rfl
    exact hne (hbaddr.symm.trans hcaddr)
  have hball := WellFormed.mem_all_of_mem hb.1
  have hcall := WellFormed.mem_all_of_mem hc.1
  refine Disjoint.mono (requested_subset hbaddr hblarge) (requested_subset hcaddr hclarge) ?_
  refine payload_disjoint hI.represents hball hcall hbc fun x hx => ?_
  exact ⟨(Nat.le_add_right _ _).trans hx.1, hx.2.trans_le (Nat.sub_le _ _)⟩

theorem writeByte_other {h : Heap} {v : BitVec 8} {y : Nat} (hne : y ≠ x) :
    (writeByte h x v).memory y = h.memory y := Function.update_of_ne hne _ _

/-- A byte stored into a live object is the byte of that object. -/
theorem reflects_store (hI : Invariant cfg L) (hS : Reflects cfg s) (hr : r ∈ cfg.live)
    (hj : (j : Int) < r.2.toInt) (v : BitVec 8) :
    Reflects ⟨writeByte cfg.heap (r.1 + j) v, cfg.live⟩ (s.put r.1 j v) where
  shape := by rw [Store.shape_put, hS.shape]
  agrees := by
    refine hS.agrees.put (Function.update_self ..) fun o ho k hk hother => ?_
    obtain ⟨t, ht, hhandle, hlength⟩ := hS.of_mem ho
    rw [← hhandle] at hother ⊢
    apply writeByte_other
    rcases hother with hne | hkj
    · have hin := mem_requested (lt_extent.mpr hj)
      have hdisjoint := requested_disjoint hI ht hr hne
      exact hdisjoint.ne_of_mem (mem_requested (hlength ▸ hk)) hin
    · rcases Decidable.em (t.1 = r.1) with heq | hne
      · omega
      · have hin := mem_requested (lt_extent.mpr hj)
        exact (requested_disjoint hI ht hr hne).ne_of_mem (mem_requested (hlength ▸ hk)) hin

theorem reflects_spill (hS : Reflects cfg s) (hbehind : ∀ r ∈ cfg.live, x ∉ requested r)
    (v : BitVec 8) : Reflects ⟨writeByte cfg.heap x v, cfg.live⟩ s := by
  refine hS.keep fun r hr y hy => writeByte_other ?_
  rintro rfl
  exact hbehind r hr hy

end Writes

section Runs

variable {es : List Event} {cfg : Config}

theorem writable_of_lt {r : Nat × Word} {j : Nat} (hr : r ∈ cfg.live)
    (hj : (j : Int) < r.2.toInt) : Writable cfg (r.1 + j) := by
  refine ⟨r, hr, Nat.le_add_right _ _, .inl ?_⟩
  push_cast
  omega

theorem Run.reachable (hrun : Run es cfg) : Reachable IntCalls cfg := by
  induction hrun with
  | init hfresh hrun => exact .init hfresh hrun
  | call _ hlegal hint hrun ih => exact ih.step (.call hlegal hint hrun)
  | store v _ hr hj ih => exact ih.step (.write v (writable_of_lt hr hj))
  | spill v _ hx _ ih => exact ih.step (.write v hx)

/-- Every run of a client can be recorded. -/
theorem exists_run (hreach : Reachable IntCalls cfg) : ∃ es, Run es cfg := by
  induction hreach with
  | init hfresh hrun => exact ⟨[], .init hfresh hrun⟩
  | step _ hstep ih =>
      obtain ⟨es, hprev⟩ := ih
      cases hstep with
      | call hlegal hint hrun => exact ⟨_, hprev.call hlegal hint hrun⟩
      | @write x v hx =>
          rename_i cfg' _
          by_cases hin : ∃ r ∈ cfg'.live, x ∈ requested r
          · obtain ⟨r, hr, hlo, hhi⟩ := hin
            obtain ⟨j, rfl⟩ := Nat.exists_eq_add_of_le hlo
            refine ⟨_, hprev.store v hr ?_⟩
            push_cast at hhi
            omega
          · exact ⟨es, hprev.spill v hx fun r hr hmem => hin ⟨r, hr, hmem⟩⟩

theorem Run.reflects (hrun : Run es cfg) : Reflects cfg (replay es) := by
  induction hrun with
  | init =>
      constructor
      · rfl
      · exact fun o ho => absurd ho List.not_mem_nil
  | call hprev hlegal hint hrun ih =>
      obtain ⟨L, hI⟩ := hprev.reachable.invariant served_intCalls
      exact reflects_exec hI ih hlegal hint hrun
  | store v hprev hr hj ih =>
      obtain ⟨L, hI⟩ := hprev.reachable.invariant served_intCalls
      exact reflects_store hI ih hr hj v
  | spill v _ _ hbehind ih => exact reflects_spill ih hbehind v

/-- After every run the live pointers are the objects of its record, and each byte the record
knows of is in the heap where its object is.  Every reachable state has such a record. -/
theorem heap_reflects_record :
    (∀ es cfg, Run es cfg → (replay es).shape = cfg.live.map (fun r => (r.1, extent r.2)) ∧
      ∀ o ∈ replay es, ∀ j v, o.contents j = some v → cfg.heap.memory (o.handle + j) = v) ∧
    ∀ cfg, Reachable IntCalls cfg → ∃ es, Run es cfg := by
  refine ⟨fun es cfg hrun => ?_, fun cfg hreach => exists_run hreach⟩
  have hreflects := hrun.reflects
  exact ⟨hreflects.shape, hreflects.agrees⟩

/-- The byte stored into the first payload is found in the block it moved to. -/
theorem heap_reflects_record_sample : ∃ cfg, Run [.call (.realloc 4120 60) 4216,
    .call (.malloc 40) 4160, .store 4120 3 7, .call (.malloc 24) 4120] cfg ∧
    cfg.live = [(4216, 60), (4160, 40)] ∧ cfg.heap.memory (4216 + 3) = 7 := by
  obtain ⟨h₁, hinit, -⟩ := mmInit_run (h := memInit sampleArena fun _ => 17) rfl
  have hI₁ := init_invariant (.memInit _ _) hinit
  have hint : ∀ size ∈ [(24 : Word), 40, 60], IsInt size := by
    intro size hsize
    simp only [List.mem_cons, List.not_mem_nil, or_false] at hsize
    rcases hsize with rfl | rfl | rfl
    · exact ⟨by decide, by decide⟩
    · exact ⟨by decide, by decide⟩
    · exact ⟨by decide, by decide⟩
  have h24 := hint 24 (by decide)
  have h40 := hint 40 (by decide)
  have h60 := hint 60 (by decide)
  obtain ⟨h₂, hrun₂, hI₂⟩ := exec_run hI₁ (c := .malloc 24) trivial (serves_of_int h24)
  have hcfg₂ : Run _ ⟨h₂, [(4120, 24)]⟩ := 
    .call (c := .malloc 24) (.init (.memInit _ _) hinit) trivial h24 hrun₂
  have hcfg₃ := hcfg₂.store (j := 3) 7 List.mem_cons_self (by decide)
  have hI₃ := write_invariant hI₂ (x := 4120 + 3)
    (writable_of_lt (r := (4120, 24)) List.mem_cons_self (by decide)) 7
  obtain ⟨h₄, hrun₄, hI₄⟩ := exec_run hI₃ (c := .malloc 40) trivial (serves_of_int h40)
  have hcfg₄ : Run _ ⟨h₄, [(4160, 40), (4120, 24)]⟩ :=
    .call (c := .malloc 40) hcfg₃ trivial h40 hrun₄
  have hlegal : (Call.realloc 4120 60).Legal [(4160, 40), (4120, 24)] := .inr ⟨24, by decide⟩
  obtain ⟨h₅, hrun₅, -⟩ := exec_run hI₄ hlegal (serves_of_int h60)
  have hcfg₅ : Run _ ⟨h₅, [(4216, 60), (4160, 40)]⟩ := .call hcfg₄ hlegal h60 hrun₅
  refine ⟨_, hcfg₅, rfl, ?_⟩
  exact (heap_reflects_record.1 _ _ hcfg₅).2 _ List.mem_cons_self 3 7 rfl

end Runs

end MallocLab.PayloadStore
