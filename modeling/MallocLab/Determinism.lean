import MallocLab.Runs
import MallocLab.Traversal

/-!
Results and placement are a function of the calls alone: every run refines the
run of the abstract allocator, which has no memory whose contents could matter.
-/

namespace MallocLab.Determinism

open MallocLab.Machine
open MallocLab.Mm
open MallocLab.HeapPrograms
open MallocLab.AbstractLayout
open MallocLab.AbstractLayout.Layout
open MallocLab.Representation
open MallocLab.HeapGrowth
open MallocLab.Traversal
open MallocLab.Runs

/-- The start of every repetition of a trace. -/
def restart : HeapM Int := do
  memResetBrk
  mmInit

/-- The client makes the calls of the list, in this order and with the given
results, and writes into its payloads as it likes. -/
inductive Trace (admits : Config → Call → Prop) (start : Config) :
    List Call → List Nat → Config → Prop where
  | nil : Trace admits start [] [] start
  | call {cs : List Call} {qs : List Nat} {cfg : Config} {c : Call} {q : Nat} {h' : Heap}
      (htrace : Trace admits start cs qs cfg) (hlegal : c.Legal cfg.live)
      (hadmits : admits cfg c) (hrun : c.exec.run cfg.heap = .ok (q, h')) :
      Trace admits start (cs ++ [c]) (qs ++ [q]) ⟨h', liveAfter cfg.live c q⟩
  | write {cs : List Call} {qs : List Nat} {cfg : Config} {x : Nat} (v : BitVec 8)
      (htrace : Trace admits start cs qs cfg) (hx : Writable cfg x) :
      Trace admits start cs qs ⟨writeByte cfg.heap x v, cfg.live⟩

/-- The abstract allocator together with its client. -/
structure Session where
  layout : Layout
  results : List Nat
  live : Live

def Session.call (s : Session) (c : Call) : Session where
  layout := (execLayout s.layout c).1
  results := s.results ++ [(execLayout s.layout c).2]
  live := liveAfter s.live c (execLayout s.layout c).2

def session (start : Nat) (cs : List Call) : Session :=
  cs.foldl Session.call ⟨emptyLayout start, [], []⟩

theorem session_concat (start : Nat) (cs : List Call) (c : Call) :
    session start (cs ++ [c]) = (session start cs).call c := List.foldl_concat ..

/-- Break, static pointers, blocks and free list are the same. -/
structure SamePlacement (h₁ h₂ : Heap) : Prop where
  memBrk : h₁.memBrk = h₂.memBrk
  prologue : h₁.prologue = h₂.prologue
  epilogue : h₁.epilogue = h₂.epilogue
  flistFirst : h₁.flistFirst = h₂.flistFirst
  blocks : ∃ entries, heapBlocks.run h₁ = .ok (entries, h₁) ∧ heapBlocks.run h₂ = .ok (entries, h₂)
  freeList : ∃ addrs, freeBlocks.run h₁ = .ok (addrs, h₁) ∧ freeBlocks.run h₂ = .ok (addrs, h₂)

theorem samePlacement {h₁ h₂ : Heap} {L : Layout} (hR₁ : Represents h₁ L)
    (hR₂ : Represents h₂ L) : SamePlacement h₁ h₂ where
  memBrk := hR₁.memBrk.trans hR₂.memBrk.symm
  prologue := hR₁.prologue.trans hR₂.prologue.symm
  epilogue := hR₁.epilogue.trans hR₂.epilogue.symm
  flistFirst := hR₁.holds.list.first.trans hR₂.holds.list.first.symm
  blocks := ⟨L.all.map entry, heapBlocks_run hR₁, heapBlocks_run hR₂⟩
  freeList := ⟨L.freeList, freeBlocks_run hR₁, freeBlocks_run hR₂⟩

section Refinement

variable {admits : Config → Call → Prop} {h h' : Heap} {r : Int} {cs : List Call} {qs : List Nat}
  {cfg : Config}

theorem restart_run (h : Heap) :
    ∃ h', restart.run h = .ok (0, h') ∧ Invariant ⟨h', []⟩ (emptyLayout h.arena.start) := by
  have hreset : memResetBrk.run h = .ok ((), { h with memBrk := h.memStartBrk }) := rfl
  obtain ⟨h', hinit, -⟩ := mmInit_run (h := { h with memBrk := h.memStartBrk }) rfl
  have hI := init_invariant (.memResetBrk hreset) hinit
  refine ⟨h', ?_, hI⟩
  rw [restart, run_bind_of_ok hreset]
  exact hinit

theorem restart_invariant (hrun : restart.run h = .ok (r, h')) :
    r = 0 ∧ Invariant ⟨h', []⟩ (emptyLayout h.arena.start) := by
  obtain ⟨h'', hrun', hI⟩ := restart_run h
  obtain ⟨rfl, rfl⟩ := Prod.mk.inj (Except.ok.inj (hrun'.symm.trans hrun))
  exact ⟨rfl, hI⟩

/-- A run of the program is a run of the abstract allocator. -/
theorem Trace.refines {start : Nat} (hserved : Served admits)
    (hI : Invariant ⟨h, []⟩ (emptyLayout start)) (htrace : Trace admits ⟨h, []⟩ cs qs cfg) :
    Invariant cfg (session start cs).layout ∧ qs = (session start cs).results ∧
      cfg.live = (session start cs).live := by
  induction htrace with
  | nil => exact ⟨hI, rfl, rfl⟩
  | @call cs qs cfg c q h' htrace hlegal hadmits hrun ih =>
      obtain ⟨hcfg, hqs, hlive⟩ := ih
      obtain ⟨h'', hrun', hcfg'⟩ := exec_run hcfg hlegal (hserved _ _ _ hcfg hlegal hadmits)
      obtain ⟨rfl, rfl⟩ := Prod.mk.inj (Except.ok.inj (hrun'.symm.trans hrun))
      rw [session_concat]
      refine ⟨hcfg', ?_, ?_⟩
      · rw [hqs]
        rfl
      · rw [hlive]
        rfl
  | write v htrace hx ih =>
      obtain ⟨hcfg, hqs, hlive⟩ := ih
      exact ⟨write_invariant hcfg hx v, hqs, hlive⟩

end Refinement

/-- Two runs with the same calls return the same pointers and place the same
blocks, whatever the memory holds and the clients write. -/
theorem placement_deterministic {h₁ h₂ h₁' h₂' : Heap} {r₁ r₂ : Int}
    (hbase : h₁.arena.start = h₂.arena.start) (hinit₁ : restart.run h₁ = .ok (r₁, h₁'))
    (hinit₂ : restart.run h₂ = .ok (r₂, h₂')) {cs : List Call} {qs₁ qs₂ : List Nat}
    {cfg₁ cfg₂ : Config} (htrace₁ : Trace IntCalls ⟨h₁', []⟩ cs qs₁ cfg₁)
    (htrace₂ : Trace IntCalls ⟨h₂', []⟩ cs qs₂ cfg₂) :
    r₁ = r₂ ∧ qs₁ = qs₂ ∧ cfg₁.live = cfg₂.live ∧ SamePlacement cfg₁.heap cfg₂.heap := by
  obtain ⟨rfl, hI₁⟩ := restart_invariant hinit₁
  obtain ⟨rfl, hI₂⟩ := restart_invariant hinit₂
  rw [hbase] at hI₁
  obtain ⟨hcfg₁, rfl, hlive₁⟩ := htrace₁.refines served_intCalls hI₁
  obtain ⟨hcfg₂, rfl, hlive₂⟩ := htrace₂.refines served_intCalls hI₂
  exact ⟨rfl, rfl, hlive₁.trans hlive₂.symm, samePlacement hcfg₁.represents hcfg₂.represents⟩

def sampleCalls : List Call := [.malloc 24, .malloc 40, .free 4120, .realloc 4160 60]

/-- The sample calls from the second on, in a run that has made the first. -/
theorem sampleCalls_run {start : Config} {s : Heap}
    (hI : Invariant ⟨s, [(4120, 24)]⟩ ((emptyLayout 4096).malloc 24).1)
    (htrace : Trace IntCalls start [.malloc 24] [4120] ⟨s, [(4120, 24)]⟩) : ∃ t u v,
    (Call.malloc 40).exec.run s = .ok (4160, t) ∧ (Call.free 4120).exec.run t = .ok (null, u) ∧
      (Call.realloc 4160 60).exec.run u = .ok (4120, v) ∧
      Trace IntCalls start sampleCalls [4120, 4160, null, 4120] ⟨v, [(4120, 60)]⟩ := by
  have hint₂ : (Call.malloc 40).IntSized := ⟨by decide, by decide⟩
  have hint₄ : (Call.realloc 4160 60).IntSized := ⟨by decide, by decide⟩
  have hlegal₃ : (Call.free 4120).Legal [(4160, 40), (4120, 24)] := .inr ⟨24, by decide⟩
  have hlegal₄ : (Call.realloc 4160 60).Legal [(4160, 40)] := .inr ⟨40, by decide⟩
  obtain ⟨t, hrun₂, hI₂⟩ := exec_run hI (c := .malloc 40) trivial (serves_of_int hint₂)
  obtain ⟨u, hrun₃, hI₃⟩ := exec_run hI₂ hlegal₃ trivial
  obtain ⟨v, hrun₄, -⟩ := exec_run hI₃ hlegal₄ (serves_of_int hint₄)
  have htrace₂ : Trace IntCalls start [.malloc 24, .malloc 40] [4120, 4160]
      ⟨t, [(4160, 40), (4120, 24)]⟩ := .call htrace (c := .malloc 40) trivial hint₂ hrun₂
  have htrace₃ : Trace IntCalls start [.malloc 24, .malloc 40, .free 4120] [4120, 4160, null]
      ⟨u, [(4160, 40)]⟩ := .call htrace₂ hlegal₃ trivial hrun₃
  exact ⟨t, u, v, hrun₂, hrun₃, hrun₄, .call htrace₃ hlegal₄ hint₄ hrun₄⟩

/-- Stale bytes of two kinds, and a client that writes in one of the runs, into a block that is
freed and taken again behind that. -/
theorem placement_deterministic_sample : ∃ h₁ h₂ s₁ s₂ t₁ t₂ u₁ u₂ v₁ v₂,
    restart.run (memInit sampleArena fun _ => 255) = .ok (0, h₁) ∧
    restart.run (memInit sampleArena fun _ => 0) = .ok (0, h₂) ∧
    (Call.malloc 24).exec.run h₁ = .ok (4120, s₁) ∧
    (Call.malloc 24).exec.run h₂ = .ok (4120, s₂) ∧
    (Call.malloc 40).exec.run (writeByte s₁ 4130 7) = .ok (4160, t₁) ∧
    (Call.malloc 40).exec.run s₂ = .ok (4160, t₂) ∧
    (Call.free 4120).exec.run t₁ = .ok (null, u₁) ∧
    (Call.free 4120).exec.run t₂ = .ok (null, u₂) ∧
    (Call.realloc 4160 60).exec.run u₁ = .ok (4120, v₁) ∧
    (Call.realloc 4160 60).exec.run u₂ = .ok (4120, v₂) ∧
    SamePlacement v₁ v₂ := by
  have hint : (Call.malloc 24).IntSized := ⟨by decide, by decide⟩
  obtain ⟨h₁, hinit₁, hI₁⟩ := restart_run (memInit sampleArena fun _ => 255)
  obtain ⟨h₂, hinit₂, hI₂⟩ := restart_run (memInit sampleArena fun _ => 0)
  obtain ⟨s₁, hrun₁, hI₁⟩ := exec_run hI₁ (c := .malloc 24) trivial (serves_of_int hint)
  obtain ⟨s₂, hrun₂, hI₂⟩ := exec_run hI₂ (c := .malloc 24) trivial (serves_of_int hint)
  have htrace₁ : Trace IntCalls ⟨h₁, []⟩ [.malloc 24] [4120] ⟨s₁, [(4120, 24)]⟩ :=
    .call .nil (c := .malloc 24) trivial hint hrun₁
  have htrace₂ : Trace IntCalls ⟨h₂, []⟩ [.malloc 24] [4120] ⟨s₂, [(4120, 24)]⟩ :=
    .call .nil (c := .malloc 24) trivial hint hrun₂
  have hx : Writable ⟨s₁, [(4120, 24)]⟩ 4130 :=
    ⟨(4120, 24), List.mem_cons_self, by decide, .inl (by decide)⟩
  obtain ⟨t₁, u₁, v₁, hmalloc₁, hfree₁, hrealloc₁, htrace₁⟩ :=
    sampleCalls_run (write_invariant hI₁ hx 7) (htrace₁.write 7 hx)
  obtain ⟨t₂, u₂, v₂, hmalloc₂, hfree₂, hrealloc₂, htrace₂⟩ := sampleCalls_run hI₂ htrace₂
  have hbase : (memInit sampleArena fun _ => 255).arena.start =
      (memInit sampleArena fun _ => 0).arena.start := rfl
  have hsame := placement_deterministic hbase hinit₁ hinit₂ htrace₁ htrace₂
  exact ⟨h₁, h₂, s₁, s₂, t₁, t₂, u₁, u₂, v₁, v₂, hinit₁, hinit₂, hrun₁, hrun₂, hmalloc₁, hmalloc₂,
    hfree₁, hfree₂, hrealloc₁, hrealloc₂, hsame.2.2.2⟩

end MallocLab.Determinism
