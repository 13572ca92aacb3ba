import MallocLab.MemoryBudget
import MallocLab.TraceVerdict

/-!
Traces of 'a' and 'f' that keep to a budget.  What a trace holds at a time can be read off
its requests; if the budget has room in the arena then `eval_mm_valid` passes the trace.
-/

namespace MallocLab.AffordableTraces

open MallocLab.Machine
open MallocLab.AbstractLayout
open MallocLab.AbstractLayout.Layout
open MallocLab.HeapGrowth
open MallocLab.Runs
open MallocLab.MallocPackage
open MallocLab.Mdriver
open MallocLab.TraceSteps
open MallocLab.TraceBookkeeping
open MallocLab.MemoryBudget
open MallocLab.TraceVerdict

/-- What a payload needs, tags and rounding included. -/
def bytesFor (size : BitVec 32) : Nat := (need (size.signExtend 64)).bytes

/-- The payloads that a trace holds: how many there are, what they need, and the sizes by
their ids. -/
structure Usage where
  count : Nat
  total : Nat
  sizes : Nat → BitVec 32

def noUsage : Usage := ⟨0, 0, fun _ => 0⟩

def Usage.after (u : Usage) : Request → Usage
  | .alloc index size =>
      if size = 0 then u
      else ⟨u.count + 1, u.total + bytesFor size, Function.update u.sizes index size⟩
  | .realloc _ _ => u
  | .free index => ⟨u.count - 1, u.total - bytesFor (u.sizes index), u.sizes⟩

def Allows (B : Budget) (u : Usage) : Request → Prop
  | .alloc _ size => 0 ≤ size.toInt ∧ (size ≠ 0 →
      u.count + 1 ≤ B.count ∧ bytesFor size ≤ B.each ∧ u.total + bytesFor size ≤ B.total)
  | .realloc _ _ => False
  | .free _ => True

/-- The trace has no 'r', no negative size, and stays within the budget. -/
def Affordable (B : Budget) : Usage → List Request → Prop
  | _, [] => True
  | u, op :: ops => Allows B u op ∧ Affordable B (u.after op) ops

instance (B : Budget) (u : Usage) : DecidablePred (Allows B u) := fun op =>
  match op with
  | .alloc _ _ => inferInstanceAs (Decidable (_ ∧ (_ → _)))
  | .realloc _ _ => inferInstanceAs (Decidable False)
  | .free _ => inferInstanceAs (Decidable True)

instance decidableAffordable (B : Budget) :
    (u : Usage) → (ops : List Request) → Decidable (Affordable B u ops)
  | _, [] => inferInstanceAs (Decidable True)
  | u, op :: ops =>
      have := decidableAffordable B (u.after op) ops
      inferInstanceAs (Decidable (_ ∧ _))

section Replay

variable {B : Budget} {L : Layout} {t : Payloads} {live : Live} {held : Finset Nat} {u : Usage}
  {op : Request} {ops : List Request} {index q : Nat} {size : BitVec 32}

/-- The replay within the budget, and what the trace holds. -/
structure Accounts (B : Budget) (L : Layout) (t : Payloads) (live : Live) (held : Finset Nat)
    (u : Usage) : Prop where
  spent : Spent B L live
  remembers : Remembers t live held
  count : live.length = u.count
  total : demand live = u.total
  sizes : ∀ i ∈ held, t.blockSizes i = (u.sizes i).signExtend 64

theorem accounts_start (B : Budget) (start : Nat) :
    Accounts B (emptyLayout start) noPayloads [] ∅ noUsage where
  spent := spent_empty B start
  remembers := .empty _
  count := rfl
  total := rfl
  sizes i hi := absurd hi (Finset.notMem_empty i)

/-- What a budget allows of a trace it allows of the calls. -/
theorem Accounts.fits (hA : Accounts B L t live held u) (hallows : Allows B u op) :
    Fits B live (callOf t op) := by
  cases op with
  | alloc index size =>
      obtain ⟨hnonneg, hbudget⟩ := hallows
      have hex : (size.signExtend 64).toInt = size.toInt :=
        BitVec.toInt_signExtend_of_le (by decide)
      have hlt := size.toInt_lt
      refine ⟨⟨?_, ?_⟩, fun hne => ?_⟩
      · rw [hex]
        omega
      · rw [hex]
        omega
      · rw [hA.count, hA.total]
        exact hbudget (mt signExtend_eq_zero_iff.mpr hne)
  | realloc index size => exact hallows
  | free index => trivial

/-- A live pointer that is freed gives back what it needed. -/
theorem demand_release {p : Nat} {size : Word} (hnodup : (live.map Prod.fst).Nodup)
    (hlive : (p, size) ∈ live) :
    live.length = (live.filter fun e => e.1 ≠ p).length + 1 ∧
      demand live = (need size).bytes + demand (live.filter fun e => e.1 ≠ p) := by
  have hperm := perm_release hnodup hlive
  exact ⟨hperm.length_eq, (hperm.map _).sum_eq⟩

theorem Accounts.request (hA : Accounts B L t live held u) (hroom : B.room ≤ maxHeap)
    (huses : Uses held op) (hallows : Allows B u op) {L' : Layout}
    (hexec : execLayout L (callOf t op) = (L', q)) :
    complaintOf q op = none ∧ Accounts B L' (tableAfter t q op) (liveAfter live (callOf t op) q)
      (holdingAfter held op) (u.after op) := by
  have hfits := hA.fits hallows
  have hspent := hA.spent.exec (hA.remembers.legal huses) hfits
  have hnodup := hspent.owned.nodup
  rw [hexec] at hspent hnodup
  cases op with
  | alloc index size =>
      have hresult : q = (L.malloc (size.signExtend 64)).2 := (congrArg Prod.snd hexec).symm
      rcases Decidable.em (size = 0) with rfl | hne
      · have hnull : q = null := hresult.trans (WellFormed.malloc_eq_null_iff.mpr (.inl rfl))
        subst hnull
        have hfine : complaintOf null (.alloc index 0) = none := rfl
        refine ⟨hfine, hspent, ?_, ?_, ?_, ?_⟩
        · exact hA.remembers
        · exact hA.count
        · exact hA.total
        · exact hA.sizes
      · have hlong : size.signExtend 64 ≠ 0 := mt signExtend_eq_zero_iff.mp hne
        have hq : q ≠ null := by
          rw [hresult]
          exact hA.spent.malloc_ne_null hroom hfits hlong
        have hfine : complaintOf q (.alloc index size) = none := if_neg fun hfail => hq hfail.1
        rw [callOf, liveAfter, if_neg hq] at hspent hnodup ⊢
        rw [tableAfter, if_neg hne, holdingAfter, if_neg hne, Usage.after, if_neg hne]
        refine ⟨hfine, hspent, ?_, ?_, ?_, ?_⟩
        · exact hA.remembers.store (List.nodup_cons.mp hnodup).1
        · exact congrArg (· + 1) hA.count
        · rw [demand_cons, hA.total, Nat.add_comm]
          rfl
        · intro i hi
          simp only [storePayload]
          rcases Decidable.em (i = index) with rfl | hi'
          · rw [Function.update_self, Function.update_self]
          · rw [Function.update_of_ne hi', Function.update_of_ne hi']
            exact hA.sizes i ((Finset.mem_insert.mp hi).resolve_left hi')
  | realloc index size => exact hallows.elim
  | free index =>
      obtain ⟨hlength, hdemand⟩ :=
        demand_release hA.spent.owned.nodup (hA.remembers.mem index huses)
      rw [hA.count] at hlength
      rw [hA.total, hA.sizes index huses] at hdemand
      refine ⟨rfl, hspent, hA.remembers.release huses, ?_, ?_, fun i hi => ?_⟩
      · change (live.filter fun e => e.1 ≠ t.blocks index).length = u.count - 1
        omega
      · change demand (live.filter fun e => e.1 ≠ t.blocks index) =
          u.total - bytesFor (u.sizes index)
        unfold bytesFor
        omega
      · exact hA.sizes i (Finset.mem_of_mem_erase hi)

/-- The replay of an affordable trace gets to its end. -/
theorem Accounts.replay (hA : Accounts B L t live held u) (hroom : B.room ≤ maxHeap) (i : Nat)
    (huses : UsesHeld held ops) (hafford : Affordable B u ops) :
    ∃ L' live', replay L t i ops = .ok L' ∧ Spent B L' live' := by
  induction ops generalizing L t live held u i with
  | nil => exact ⟨L, live, rfl, hA.spent⟩
  | cons op ops ih =>
      rcases hexec : execLayout L (callOf t op) with ⟨L', q⟩
      obtain ⟨hfine, hA'⟩ := hA.request hroom huses.1 hafford.1 hexec
      rw [TraceVerdict.replay]
      simp only [hexec, hfine]
      exact ih hA' (i + 1) huses.2 hafford.2

theorem Affordable.sizeNonneg (hafford : Affordable B u ops) : ∀ op ∈ ops, SizeNonneg op := by
  induction ops generalizing u with
  | nil => exact fun op hop => absurd hop List.not_mem_nil
  | cons op ops ih =>
      refine List.forall_mem_cons.mpr ⟨?_, ih hafford.2⟩
      cases op with
      | alloc index size => exact hafford.1.1
      | realloc index size => exact hafford.1.elim
      | free index => trivial

theorem Affordable.noZeroRealloc (hafford : Affordable B u ops) : NoZeroRealloc ops := by
  intro index
  induction ops generalizing u with
  | nil => exact List.not_mem_nil
  | cons op ops ih =>
      intro hmem
      rcases List.mem_cons.mp hmem with rfl | hmem
      · exact hafford.1
      · exact ih hafford.2 hmem

end Replay

/-- `eval_mm_valid` passes every trace that stays within a budget for which the arena has
room, without a report, and leaves a heap no longer than that room. -/
theorem affordable_trace_passes {B : Budget} {ops : List Request} (huses : UsesHeld ∅ ops)
    (hafford : Affordable B noUsage ops) (hroom : B.room ≤ maxHeap) (tracenum : Nat)
    (d : Driver Heap Payloads) :
    ∃ d', (evalMmValid mmPackage tracenum ops).run d = .ok (true, d') ∧ d'.errors = d.errors ∧
      d'.heap.memHeapsize ≤ B.room := by
  obtain ⟨L, live, hreplay, hspent⟩ :=
    (accounts_start B d.heap.arena.start).replay hroom 0 huses hafford
  obtain ⟨h, hI, hvalid, -⟩ := mm_started d
  obtain ⟨d', hrun, hok, -⟩ := (follows_started hI d).requests tracenum 0 huses
    hafford.sizeNonneg hafford.noZeroRealloc
  obtain ⟨herrors, hI'⟩ := hok L hreplay
  rw [hvalid]
  rw [hreplay] at hrun
  refine ⟨d', hrun, herrors, ?_⟩
  have htop := hspent.room
  rw [Heap.memHeapsize, hI'.represents.base, hI'.represents.memBrk_eq_top]
  omega

theorem affordable_trace_passes_sample :
    ∃ d', (evalMmValid mmPackage 0
        [.alloc 0 24, .alloc 1 100, .free 0, .alloc 2 0, .alloc 0 60, .free 1]).run
        sampleTraceDriver = .ok (true, d') ∧
      d'.errors = sampleTraceDriver.errors ∧ d'.heap.memHeapsize ≤ 520 := by
  have hafford : Affordable ⟨2, 120, 216⟩ noUsage
      [.alloc 0 24, .alloc 1 100, .free 0, .alloc 2 0, .alloc 0 60, .free 1] := by decide
  exact affordable_trace_passes (by decide) hafford (by decide) 0 sampleTraceDriver

end MallocLab.AffordableTraces
