import MallocLab.Replays
import MallocLab.TraceBookkeeping

/-!
`main` runs `eval_mm_util` and `eval_mm_speed` on the traces that `eval_mm_valid`
accepted.  `eval_mm_speed` reads the `NULL` of a request for nothing as a failure, and
ends the program.
-/

namespace MallocLab.TraceAgreement

open MallocLab.Machine
open MallocLab.HeapPrograms
open MallocLab.Runs
open MallocLab.MallocPackage
open MallocLab.Mdriver
open MallocLab.TraceSteps
open MallocLab.TraceBookkeeping
open MallocLab.Replays

variable {tracenum : Nat} {ops : List Request} {d d₁ : Driver Heap Payloads}

/-- After `eval_mm_valid` left `d₁`, the other two run to their ends, no payload is
rejected, and every request has the call and the result it had. -/
def RunsAlike (tracenum : Nat) (ops : List Request) (d₁ : Driver Heap Payloads) : Prop :=
  ∃ t d₂ d₃, (utilTotals mmPackage tracenum ops).run d₁ = .ok (some t, d₂) ∧
    d₂.errors = d₁.errors ∧ d₂.issued = d₁.issued ∧
    (evalMmSpeed mmPackage ops).run d₂ = .ok ((), d₃) ∧ d₃.issued = d₁.issued

/-- No 'a' and no 'r' of the trace asks for zero bytes. -/
def AsksAlways (ops : List Request) : Prop := ∀ op ∈ ops, ¬ ZeroSized op

instance : DecidablePred AsksAlways := fun ops =>
  inferInstanceAs (Decidable (∀ op ∈ ops, ¬ ZeroSized op))

theorem RunsAlike.asksAlways (hruns : RunsAlike tracenum ops d₁) : AsksAlways ops := by
  obtain ⟨t, d₂, d₃, -, -, -, hspeed, -⟩ := hruns
  obtain ⟨h, -, -, -, hstart⟩ := mm_started d₂
  rw [hstart] at hspeed
  exact speedRequests_nonzero hspeed

theorem runsAlike_of_asksAlways (hvalid : (evalMmValid mmPackage tracenum ops).run d = .ok (true, d₁))
    (huses : UsesHeld ∅ ops) (hnonzero : AsksAlways ops) : RunsAlike tracenum ops d₁ := by
  obtain ⟨h₀, hI₀, hstart₀, -⟩ := mm_started d
  obtain ⟨h₁, hI₁, -, hstart₁, -⟩ := mm_started d₁
  have hbase₁ := arena_kept hvalid huses
  rw [hstart₀] at hvalid
  rw [hbase₁] at hI₁
  obtain ⟨t, d₂, hutil, hF, herrors, -⟩ :=
    (fullLockstep_started hI₀ hI₁ d d₁).util (t := ⟨0, 0⟩) huses hvalid
  obtain ⟨L, hS⟩ := hF.layout
  obtain ⟨h₂, hI₂, -, -, hstart₂⟩ := mm_started d₂
  have hbase₂ : d₂.heap.arena.start = d.heap.arena.start := hS.memHeapLo.trans hbase₁
  rw [hbase₂] at hI₂
  obtain ⟨d₃, hspeed, hL⟩ :=
    (lockstep_started hI₀ hI₂ d { d₂ with issued := [] } rfl).speedRequests huses hnonzero hvalid
  exact ⟨t, d₂, d₃, (hstart₁ tracenum ops).trans hutil, herrors, hF.issued,
    (hstart₂ ops).trans hspeed, hL.issued⟩

/-- The three interpreters run alike if no request asks for zero bytes and every 'r' and
'f' is about an id that holds a payload; with a request for zero bytes they never do. -/
theorem interpreters_agree (hvalid : (evalMmValid mmPackage tracenum ops).run d = .ok (true, d₁)) :
    (UsesHeld ∅ ops → (RunsAlike tracenum ops d₁ ↔ AsksAlways ops)) ∧
      (RunsAlike tracenum ops d₁ → AsksAlways ops) :=
  ⟨fun huses => ⟨RunsAlike.asksAlways, runsAlike_of_asksAlways hvalid huses⟩,
    RunsAlike.asksAlways⟩

theorem interpreters_agree_sample :
    ∃ d₁, (evalMmValid mmPackage 0 [.alloc 0 24, .free 0]).run sampleTraceDriver =
      .ok (true, d₁) ∧ RunsAlike 0 [.alloc 0 24, .free 0] d₁ := by
  obtain ⟨d₁, hvalid⟩ := sample_alloc_free
  have hasks : AsksAlways [.alloc 0 24, .free 0] := by decide
  exact ⟨d₁, hvalid, ((interpreters_agree hvalid).1 (by decide)).mpr hasks⟩

/-- `eval_mm_valid` accepts a request for nothing, and then `eval_mm_speed` ends the
program. -/
theorem alloc_zero_ends_speed :
    ∃ d₁, (evalMmValid mmPackage 0 [.alloc 0 0]).run sampleTraceDriver = .ok (true, d₁) ∧
      ¬ RunsAlike 0 [.alloc 0 0] d₁ := by
  obtain ⟨h, hI, hstart, -⟩ := mm_started sampleTraceDriver
  obtain ⟨s, hcall, -⟩ := exec_run hI (c := .malloc 0) trivial
    (serves_of_int ⟨by decide, by decide⟩)
  rw [← exec_mmPackage] at hcall
  have hzero : ZeroSized (.alloc 0 0) := rfl
  have hrequest := validRequest_nothing (d := started sampleTraceDriver h) 0 0 hzero hcall
  have hvalid : ∃ d₁, (evalMmValid mmPackage 0 [.alloc 0 0]).run sampleTraceDriver =
      .ok (true, d₁) := by
    rw [hstart, validRequests, run_bind_of_ok hrequest]
    exact ⟨_, rfl⟩
  obtain ⟨d₁, hvalid⟩ := hvalid
  exact ⟨d₁, hvalid, fun hruns => hruns.asksAlways _ List.mem_cons_self rfl⟩

end MallocLab.TraceAgreement
