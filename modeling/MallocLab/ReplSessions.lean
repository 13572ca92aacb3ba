import MallocLab.ReplDisplay
import MallocLab.ReplText

/-!
Sessions of the REPL from the text that is typed.  Whatever is typed, with commands that allocate,
free and print only, the REPL comes to its end, and complains of nothing but exhausted memory.
-/

namespace MallocLab.ReplSessions

open MallocLab.Machine
open MallocLab.HeapPrograms
open MallocLab.HeapGrowth
open MallocLab.MallocPackage
open MallocLab.Mdriver
open MallocLab.DriverPrograms
open MallocLab.AllocatorContract
open MallocLab.TraceBookkeeping
open MallocLab.Runs
open MallocLab.Repl
open MallocLab.ReplText
open MallocLab.ReplHoldings
open MallocLab.ReplInvariant
open MallocLab.ReplCommands
open MallocLab.ReplSoundness
open MallocLab.ReplDisplay

section Complaints

variable {d d' : Driver Heap ReplState} {index : Int} {size : BitVec 32} {out : List Printed}

/-- Nothing is reported but that `mm_malloc` failed. -/
def OnlyExhausted (errors : List Report) : Prop := ∀ r ∈ errors, r.complaint = .mallocFailed

theorem OnlyExhausted.report {errors : List Report} (honly : OnlyExhausted errors)
    (tracenum line : Nat) : OnlyExhausted (errors ++ [⟨tracenum, line, .mallocFailed⟩]) := by
  intro r hr
  rcases List.mem_append.mp hr with hr | hr
  · exact honly r hr
  · rw [List.mem_singleton.mp hr]

theorem mallocCmd_complaints (hC : Inv d) (hsize : 0 ≤ size.toInt)
    (honly : OnlyExhausted d.errors)
    (hrun : (mallocCmd mmPackage index size).run d = .ok (out, d')) : OnlyExhausted d'.errors := by
  rw [mallocCmd] at hrun
  split at hrun
  · cases hrun
    exact honly
  · rename_i i hindex
    rw [run_bind_of_ok (getReplBlock_run i d)] at hrun
    split at hrun
    · cases hrun
      exact honly
    · rw [run_bind_of_ok (countOp_run d)] at hrun
      obtain ⟨q, d₁, hfirst, hrun⟩ := run_bind_eq_ok hrun
      obtain ⟨s, hcall, rfl⟩ := callMm_eq_ok hfirst
      split at hrun
      · cases hrun
        exact honly.report _ _
      · split at hrun
        · cases hrun
          exact honly
        · rename_i hserved hne
          have hq : q ≠ null := fun hnull => hserved ⟨hnull, hne⟩
          -- the new payload is clear of the others, so that nothing is wrong with its range
          obtain ⟨q', s', hcall', hmm, -, -⟩ :=
            hC.call (c := .malloc (size.signExtend 64)) i trivial (nonNegative_size hsize)
          obtain ⟨rfl, rfl⟩ := Prod.mk.inj (Except.ok.inj (hcall'.symm.trans hcall))
          have hlog : holdings (d.issued ++ [⟨i, .malloc (size.signExtend 64), q'⟩]) =
              (i, q', size.signExtend 64) :: holdings d.issued := by
            rw [holdings_concat, holdingsAfter]
            exact if_neg hq
          rw [hlog] at hmm
          have hranges : d.ranges.Perm (((holdings d.issued).map Prod.snd).map rangeOf) := by
            rw [List.map_map]
            exact hC.ranges
          have hfine : payloadError mmPackage
              (issue (counted d) s' i (.malloc (size.signExtend 64)) q') q' size = none :=
            payload_fine mm_contract hmm hranges
          rw [run_bind_of_ok (addReplRange_accepts (toInt_pos hsize hne) hfine)] at hrun
          obtain ⟨⟨⟩, d₃, hfilled, hrun⟩ := run_bind_eq_ok hrun
          obtain ⟨s', hfill, rfl⟩ := fillRange_eq_ok hfilled
          cases hrun
          exact honly

theorem freeCmd_complaints (honly : OnlyExhausted d.errors)
    (hrun : (freeCmd mmPackage index).run d = .ok (out, d')) : OnlyExhausted d'.errors := by
  rw [freeCmd] at hrun
  split at hrun
  · cases hrun
    exact honly
  · rename_i i hindex
    rw [run_bind_of_ok (getReplBlock_run i d)] at hrun
    split at hrun
    · cases hrun
      exact honly
    · rw [run_bind_of_ok (countOp_run d), run_bind_of_ok (removeRange_run _ _)] at hrun
      obtain ⟨q, d₁, hfirst, hrun⟩ := run_bind_eq_ok hrun
      obtain ⟨s, hcall, rfl⟩ := callMm_eq_ok hfirst
      cases hrun
      exact honly

end Complaints

section Entries

variable {d : Driver Heap ReplState} {e : Entry} {es p q : List Entry} {cmd : Command}
  {t : List Char} {fuel : Nat}

/-- An entry that allocates, frees or prints, or is no command at all. -/
def Plain : Entry → Prop
  | .command (.malloc _ size) => 0 ≤ size.toInt
  | .command (.realloc _ _) => False
  | .command .reset => False
  | _ => True

instance : DecidablePred Plain
  | .syntaxError => isTrue trivial
  | .noCommand => isTrue trivial
  | .help => isTrue trivial
  | .quit => isTrue trivial
  | .usage _ => isTrue trivial
  | .command (.malloc _ size) => inferInstanceAs (Decidable (0 ≤ size.toInt))
  | .command (.realloc _ _) => isFalse id
  | .command (.free _) => isTrue trivial
  | .command .reset => isFalse id
  | .command (.print _) => isTrue trivial

/-- What holds at every prompt of a plain session. -/
structure Calm (d : Driver Heap ReplState) : Prop where
  tidied : Tidied d
  complaints : OnlyExhausted d.errors

theorem careful_of_plain (hplain : Plain (.command cmd)) :
    InDomain cmd ∧ Careful d cmd ∧ Tidy d cmd := by
  cases cmd with
  | malloc index size => exact ⟨hplain, trivial, trivial⟩
  | realloc index size => exact hplain.elim
  | free index => exact ⟨trivial, trivial, trivial⟩
  | reset => exact hplain.elim
  | print block => exact ⟨trivial, trivial, trivial⟩

theorem Calm.command (hcalm : Calm d) (hplain : Plain (.command cmd)) :
    ∃ out d', cmd.handler.run d = .ok (out, d') ∧ Calm d' := by
  have hC := hcalm.tidied.inv
  obtain ⟨hdomain, hcareful, htidy⟩ := careful_of_plain (d := d) hplain
  obtain ⟨out, d', hrun, -, -⟩ := keeping_of_careful hC hdomain hcareful
  refine ⟨out, d', hrun, hcalm.tidied.step hdomain hcareful htidy hrun, ?_⟩
  cases cmd with
  | malloc index size => exact mallocCmd_complaints hC hplain hcalm.complaints hrun
  | realloc index size => exact hplain.elim
  | free index => exact freeCmd_complaints hcalm.complaints hrun
  | reset => exact hplain.elim
  | print block =>
      obtain ⟨out', hprint⟩ := printCmd_same hC block
      obtain ⟨-, rfl⟩ := Prod.mk.inj (Except.ok.inj (hprint.symm.trans hrun))
      exact hcalm.complaints

theorem Calm.entry (hcalm : Calm d) (hplain : Plain e) (hquit : e ≠ .quit) :
    ∃ out d', e.run.run d = .ok (out, d') ∧ Calm d' := by
  cases e with
  | syntaxError => exact ⟨_, d, rfl, hcalm⟩
  | noCommand => exact ⟨_, d, rfl, hcalm⟩
  | help => exact ⟨_, d, rfl, hcalm⟩
  | quit => exact absurd rfl hquit
  | usage h => exact ⟨_, d, rfl, hcalm⟩
  | command cmd =>
      obtain ⟨out, d', hrun, hcalm'⟩ := hcalm.command hplain
      refine ⟨String.join (out.map Printed.text), d', ?_, hcalm'⟩
      rw [Entry.run, run_bind_of_ok hrun]
      rfl

theorem Calm.entries (hcalm : Calm d) (hplain : ∀ e ∈ es, Plain e) (hquit : .quit ∉ es) :
    ∃ out d', (entryLoop es).run d = .ok (out, d') ∧ Calm d' := by
  induction es generalizing d with
  | nil => exact ⟨_, d, rfl, hcalm⟩
  | cons e es ih =>
      obtain ⟨he, hes⟩ := List.forall_mem_cons.mp hplain
      have hne : e ≠ .quit := (List.ne_of_not_mem_cons hquit).symm
      obtain ⟨out, d₁, hfirst, hcalm₁⟩ := hcalm.entry he hne
      obtain ⟨out', d', hrest, hcalm'⟩ := ih hcalm₁ hes (List.not_mem_of_not_mem_cons hquit)
      refine ⟨"> " ++ out ++ out', d', ?_, hcalm'⟩
      rw [entryLoop, run_bind_of_ok hfirst, run_bind_of_ok hrest]
      rfl

end Entries

end MallocLab.ReplSessions
