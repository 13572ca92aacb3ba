import MallocLab.ReplRealloc

/-!
The commands that break the invariant of the REPL, and with them the exact condition under which
a command keeps it.
-/

namespace MallocLab.ReplSoundness

open MallocLab.Machine
open MallocLab.HeapPrograms
open MallocLab.HeapGrowth
open MallocLab.Runs
open MallocLab.MallocPackage
open MallocLab.Mdriver
open MallocLab.DriverPrograms
open MallocLab.AllocatorContract
open MallocLab.TraceSteps
open MallocLab.TraceBookkeeping
open MallocLab.Repl
open MallocLab.ReplHoldings
open MallocLab.ReplInvariant
open MallocLab.ReplCommands
open MallocLab.ReplRealloc

section Calls

variable {α β : Type} {d d' : Driver Heap ReplState} {index : Int} {i : Nat} {size : BitVec 32}
  {out : List Printed}

/-- The program makes no call of the package. -/
def MakesNoCall (x : ReplM Heap α) : Prop :=
  ∀ d a d', x.run d = .ok (a, d') → d'.issued = d.issued

theorem MakesNoCall.bind {x : ReplM Heap α} {f : α → ReplM Heap β} (hx : MakesNoCall x)
    (hf : ∀ a, MakesNoCall (f a)) : MakesNoCall (x >>= f) := by
  intro d b d' hrun
  obtain ⟨a, d₁, hfirst, hrest⟩ := run_bind_eq_ok hrun
  exact (hf a d₁ b d' hrest).trans (hx d a d₁ hfirst)

theorem makesNoCall_pure (a : α) : MakesNoCall (pure a : ReplM Heap α) := by
  intro d b d' hrun
  cases hrun
  rfl

theorem makesNoCall_removeRange (lo : Nat) : MakesNoCall (removeRange lo : ReplM Heap Unit) := by
  intro d b d' hrun
  cases hrun
  rfl

theorem makesNoCall_replError (c : Complaint) : MakesNoCall (replError c : ReplM Heap Unit) := by
  intro d b d' hrun
  cases hrun
  rfl

theorem makesNoCall_setReplBlock (i : Nat) (b : ReplBlock) :
    MakesNoCall (setReplBlock i b : ReplM Heap Unit) := by
  intro d b d' hrun
  cases hrun
  rfl

theorem makesNoCall_addReplRange (hsize : size ≠ 0) (lo : Nat) :
    MakesNoCall (addReplRange mmPackage lo size) := by
  intro d b d' hrun
  rw [addReplRange, run_bind_of_ok (run_get d)] at hrun
  obtain ⟨-, ⟨-, -, rfl⟩ | ⟨c, -, -, rfl⟩⟩ := addRange_cases hsize hrun
  · rfl
  · rfl

theorem makesNoCall_checkData (p i : Nat) (oldsize : Word) (size : BitVec 32) :
    MakesNoCall (checkData mmPackage p i oldsize size : ReplM Heap Bool) := by
  intro d b d' hrun
  obtain ⟨-, rfl⟩ := checkData_eq_ok hrun
  rfl

theorem makesNoCall_fillRange (p i : Nat) (size : BitVec 32) :
    MakesNoCall (fillRange mmPackage p i size : ReplM Heap Unit) := by
  intro d b d' hrun
  obtain ⟨s, -, rfl⟩ := fillRange_eq_ok hrun
  rfl

/-- `realloc` makes one call, with the pointer that its index has, valid or not. -/
theorem remallocCmd_calls (hindex : indexInTable index = some i)
    (hrun : (remallocCmd mmPackage index size).run d = .ok (out, d')) :
    ∃ q, newCalls d d' = [⟨i, .realloc (d.table.blocks i).ptr (size.signExtend 64), q⟩] := by
  rw [remallocCmd, hindex] at hrun
  dsimp only at hrun
  rw [run_bind_of_ok (getReplBlock_run i d)] at hrun
  obtain ⟨q, d₁, hcall, hrest⟩ := run_bind_eq_ok hrun
  obtain ⟨s, -, rfl⟩ := callMm_eq_ok hcall
  refine ⟨q, newCalls_append ?_⟩
  refine Eq.trans ?_ (show (issue d s i (.realloc (d.table.blocks i).ptr (size.signExtend 64))
    q).issued = _ from rfl)
  rcases Decidable.em (q = null ∧ size ≠ 0) with hfails | hgoes
  · rw [if_pos hfails] at hrest
    exact (makesNoCall_replError _).bind (fun _ => makesNoCall_pure _) _ _ _ hrest
  rw [if_neg hgoes] at hrest
  rcases Decidable.em (size = 0) with hzero | hsize
  · rw [if_pos hzero] at hrest
    exact makesNoCall_pure _ _ _ _ hrest
  rw [if_neg hsize] at hrest
  refine (makesNoCall_removeRange _).bind (fun _ => (makesNoCall_addReplRange hsize _).bind
    fun added => ?_) _ _ _ hrest
  split
  · refine (makesNoCall_checkData _ _ _ _).bind fun passed => ?_
    split
    · exact (makesNoCall_fillRange _ _ _).bind fun _ =>
        (makesNoCall_setReplBlock _ _).bind fun _ => makesNoCall_pure _
    · exact (makesNoCall_replError _).bind fun _ => makesNoCall_pure _
  · exact makesNoCall_pure _

end Calls

section Breaking

variable {d d' : Driver Heap ReplState} {cmd : Command} {index : Int} {i j ptr q : Nat}
  {size : BitVec 32} {s : Heap} {out : List Printed}

/-- The command is sound, so the state it leaves is. -/
theorem tableSound_of_run (hsound : StepSound d cmd) (hrun : cmd.handler.run d = .ok (out, d')) :
    TableSound d' := by
  obtain ⟨out', d'', hrun', htable, -⟩ := hsound
  obtain ⟨-, rfl⟩ := Prod.mk.inj (Except.ok.inj (hrun'.symm.trans hrun))
  exact htable

/-- In a sound table every valid index has the pointer that it obtained. -/
theorem obtained_of_valid (htable : TableSound d) (hi : i < numBlocks)
    (hvalid : (d.table.blocks i).isValid = true) :
    ∃ n, (i, (d.table.blocks i).ptr, n) ∈ holdings d.issued := ((htable.valid_iff i hi).mp hvalid).1

/-- An index that stays valid, and whose pointer it did not obtain or has released. -/
theorem not_tableSound_of_lost {hs : Holdings} (hj : j < numBlocks)
    (hblock : d'.table.blocks j = d.table.blocks j) (hvalid : (d.table.blocks j).isValid = true)
    (hlog : holdings d'.issued = hs) (hlost : ∀ n, (j, (d.table.blocks j).ptr, n) ∉ hs) :
    ¬ TableSound d' := by
  intro htable
  obtain ⟨n, hmem⟩ := obtained_of_valid htable hj (by rw [hblock]; exact hvalid)
  rw [hblock, hlog] at hmem
  exact hlost n hmem

/-- A reset forgets the payloads, and the table still has them. -/
theorem reset_run (hi : i < numBlocks) (hvalid : (d.table.blocks i).isValid = true) :
    ∃ d', (Command.handler .reset).run d = .ok ([], d') ∧ ¬ TableSound d' := by
  obtain ⟨h', d', hrun, -, hleaves⟩ := resetCmd_run d
  have hlog : holdings d'.issued = [] := by
    rw [hleaves.issued]
    rfl
  refine ⟨d', hrun, not_tableSound_of_lost hi (congrFun hleaves.blocks i) hvalid hlog fun n => ?_⟩
  exact List.not_mem_nil

/-- `realloc` passes the pointer of its index to `mm_realloc`. -/
theorem realloc_passes (hsound : StepSound d (.realloc index size))
    (hindex : indexInTable index = some i) :
    (d.table.blocks i).ptr = null ∨ IsValidPtr d.table (d.table.blocks i).ptr := by
  obtain ⟨out, d', hrun, -, hcalls⟩ := hsound
  obtain ⟨q, hnew⟩ := remallocCmd_calls hindex hrun
  rw [hnew] at hcalls
  exact hcalls _ List.mem_cons_self

/-- A size of zero releases the payload, and its index stays valid. -/
theorem realloc_zero_run (hC : Inv d) (hindex : indexInTable index = some i)
    (hj : j < numBlocks) (hvalid : (d.table.blocks j).isValid = true)
    (hptr : (d.table.blocks j).ptr = (d.table.blocks i).ptr) :
    ∃ d', (Command.handler (.realloc index 0)).run d = .ok ([], d') ∧ ¬ TableSound d' := by
  have hlive := hC.live hj hvalid
  rw [hptr] at hlive
  have hnull := hC.ne_null hlive
  have hzero : (0 : BitVec 32).signExtend 64 = 0 := by decide
  obtain ⟨q, s, hcall, -, hnothing, -⟩ :=
    hC.call (c := .realloc (d.table.blocks i).ptr ((0 : BitVec 32).signExtend 64)) i
      (.inr ⟨_, hlive⟩) (nonNegative_size (by decide))
  obtain rfl := hnothing hzero
  obtain ⟨d', hrun, hleaves⟩ := remallocCmd_nothing hindex rfl hcall
  have hlog : holdings d'.issued = without (holdings d.issued) (d.table.blocks i).ptr := by
    rw [hleaves.issued, holdings_concat, holdingsAfter]
    simp only [if_neg hnull, if_pos hzero]
  refine ⟨d', hrun, not_tableSound_of_lost hj (congrFun hleaves.blocks j) hvalid hlog ?_⟩
  intro n hmem
  exact (mem_without.mp hmem).2 hptr

/-- The payload of another index is taken away from it. -/
theorem not_sound_of_alias (hindex : indexInTable index = some i)
    (hj : j < numBlocks) (hvalid : (d.table.blocks j).isValid = true) (hne : j ≠ i)
    (hptr : (d.table.blocks j).ptr = (d.table.blocks i).ptr) (hpos : 0 < size.toInt)
    (hserved : Served d i (d.table.blocks i).ptr size q s) (hq : q ≠ null)
    (hcall : (mmPackage.exec (.realloc (d.table.blocks i).ptr (size.signExtend 64))).run d.heap =
      .ok (q, s)) : ¬ StepSound d (.realloc index size) := by
  intro hsound
  have hlost : ∀ n, (j, (d.table.blocks j).ptr, n) ∉
      (i, q, size.signExtend 64) :: without (holdings d.issued) (d.table.blocks i).ptr := by
    intro n hmem
    rcases List.mem_cons.mp hmem with heq | hmem
    · exact hne (congrArg Prod.fst heq)
    · exact (mem_without.mp hmem).2 hptr
  obtain ⟨b, hdata⟩ := compareData_live mm_contract hserved.mm i (d.table.blocks i).size
  rcases b with _ | _
  · obtain ⟨d', hrun, hleaves⟩ := remallocCmd_stops hindex rfl hcall hq hpos hserved.fine hdata
    have hlog := (congrArg holdings hleaves.issued).trans hserved.log
    exact not_tableSound_of_lost hj (congrFun hleaves.blocks j) hvalid hlog hlost
      (tableSound_of_run hsound hrun)
  · obtain ⟨s', hfill, -⟩ :=
      mm_contract.memset _ _ hserved.mm (q, size.signExtend 64) List.mem_cons_self (fillByte i)
    obtain ⟨d', hrun, hleaves⟩ :=
      remallocCmd_stores hindex rfl hcall hq hpos hserved.fine hdata hfill
    have hlog := (congrArg holdings hleaves.issued).trans hserved.log
    have hblock : d'.table.blocks j = d.table.blocks j := by
      rw [hleaves.blocks]
      exact Function.update_of_ne hne _ _
    exact not_tableSound_of_lost hj hblock hvalid hlog hlost (tableSound_of_run hsound hrun)

/-- A payload that changed its size and fails the data check has a record of its new size, and
the table has the old one. -/
theorem not_sound_of_check (hC : Inv d) (hindex : indexInTable index = some i)
    (hvalid : (d.table.blocks i).isValid = true) (hpos : 0 < size.toInt)
    (hlarge : ¬ i &&& 0xFF < 128) (hother : size.signExtend 64 ≠ (d.table.blocks i).size)
    (hserved : Served d i (d.table.blocks i).ptr size q s) (hq : q ≠ null)
    (hcall : (mmPackage.exec (.realloc (d.table.blocks i).ptr (size.signExtend 64))).run d.heap =
      .ok (q, s)) : ¬ StepSound d (.realloc index size) := by
  intro hsound
  have hi := indexInTable_lt hindex
  have hdata := check_fails hC hi hvalid hpos hlarge hserved
  obtain ⟨d', hrun, hleaves⟩ := remallocCmd_stops hindex rfl hcall hq hpos hserved.fine hdata
  have hrange : payloadRange q size ∈ validRanges d'.table := by
    apply (tableSound_of_run hsound hrun).ranges.mem_iff.mp
    rw [hleaves.ranges]
    exact List.mem_cons_self
  obtain ⟨j, hj, heq⟩ := List.mem_map.mp hrange
  obtain ⟨hj, hjvalid⟩ := List.mem_filter.mp hj
  rw [hleaves.blocks] at heq hjvalid
  rw [← rangeOf_signExtend hpos.le] at heq
  have hjmem := hC.mem (List.mem_range.mp hj) hjvalid
  have hq' : (d.table.blocks j).ptr = q := congrArg Range.lo heq
  have hends : (d.table.blocks j).ptr + (d.table.blocks j).size.toNat - 1 =
      q + (size.signExtend 64).toNat - 1 := congrArg Range.hi heq
  have hfresh := (List.nodup_cons.mp (keys_nodup mm_contract hserved.mm)).1
  rcases Decidable.em ((d.table.blocks j).ptr = (d.table.blocks i).ptr) with hsame | hne
  · obtain rfl := hC.eq_of_valid (List.mem_range.mp hj) hi hjvalid hvalid hsame
    have hold := hC.mm.2 _ (hC.live hi hvalid)
    have hnew := hserved.mm.2 _ List.mem_cons_self
    have hold' := toNat_le_of_pos hold
    have hnew' := toNat_le_of_pos hnew
    change 0 < (d.table.blocks j).size.toInt at hold
    change ((d.table.blocks j).size.toNat : Int) = (d.table.blocks j).size.toInt at hold'
    change 0 < (size.signExtend 64).toInt at hnew
    change ((size.signExtend 64).toNat : Int) = (size.signExtend 64).toInt at hnew'
    apply hother
    apply BitVec.eq_of_toNat_eq
    omega
  · apply hfresh
    have hmem := List.mem_map_of_mem (f := Prod.fst)
      (List.mem_map_of_mem (f := Prod.snd) (mem_without.mpr ⟨hjmem, hne⟩))
    rwa [← hq']

/-- A sound command is a careful one. -/
theorem careful_of_sound (hC : Inv d) (hdomain : InDomain cmd) (hsound : StepSound d cmd) :
    Careful d cmd := by
  cases cmd with
  | malloc index size => trivial
  | free index => trivial
  | print block => trivial
  | reset =>
      intro i hi
      rcases hvalid : (d.table.blocks i).isValid with _ | _
      · rfl
      · obtain ⟨d', hrun, hnot⟩ := reset_run hi hvalid
        exact absurd (tableSound_of_run hsound hrun) hnot
  | realloc index size =>
      intro i hindex
      rcases realloc_passes hsound hindex with hnull | hptr
      · exact .inl hnull
      obtain ⟨j, hj, hjvalid, hjptr⟩ := id hptr
      have hne : size ≠ 0 := by
        rintro rfl
        obtain ⟨d', hrun, hnot⟩ := realloc_zero_run hC hindex hj hjvalid hjptr
        exact hnot (tableSound_of_run hsound hrun)
      have hpos := toInt_pos hdomain hne
      refine .inr ⟨mt signExtend_eq_zero_iff.mp hne, hptr, or_iff_not_imp_left.mpr fun hroom => ?_⟩
      obtain ⟨q, s, hcall, hnull, -, hserved⟩ := realloc_valid hC hj hjvalid hjptr hdomain hne i
      have hq : q ≠ null := mt hnull.mp hroom
      obtain rfl : j = i := by
        by_contra hother
        exact not_sound_of_alias hindex hj hjvalid hother hjptr hpos (hserved hq) hq hcall hsound
      refine ⟨hjvalid, or_iff_not_imp_left.mpr fun hlarge => ?_⟩
      by_contra hsize
      exact not_sound_of_check hC hindex hjvalid hpos hlarge hsize (hserved hq) hq hcall hsound

end Breaking

section Reaching

variable {d : Driver Heap ReplState} {cmd : Command}

theorem keeping_of_careful (hC : Inv d) (hdomain : InDomain cmd) (hcareful : Careful d cmd) :
    Keeping d cmd := by
  cases cmd with
  | malloc index size => exact keeping_malloc hC hdomain
  | realloc index size => exact keeping_realloc hC hdomain hcareful
  | free index => exact keeping_free hC
  | reset => exact keeping_reset hcareful
  | print block => exact keeping_print hC block

theorem Reached.inv (hreach : Reached d) : Inv d := by
  induction hreach with
  | start hrun => exact inv_start hrun
  | step _ hdomain hcareful hrun ih =>
      obtain ⟨out', d'', hrun', hC, -⟩ := keeping_of_careful ih hdomain hcareful
      obtain ⟨-, rfl⟩ := Prod.mk.inj (Except.ok.inj (hrun'.symm.trans hrun))
      exact hC

end Reaching

/-- The table, the records and the heap agree in every state that careful commands reach, and
there the careful commands are exactly those that keep it so and pass no dead pointer. -/
theorem repl_invariant {d : Driver Heap ReplState} (hreach : Reached d) :
    TableSound d ∧ ∀ cmd, InDomain cmd → (StepSound d cmd ↔ Careful d cmd) := by
  have hC := Reached.inv hreach
  refine ⟨hC.tableSound, fun cmd hdomain => ?_⟩
  constructor
  · exact careful_of_sound hC hdomain
  · intro hcareful
    exact (keeping_of_careful hC hdomain hcareful).stepSound

section Sample

/-- The REPL after `malloc 0 24`: index 0 is valid. -/
theorem sample_malloc : ∃ d₀ d₁,
    (resetCmd mmPackage).run (replStart sampleArena fun _ => 255) = .ok ([], d₀) ∧
      (Command.handler (.malloc 0 24)).run d₀ = .ok ([], d₁) ∧ Inv d₀ ∧ Inv d₁ ∧
      (d₁.table.blocks 0).isValid = true := by
  obtain ⟨h, d₀, hreset, hI, hleaves⟩ := resetCmd_run (replStart sampleArena fun _ => 255)
  have hC : Inv d₀ := inv_start hreset
  have hfree : (d₀.table.blocks 0).isValid = false := by
    rw [hleaves.blocks]
    rfl
  have hsize : (24 : BitVec 32).signExtend 64 = 24 := by decide
  have hindex : indexInTable 0 = some 0 := rfl
  obtain ⟨q, s, hcall, hmm, -, hkeeps⟩ :=
    hC.call (c := .malloc ((24 : BitVec 32).signExtend 64)) 0 trivial (nonNegative_size (by decide))
  have hq : q ≠ null := by
    obtain ⟨h₁, hcall', -⟩ := exec_run hI (c := .malloc 24) trivial
      (serves_of_int ⟨by decide, by decide⟩)
    have hgranted : (execLayout (emptyLayout sampleArena.start) (.malloc 24)).2 ≠ null := by decide
    rw [hsize, hleaves.heap, exec_mmPackage] at hcall
    obtain ⟨rfl, -⟩ := Prod.mk.inj (Except.ok.inj (hcall'.symm.trans hcall))
    exact hgranted
  obtain ⟨d₁, hrun, hC₁, -, hvalid⟩ := malloc_stored hC hindex hfree (by decide) hcall hq
    hmm fun r hr => hkeeps r hr (hC.ne_null hr)
  exact ⟨d₀, d₁, hreset, hrun, hC, hC₁, hvalid⟩

/-- With index 0 valid, a payload of another size may be asked for, but nothing released. -/
theorem repl_invariant_sample : ∃ d, (d.table.blocks 0).isValid = true ∧ TableSound d ∧
    StepSound d (.realloc 0 40) ∧ ¬ StepSound d (.realloc 0 0) := by
  obtain ⟨d₀, d, hreset, hmalloc, -, hC, hvalid⟩ := sample_malloc
  have hdomain : InDomain (.malloc 0 24) := show 0 ≤ (24 : BitVec 32).toInt by decide
  have hreach : Reached d := .step (.start hreset) hdomain trivial hmalloc
  obtain ⟨htable, hiff⟩ := repl_invariant hreach
  have hzero : 0 < numBlocks := by decide
  refine ⟨d, hvalid, htable, (hiff _ ?_).mpr ?_, mt (hiff _ ?_).mp ?_⟩
  · change 0 ≤ (40 : BitVec 32).toInt
    decide
  · intro i hindex
    obtain rfl : 0 = i := Option.some.inj hindex
    exact .inr ⟨by decide, ⟨0, hzero, hvalid, rfl⟩, .inr ⟨hvalid, .inl (by decide)⟩⟩
  · change 0 ≤ (0 : BitVec 32).toInt
    decide
  · intro hcareful
    rcases hcareful 0 rfl with hnull | ⟨hne, -⟩
    · exact hC.ptr_ne_null hzero hvalid hnull
    · exact hne (by decide)

theorem driver_run {d₀ d₁ d₂ : Driver Heap ReplState} {c₁ c₂ : Command} {out out₁ out₂ : List Printed}
    {start : Driver Heap ReplState} (hreset : (resetCmd mmPackage).run start = .ok (out, d₀))
    (h₁ : c₁.handler.run d₀ = .ok (out₁, d₁)) (h₂ : c₂.handler.run d₁ = .ok (out₂, d₂)) :
    (driver [c₁, c₂]).run start = .ok ((), d₂) := by
  rw [driver, run_bind_of_ok hreset, driverLoop, run_bind_of_ok h₁, driverLoop, run_bind_of_ok h₂]
  rfl

end Sample

/-- `realloc 0 0` and `reset` leave index 0 valid after its payload is gone. -/
theorem valid_index_without_payload :
    (∃ d, (driver [.malloc 0 24, .realloc 0 0]).run (replStart sampleArena fun _ => 255) =
      .ok ((), d) ∧ ¬ TableSound d) ∧
    ∃ d, (driver [.malloc 0 24, .reset]).run (replStart sampleArena fun _ => 255) =
      .ok ((), d) ∧ ¬ TableSound d := by
  obtain ⟨d₀, d₁, hreset, hmalloc, -, hC, hvalid⟩ := sample_malloc
  have hzero : 0 < numBlocks := by decide
  have hindex : indexInTable 0 = some 0 := rfl
  constructor
  · obtain ⟨d₂, hrun, hnot⟩ := realloc_zero_run hC hindex hzero hvalid rfl
    exact ⟨d₂, driver_run hreset hmalloc hrun, hnot⟩
  · obtain ⟨d₂, hrun, hnot⟩ := reset_run hzero hvalid
    exact ⟨d₂, driver_run hreset hmalloc hrun, hnot⟩

end MallocLab.ReplSoundness
