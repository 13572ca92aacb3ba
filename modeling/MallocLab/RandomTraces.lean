import Mathlib.Algebra.Order.BigOperators.Group.List
import MallocLab.BalancedHeaps

/-!
The traces that `gen_random.pl` prints.  Whatever is chosen at random, each block is allocated
once and freed once after that, so that the trace is balanced as it is.
-/

namespace MallocLab.RandomTraces

open MallocLab.Machine
open MallocLab.HeapPrograms
open MallocLab.Traversal
open MallocLab.LiveBlocks
open MallocLab.MallocPackage
open MallocLab.Mdriver
open MallocLab.DriverPrograms
open MallocLab.PrintedText
open MallocLab.TraceGrammar
open MallocLab.MdriverMain
open MallocLab.TraceReports
open MallocLab.TraceScripts
open MallocLab.PrintedTraces
open MallocLab.TraceBalancing
open MallocLab.BalancedTraces
open MallocLab.BalancedHeaps

section Freeing

variable {held : Finset Nat} {id : Nat} {l : Line} {ls before after : List Line}

theorem allowed_erase_iff (hl : l.id ≠ id) : Allowed (held.erase id) l ↔ Allowed held l := by
  cases l with
  | alloc i bytes => exact not_congr (Finset.mem_erase.trans (and_iff_right hl))
  | realloc i bytes => exact Finset.mem_erase.trans (and_iff_right hl)
  | free i => exact Finset.mem_erase.trans (and_iff_right hl)

theorem outstandingAfter_erase (hl : l.id ≠ id) :
    outstandingAfter (held.erase id) l = (outstandingAfter held l).erase id := by
  cases l with
  | alloc i bytes => exact (Finset.erase_insert_of_ne hl).symm
  | realloc i bytes => rfl
  | free i => exact Finset.erase_right_comm

/-- Requests about other ids do not depend on the id. -/
theorem consistent_erase_iff (hls : ∀ l ∈ ls, l.id ≠ id) :
    Consistent (held.erase id) ls ↔ Consistent held ls := by
  induction ls generalizing held with
  | nil => exact Iff.rfl
  | cons l ls ih =>
      obtain ⟨hl, hls'⟩ := List.forall_mem_cons.mp hls
      rw [Consistent, Consistent, outstandingAfter_erase hl, allowed_erase_iff hl, ih hls']

theorem outstanding_erase (hls : ∀ l ∈ ls, l.id ≠ id) :
    outstanding (held.erase id) ls = (outstanding held ls).erase id := by
  induction ls generalizing held with
  | nil => rfl
  | cons l ls ih =>
      obtain ⟨hl, hls'⟩ := List.forall_mem_cons.mp hls
      change outstanding (outstandingAfter (held.erase id) l) ls = _
      rw [outstandingAfter_erase hl, ih hls']
      rfl

theorem consistent_append_iff :
    Consistent held (before ++ after) ↔
      Consistent held before ∧ Consistent (outstanding held before) after := by
  induction before generalizing held with
  | nil => exact (iff_of_eq (true_and _)).symm
  | cons l before ih =>
      change Allowed held l ∧ Consistent (outstandingAfter held l) (before ++ after) ↔
        (Allowed held l ∧ Consistent (outstandingAfter held l) before) ∧ _
      rw [ih, and_assoc]
      rfl

/-- A free request fits in behind the last request about its id, if that is outstanding there. -/
theorem free_inserted (hls : Consistent held (before ++ after))
    (hid : id ∈ outstanding held before) (hafter : ∀ l ∈ after, l.id ≠ id) :
    Consistent held (before ++ .free id :: after) ∧
      outstanding held (before ++ .free id :: after) =
        (outstanding held (before ++ after)).erase id := by
  obtain ⟨hbefore, hrest⟩ := consistent_append_iff.mp hls
  constructor
  · exact consistent_append_iff.mpr ⟨hbefore, hid, (consistent_erase_iff hafter).mpr hrest⟩
  · rw [outstanding, outstanding, List.foldl_append, List.foldl_append]
    exact outstanding_erase hafter

/-- An id that is never freed stays outstanding. -/
theorem mem_outstanding_of_mem (hid : id ∈ held) (hfree : .free id ∉ ls) :
    id ∈ outstanding held ls := by
  induction ls generalizing held with
  | nil => exact hid
  | cons l ls ih =>
      refine ih ?_ fun hmem => hfree (List.mem_cons_of_mem l hmem)
      cases l with
      | alloc i bytes => exact Finset.mem_insert_of_mem hid
      | realloc i bytes => exact hid
      | free i =>
          refine Finset.mem_erase.mpr ⟨?_, hid⟩
          rintro rfl
          exact hfree List.mem_cons_self

/-- An id that is allocated and never freed is outstanding. -/
theorem mem_outstanding_of_alloc {bytes : Nat} (halloc : .alloc id bytes ∈ ls)
    (hfree : .free id ∉ ls) : id ∈ outstanding held ls := by
  induction ls generalizing held with
  | nil => exact absurd halloc List.not_mem_nil
  | cons l ls ih =>
      have hfree' : .free id ∉ ls := fun hmem => hfree (List.mem_cons_of_mem l hmem)
      rcases List.mem_cons.mp halloc with rfl | halloc
      · have hstays : id ∈ outstanding (insert id held) ls :=
          mem_outstanding_of_mem (Finset.mem_insert_self id held) hfree'
        exact hstays
      · exact ih halloc hfree'

end Freeing

section Stages

variable {c : Choices} {n i pos : Nat} {l : Line} {ls : List Line}

theorem insertIdx_eq_take_drop {α : Type} (a : α) {xs : List α} {k : Nat} (hk : k ≤ xs.length) :
    xs.insertIdx k a = xs.take k ++ a :: xs.drop k := by
  induction xs generalizing k with
  | nil =>
      obtain rfl := Nat.le_zero.mp hk
      rfl
  | cons x xs ih =>
      cases k with
      | zero => rfl
      | succ k => exact congrArg (x :: ·) (ih (Nat.le_of_succ_le_succ hk))

/-- The trace before the free request of block `i` is put in. -/
structure Stage (c : Choices) (n i : Nat) (ls : List Line) : Prop where
  allocs : ls.filter Line.tracked = randomAllocs c n
  freed : ∀ id, .free id ∈ ls ↔ id < i
  length : ls.length = n + i
  consistent : Consistent ∅ ls
  outstanding : ∀ id, id ∈ outstanding ∅ ls ↔ i ≤ id ∧ id < n

theorem mem_randomAllocs : l ∈ randomAllocs c n ↔ ∃ id < n, l = .alloc id (c.size id) := by
  simp [randomAllocs, eq_comm]

theorem randomAllocs_succ (c : Choices) (n : Nat) :
    randomAllocs c (n + 1) = randomAllocs c n ++ [.alloc n (c.size n)] := by
  rw [randomAllocs, List.range_succ, List.map_append]
  rfl

theorem stage_randomAllocs (c : Choices) (n : Nat) :
    Consistent ∅ (randomAllocs c n) ∧ ∀ id, id ∈ outstanding ∅ (randomAllocs c n) ↔ id < n := by
  induction n with
  | zero => exact ⟨trivial, fun id => by simp [randomAllocs, outstanding]⟩
  | succ n ih =>
      obtain ⟨hconsistent, hids⟩ := ih
      rw [randomAllocs_succ]
      constructor
      · refine consistent_append_iff.mpr ⟨hconsistent, fun hmem => ?_, trivial⟩
        exact lt_irrefl n ((hids n).mp hmem)
      · intro id
        rw [outstanding, List.foldl_append]
        change id ∈ insert n (outstanding ∅ (randomAllocs c n)) ↔ _
        rw [Finset.mem_insert, hids, Nat.lt_succ_iff_lt_or_eq, or_comm]

theorem Stage.start (c : Choices) (n : Nat) : Stage c n 0 (randomAllocs c n) := by
  obtain ⟨hconsistent, hids⟩ := stage_randomAllocs c n
  refine ⟨?_, fun id => ?_, ?_, hconsistent, fun id => ?_⟩
  · refine List.filter_eq_self.mpr fun l hl => ?_
    obtain ⟨id, -, rfl⟩ := mem_randomAllocs.mp hl
    rfl
  · simp [mem_randomAllocs]
  · rw [randomAllocs, List.length_map, List.length_range, Nat.add_zero]
  · rw [hids]
    exact (and_iff_right (Nat.zero_le id)).symm

theorem Stage.alloc_iff (hS : Stage c n i ls) (hl : l.tracked = true) :
    l ∈ ls ↔ ∃ id < n, l = .alloc id (c.size id) := by
  rw [← mem_randomAllocs, ← hS.allocs, List.mem_filter]
  exact (and_iff_left hl).symm

/-- The first `i` places have no request to allocate block `i`. -/
theorem Stage.id_lt_of_take (hS : Stage c n i ls) (hl : l ∈ ls.take i)
    (htracked : l.tracked = true) : l.id < i := by
  have hprefix : (ls.take i).filter Line.tracked <+: randomAllocs c n := by
    rw [← hS.allocs]
    exact (List.take_prefix i ls).filter _
  have hlen : ((ls.take i).filter Line.tracked).length ≤ i :=
    (List.length_filter_le _ _).trans (List.length_take_le i ls)
  have hmem : l ∈ (ls.take i).filter Line.tracked := List.mem_filter.mpr ⟨hl, htracked⟩
  rw [List.prefix_iff_eq_take.mp hprefix] at hmem
  generalize ((ls.take i).filter Line.tracked).length = k at hlen hmem
  rw [randomAllocs, ← List.map_take, List.take_range] at hmem
  obtain ⟨id, hid, rfl⟩ := List.mem_map.mp hmem
  have hlt := List.mem_range.mp hid
  change id < i
  omega

/-- Where the script finds the request to allocate block `i`. -/
theorem Stage.found (hS : Stage c n i ls) (hi : i < n) :
    i + (ls.drop i).findIdx (isAllocOf i) < ls.length ∧
      .alloc i (c.size i) ∈ ls.take (i + (ls.drop i).findIdx (isAllocOf i) + 1) := by
  have hmem : .alloc i (c.size i) ∈ ls := (hS.alloc_iff rfl).mpr ⟨i, hi, rfl⟩
  have hdrop : .alloc i (c.size i) ∈ ls.drop i := by
    rw [← List.take_append_drop i ls] at hmem
    rcases List.mem_append.mp hmem with hmem | hmem
    · exact absurd (hS.id_lt_of_take hmem rfl) (lt_irrefl i)
    · exact hmem
  have hfound : (ls.drop i).findIdx (isAllocOf i) < (ls.drop i).length :=
    List.findIdx_lt_length_of_exists ⟨_, hdrop, decide_eq_true rfl⟩
  have hlt : i + (ls.drop i).findIdx (isAllocOf i) < ls.length := by
    rw [List.length_drop] at hfound
    omega
  refine ⟨hlt, ?_⟩
  have hit := List.findIdx_getElem (w := hfound)
  rw [List.getElem_drop] at hit
  have hat := List.getElem_mem hlt
  have hplace : ls[i + (ls.drop i).findIdx (isAllocOf i)] ∈
      ls.take (i + (ls.drop i).findIdx (isAllocOf i) + 1) := by
    rw [List.take_succ_eq_append_getElem hlt]
    exact List.mem_append_right _ (List.mem_singleton.mpr rfl)
  cases hline : ls[i + (ls.drop i).findIdx (isAllocOf i)] with
  | alloc id bytes =>
      rw [hline] at hit hat hplace
      obtain rfl : id = i := of_decide_eq_true hit
      obtain ⟨id', -, heq⟩ := (hS.alloc_iff rfl).mp hat
      obtain ⟨rfl, rfl⟩ := Line.alloc.inj heq
      exact hplace
  | realloc id bytes =>
      rw [hline] at hit
      cases hit
  | free id =>
      rw [hline] at hit
      cases hit

theorem nodup_ids (c : Choices) (n : Nat) : ((randomAllocs c n).map Line.id).Nodup := by
  have hids : (randomAllocs c n).map Line.id = List.range n := by
    rw [randomAllocs, List.map_map]
    exact List.map_id _
  rw [hids]
  exact List.nodup_range

/-- No request about block `i` comes behind its allocation. -/
theorem Stage.id_ne_of_drop (hS : Stage c n i ls) (hbefore : .alloc i (c.size i) ∈ ls.take pos)
    (hl : l ∈ ls.drop pos) : l.id ≠ i := by
  rintro rfl
  cases htracked : l.tracked with
  | true =>
      have hnodup := nodup_ids c n
      rw [← hS.allocs, ← List.take_append_drop pos ls, List.filter_append, List.map_append] at hnodup
      have hdisjoint := List.disjoint_of_nodup_append hnodup
      refine hdisjoint ?_ (List.mem_map_of_mem (List.mem_filter.mpr ⟨hl, htracked⟩))
      exact List.mem_map.mpr ⟨_, List.mem_filter.mpr ⟨hbefore, rfl⟩, rfl⟩
  | false =>
      cases l with
      | alloc id bytes => cases htracked
      | realloc id bytes => cases htracked
      | free id => exact lt_irrefl id ((hS.freed id).mp (List.mem_of_mem_drop hl))

theorem Stage.insertFree (hS : Stage c n i ls) (hi : i < n)
    (hplace : ∀ i k, c.place i k < max k 1) : Stage c n (i + 1) (insertFree c n i ls) := by
  obtain ⟨hlt, hbefore⟩ := hS.found hi
  have hlen := hS.length
  rw [TraceScripts.insertFree]
  generalize hmin : i + (ls.drop i).findIdx (isAllocOf i) = minval at hlt hbefore
  have hpos := hplace i (n + i - minval - 1)
  generalize hat : c.place i (n + i - minval - 1) + minval + 1 = pos
  have hle : pos ≤ ls.length := by omega
  have hbehind : .alloc i (c.size i) ∈ ls.take pos := by
    have hsub : minval + 1 ≤ pos := by omega
    exact (List.take_subset_take_left ls hsub) hbefore
  have hnone : .free i ∉ ls := fun hmem => lt_irrefl i ((hS.freed i).mp hmem)
  have hid : i ∈ BalancedTraces.outstanding ∅ (ls.take pos) :=
    mem_outstanding_of_alloc hbehind fun hmem => hnone (List.mem_of_mem_take hmem)
  have hwhole : ls.take pos ++ ls.drop pos = ls := List.take_append_drop pos ls
  obtain ⟨hconsistent, hleft⟩ := free_inserted (hwhole.symm ▸ hS.consistent) hid
    fun l hl => hS.id_ne_of_drop hbehind hl
  rw [hwhole] at hleft
  rw [insertIdx_eq_take_drop _ hle]
  refine ⟨?_, fun id => ?_, ?_, hconsistent, fun id => ?_⟩
  · rw [List.filter_append, List.filter_cons_of_neg Bool.false_ne_true, ← List.filter_append, hwhole]
    exact hS.allocs
  · rw [List.mem_append, List.mem_cons, or_left_comm, ← List.mem_append, hwhole, hS.freed,
      Nat.lt_succ_iff_lt_or_eq, or_comm]
    exact or_congr_right ⟨Line.free.inj, congrArg Line.free⟩
  · rw [List.length_append, List.length_cons, ← Nat.add_assoc, ← List.length_append, hwhole, hlen]
    rfl
  · rw [hleft, Finset.mem_erase, hS.outstanding]
    omega

theorem Stage.insertFrees (hplace : ∀ i k, c.place i k < max k 1) (k : Nat) (hS : Stage c n i ls)
    (hk : i + k = n) : Stage c n n (insertFrees c n i k ls) := by
  induction k generalizing i ls with
  | zero =>
      obtain rfl : i = n := hk
      exact hS
  | succ k ih =>
      have hi : i < n := by omega
      exact ih (hS.insertFree hi hplace) (by omega)

theorem stage_randomTrace (hplace : ∀ i k, c.place i k < max k 1) (n : Nat) :
    Stage c n n (randomTrace c n) :=
  (Stage.start c n).insertFrees hplace n (Nat.zero_add n)

end Stages

section Files

variable {c : Choices} {n : Nat} {f : TraceFile}

theorem perm_randomTrace (hplace : ∀ i k, c.place i k < max k 1) (n : Nat) :
    (randomTrace c n).Perm (randomAllocs c n ++ frees (List.range n)) := by
  have hS := stage_randomTrace hplace n
  have hparts := List.filter_append_perm Line.tracked (randomTrace c n)
  have hlen := hparts.length_eq
  rw [hS.allocs] at hparts hlen
  refine hparts.symm.trans (List.Perm.append_left _ ?_)
  have hnodup : (frees (List.range n)).Nodup :=
    List.nodup_range.map fun _ _ heq => Line.free.inj heq
  have hsub : frees (List.range n) ⊆ (randomTrace c n).filter fun l => !l.tracked := by
    intro l hl
    obtain ⟨id, hid, rfl⟩ := List.mem_map.mp hl
    exact List.mem_filter.mpr ⟨(hS.freed id).mpr (List.mem_range.mp hid), rfl⟩
  refine ((hnodup.subperm hsub).perm_of_length_le ?_).symm
  rw [List.length_append, hS.length, randomAllocs, List.length_map, List.length_range] at hlen
  rw [frees, List.length_map, List.length_range]
  omega

theorem outstanding_randomTrace (hplace : ∀ i k, c.place i k < max k 1) (n : Nat) :
    outstanding ∅ (randomTrace c n) = ∅ := by
  refine Finset.eq_empty_of_forall_notMem fun id hid => ?_
  obtain ⟨hle, hlt⟩ := ((stage_randomTrace hplace n).outstanding id).mp hid
  exact absurd hlt (Nat.not_lt.mpr hle)

/-- The script makes no difference to its trace. -/
theorem checktrace_genRandom (hplace : ∀ i k, c.place i k < max k 1) (hn : 2 * n < 2 ^ 63) :
    checktrace (genRandom c n) = .ok (some (genRandom c n)) := by
  have hops : 2 * n + (outstanding ∅ (randomTrace c n)).card < 2 ^ 63 := by
    rwa [outstanding_randomTrace hplace, Finset.card_empty]
  obtain ⟨ids, -, hids, hok⟩ := checktrace_of_consistent (stage_randomTrace hplace n).consistent
    (((List.range n).map c.size).sum + 100) n hops
  obtain rfl : ids = [] := by
    refine List.eq_nil_iff_forall_not_mem.mpr fun id hid => ?_
    have hmem := (hids id).mp hid
    rw [outstanding_randomTrace hplace] at hmem
    exact Finset.notMem_empty id hmem
  rw [genRandom, hok]
  exact congrArg (fun ls => Except.ok (some (printTrace _ n (2 * n) ls))) (List.append_nil _)

theorem asks_randomTrace (hplace : ∀ i k, c.place i k < max k 1) (hsize : ∀ i < n, 0 < c.size i)
    (hheap : ((List.range n).map c.size).sum + 100 ≤ 2147483647) :
    ∀ l ∈ randomTrace c n, Asks l := by
  intro l hl
  rcases List.mem_append.mp ((perm_randomTrace hplace n).mem_iff.mp hl) with hl | hl
  · obtain ⟨id, hid, rfl⟩ := mem_randomAllocs.mp hl
    have hmem : c.size id ∈ (List.range n).map c.size :=
      List.mem_map_of_mem (List.mem_range.mpr hid)
    have hle := List.le_sum_of_mem hmem
    exact ⟨(by omega : c.size id ≤ 2147483647), fun _ => (hsize id hid).ne'⟩
  · obtain ⟨id, -, rfl⟩ := List.mem_map.mp hl
    exact ⟨Nat.zero_le _, nofun⟩

theorem numbered_randomTrace (hplace : ∀ i k, c.place i k < max k 1) (hn : 0 < n) :
    Numbered n (randomTrace c n) where
  ids l hl := by
    rcases List.mem_append.mp ((perm_randomTrace hplace n).mem_iff.mp hl) with hl | hl
    · obtain ⟨id, hid, rfl⟩ := mem_randomAllocs.mp hl
      exact hid
    · obtain ⟨id, hid, rfl⟩ := List.mem_map.mp hl
      exact List.mem_range.mp hid
  last := by
    have hlt : n - 1 < n := Nat.sub_lt hn Nat.one_pos
    refine ⟨.alloc (n - 1) (c.size (n - 1)), ?_, rfl, Nat.sub_add_cancel hn⟩
    exact ((stage_randomTrace hplace n).alloc_iff rfl).mpr ⟨n - 1, hlt, rfl⟩

/-- Whatever `gen_random.pl` chooses, as long as it is not the size zero and the total is an
`int`: its trace allocates each block once and frees it once, `checktrace.pl` finds nothing to add,
`main` can evaluate the file, and whenever the trace passes, it leaves a heap of one free block. -/
theorem random_trace_balanced (hplace : ∀ i k, c.place i k < max k 1)
    (hsize : ∀ i < n, 0 < c.size i) (hn : 0 < n)
    (hheap : ((List.range n).map c.size).sum + 100 ≤ 2147483647) (hops : 2 * n ≤ 2147483647)
    (hfile : f.file = some (genRandom c n)) :
    (randomTrace c n).Perm (randomAllocs c n ++ frees (List.range n)) ∧
      checktrace (genRandom c n) = .ok (some (genRandom c n)) ∧ HoldsTrace f (randomTrace c n) ∧
      ∀ tracenum d d', (evalMmValid mmPackage tracenum
          ((randomTrace c n).map requestOfLine)).run d = .ok (true, d') →
        ∃ entries, heapBlocks.run d'.heap = .ok (entries, d'.heap) ∧ Compact d'.heap entries := by
  have hS := stage_randomTrace hplace n
  have hasks := asks_randomTrace hplace hsize hheap
  have hlen : (randomTrace c n).length = 2 * n := hS.length.trans (Nat.two_mul n).symm
  have hfixed := checktrace_genRandom (c := c) (n := n) hplace (by omega)
  refine ⟨perm_randomTrace hplace n, hfixed, ?_, fun tracenum d d' hrun => ?_⟩
  · refine holdsTrace_printTrace hS.consistent hasks (numbered_randomTrace hplace hn) hheap (by omega)
      (hlen.le.trans hops) ?_
    rw [hlen]
    exact hfile
  · exact compact_of_exactlyLive
      (live_of_balanced hS.consistent hasks (outstanding_randomTrace hplace n) hrun).1

def sampleChoices : Choices := ⟨fun i => 40 * i + 13, fun _ k => k / 2⟩

theorem random_trace_balanced_sample :
    checktrace (genRandom sampleChoices 4) = .ok (some (genRandom sampleChoices 4)) ∧
      HoldsTrace ⟨"random2-bal.rep", some (genRandom sampleChoices 4), ⟨1, 2, 3, 4⟩, 5,
        ⟨fun _ => 0, fun _ => 6⟩⟩
        [.alloc 0 13, .alloc 1 53, .free 0, .free 1, .alloc 2 93, .free 2, .alloc 3 133, .free 3] := by
  have hplace : ∀ i k, sampleChoices.place i k < max k 1 := by
    intro i k
    change k / 2 < max k 1
    omega
  obtain ⟨-, hfixed, hholds, -⟩ := random_trace_balanced hplace (n := 4)
    (f := ⟨"random2-bal.rep", some (genRandom sampleChoices 4), ⟨1, 2, 3, 4⟩, 5,
      ⟨fun _ => 0, fun _ => 6⟩⟩) (by decide) (by decide) (by decide) (by decide) rfl
  exact ⟨hfixed, hholds⟩

end Files

end MallocLab.RandomTraces
