import Mathlib.Tactic.Linarith
import MallocLab.PrintedTraces

/-!
The trace that `gen_coalescing.pl` prints passes.  After each of its rounds the heap is one
free block again, of twice the size that a small payload needs, so it never grows after the
first two requests.
-/

namespace MallocLab.CoalescingTrace

open MallocLab.Machine
open MallocLab.Tiling
open MallocLab.HeapGrowth
open MallocLab.AbstractLayout
open MallocLab.AbstractLayout.Layout
open MallocLab.RequestArithmetic
open MallocLab.Runs
open MallocLab.MallocPackage
open MallocLab.Mdriver
open MallocLab.TraceSteps
open MallocLab.TraceVerdict
open MallocLab.Scanf
open MallocLab.PrintedText
open MallocLab.ReadTrace
open MallocLab.TraceGrammar
open MallocLab.WellFormedTraces
open MallocLab.MdriverMain
open MallocLab.TraceReports
open MallocLab.TraceScripts
open MallocLab.PrintedTraces

section Layouts

variable {s : Nat} {size w : Word}

/-- A heap of one block, which has room for two of the need. -/
def wholeBlock (s : Nat) (n : Need) (alloc : Bool) : Block :=
  ⟨s + 16, n.bytes + n.bytes, alloc, by have := n.aligned; omega, by have := n.large; omega⟩

def whole (s : Nat) (n : Need) (alloc : Bool) : Layout where
  start := s
  top := s + 16 + n.bytes + n.bytes
  blocks := [wholeBlock s n alloc]
  freeList := if alloc then [] else [s + 16]

/-- A heap of two blocks of the need. -/
def halves (s : Nat) (n : Need) (first second : Bool) : Layout where
  start := s
  top := s + 16 + n.bytes + n.bytes
  blocks := [⟨s + 16, n.bytes, first, n.aligned, n.sixteen_le⟩,
    ⟨s + 16 + n.bytes, n.bytes, second, n.aligned, n.sixteen_le⟩]
  freeList := if first then if second then [] else [s + 16 + n.bytes] else [s + 16]

theorem malloc_empty (hsize : size ≠ 0) (hroom : 2 * (need size).bytes + 32 ≤ maxHeap) :
    (emptyLayout s).malloc size = ((emptyLayout s).extend (need size), s + 24) := by
  have hfit : (emptyLayout s).firstFit (need size) = none := rfl
  have hbrk : (emptyLayout s).brk + (need size).bytes ≤ (emptyLayout s).maxAddr := by
    change s + 16 + 16 + (need size).bytes ≤ s + maxHeap
    omega
  rw [malloc, if_neg hsize, hfit]
  exact if_pos hbrk

theorem malloc_second (hsize : size ≠ 0) (hroom : 2 * (need size).bytes + 32 ≤ maxHeap) :
    ((emptyLayout s).extend (need size)).malloc size =
      (halves s (need size) true true, s + 16 + (need size).bytes + 8) := by
  have hfit : ((emptyLayout s).extend (need size)).firstFit (need size) = none := rfl
  have hbrk : ((emptyLayout s).extend (need size)).brk + (need size).bytes ≤
      ((emptyLayout s).extend (need size)).maxAddr := by
    change s + 16 + (need size).bytes + 16 + (need size).bytes ≤ s + maxHeap
    omega
  rw [malloc, if_neg hsize, hfit]
  exact if_pos hbrk

theorem malloc_whole (hsize : size ≠ 0) :
    (whole s (need size) false).malloc size = (halves s (need size) true false, s + 24) := by
  have hlarge := (need size).large
  have hfit : (whole s (need size) false).firstFit (need size) =
      some (wholeBlock s (need size) false) := by
    simp [firstFit, blockAt, whole, wholeBlock, Option.filter]
  have hpos : 0 < (need size).bytes := by omega
  rw [malloc, if_neg hsize, hfit]
  simp [place, whole, wholeBlock, halves, replace, splice, hlarge, hpos, Block.stop]

theorem malloc_halves (hsize : size ≠ 0) :
    (halves s (need size) true false).malloc size =
      (halves s (need size) true true, s + 16 + (need size).bytes + 8) := by
  have hlarge := (need size).large
  have hpos : 0 < (need size).bytes := by omega
  have hfit : (halves s (need size) true false).firstFit (need size) =
      some ⟨s + 16 + (need size).bytes, (need size).bytes, false, (need size).aligned,
        (need size).sixteen_le⟩ := by
    simp [firstFit, blockAt, halves, Option.filter, hpos.ne']
  have hlt : s + 16 < s + 16 + (need size).bytes + (need size).bytes := by omega
  rw [malloc, if_neg hsize, hfit]
  simp [place, halves, replace, splice, hpos, hlt, Block.stop]

theorem free_first (s : Nat) (n : Need) :
    (halves s n true true).free (s + 24) = halves s n false true := by
  have hlarge := n.large
  have hpos : 0 < n.bytes := by omega
  simp [free, blockAt, halves, release, freeBefore, freeAfter, replace, splice, Block.absorb,
    Block.stop, unlist, hpos]

theorem free_second (s : Nat) (n : Need) :
    (halves s n false true).free (s + 16 + n.bytes + 8) = whole s n false := by
  have hlarge := n.large
  have hpos : 0 < n.bytes := by omega
  have hlt : s + 16 < s + 16 + n.bytes + n.bytes := by omega
  simp [free, blockAt, halves, whole, wholeBlock, release, freeBefore, freeAfter, replace, splice,
    Block.absorb, Block.stop, unlist, hpos, hpos.ne', hlt.ne]

theorem free_whole (s : Nat) (n : Need) : (whole s n true).free (s + 24) = whole s n false := by
  have hlarge := n.large
  have hpos : 0 < n.bytes := by omega
  simp [free, blockAt, whole, wholeBlock, release, freeBefore, freeAfter, replace, splice,
    Block.absorb, Block.stop, unlist, hpos]

/-- The rest of the one block merges back. -/
theorem free_parts {n : Need} {used rest : Block} (haddr : used.addr = s + 16)
    (halloc : used.alloc = true) (hrest : rest.addr = used.stop) (hfree : rest.alloc = false)
    (hsum : used.size + rest.size = n.bytes + n.bytes) :
    ({ whole s n false with blocks := [used, rest], freeList := [rest.addr] } : Layout).free
      (s + 24) = whole s n false := by
  have hused := used.large
  have hlarge := rest.large
  have hlt : 0 < used.size := by omega
  have hstop : rest.addr = s + 16 + used.size := by rw [hrest, Block.stop, haddr]
  have hback : ¬ s + 16 + used.size + rest.size = s + 16 := by omega
  have hinside : s + 16 < s + 16 + (used.size + rest.size) := by omega
  have hinside' : used.size < used.size + rest.size := by omega
  simp [free, blockAt, whole, wholeBlock, release, freeBefore, freeAfter, replace, splice,
    Block.absorb, Block.stop, unlist, haddr, halloc, hfree, hstop, hback, hinside, hinside', ← hsum]

/-- Any payload that fits is taken from the one block, and gives it back. -/
theorem malloc_free_whole {n : Need} (hw : w ≠ 0) (hfits : (need w).bytes ≤ n.bytes + n.bytes) :
    ∃ L, (whole s n false).malloc w = (L, s + 24) ∧ L.free (s + 24) = whole s n false := by
  have hlarge := (need w).large
  have hpos : 0 < n.bytes := by omega
  have hfit : (whole s n false).firstFit (need w) = some (wholeBlock s n false) := by
    simp [firstFit, blockAt, whole, wholeBlock, Option.filter, hfits]
  rw [malloc, if_neg hw, hfit]
  refine ⟨_, rfl, ?_⟩
  rcases Decidable.em (32 ≤ n.bytes + n.bytes - (need w).bytes) with hsplit | hall
  · have hsize : 32 ≤ (wholeBlock s n false).size - (need w).bytes := hsplit
    rw [place, dif_pos hsize]
    have hblocks : ∀ new, (whole s n false).replace (wholeBlock s n false) new = new := by
      intro new
      simp [whole, wholeBlock, replace, splice, Block.stop, hpos]
    have hlist : (whole s n false).freeList.erase (wholeBlock s n false).addr = [] := by
      simp [whole, wholeBlock]
    simp only [hblocks, hlist]
    apply free_parts
    · rfl
    · rfl
    · rfl
    · rfl
    · change (need w).bytes + (n.bytes + n.bytes - (need w).bytes) = _
      omega
  · have hplace : (whole s n false).place (wholeBlock s n false) (need w) = whole s n true := by
      simp [place, whole, wholeBlock, replace, splice, Block.stop, hall, hpos]
    rw [hplace]
    exact free_whole s n

end Layouts

section Rounds

variable {s b i j p q : Nat} {t : Payloads} {L L' : Layout} {ops : List Request} {size : BitVec 32}

/-- What a payload of so many bytes needs, tags included. -/
def blockBytes (b : Nat) : Nat := max 32 ((b + 7) / 8 * 8 + 16)

/-- The size as it is passed to `mm_malloc`. -/
def argument (b : Nat) : Word := (BitVec.ofNat 32 b).signExtend 64

theorem bytes_need (hb : b ≤ 2147483647) : (need (argument b)).bytes = blockBytes b := by
  have hint : (argument b).toInt = b := toInt_long hb
  have hlt : (argument b).toInt + 23 < 2 ^ 63 := by omega
  have hneed := need_eq hlt
  rw [hint] at hneed
  unfold rounded at hneed
  unfold blockBytes
  omega

theorem argument_ne_zero (hb : b ≤ 2147483647) (hpos : 0 < b) : argument b ≠ 0 :=
  mt signExtend_eq_zero_iff.mp (ofNat_ne_zero hb hpos.ne')

theorem replay_alloc (i : Nat) (t : Payloads) (hmalloc : L.malloc (argument b) = (L', q))
    (hq : q ≠ null) (id : Nat) (hb : b ≤ 2147483647) (hpos : 0 < b) :
    replay L t i (requestOfLine (.alloc id b) :: ops) =
      replay L' (storePayload t id q (argument b)) (i + 1) ops := by
  have hne : BitVec.ofNat 32 b ≠ 0 := ofNat_ne_zero hb hpos.ne'
  have hexec : execLayout L (callOf t (requestOfLine (.alloc id b))) = (L', q) := hmalloc
  have hfine : complaintOf q (requestOfLine (.alloc id b)) = none := if_neg fun hfail => hq hfail.1
  have htable : tableAfter t q (requestOfLine (.alloc id b)) = storePayload t id q (argument b) :=
    if_neg hne
  rw [replay, hexec]
  dsimp only
  rw [hfine, htable]

theorem replay_free (i : Nat) {id : Nat} (hblock : t.blocks id = p) (hp : p ≠ null)
    (hfree : L.free p = L') :
    replay L t i (requestOfLine (.free id) :: ops) = replay L' t (i + 1) ops := by
  have hexec : execLayout L (callOf t (requestOfLine (.free id))) = (L', null) := by
    change (if t.blocks id = null then L else L.free (t.blocks id), null) = _
    rw [hblock, if_neg hp, hfree]
  rw [replay, hexec]
  rfl

/-- The end of a round: both small payloads are freed, and a large one comes and goes. -/
theorem replay_round_end (hb : 0 < b) (hint : 2 * b ≤ 2147483647)
    (hfirst : t.blocks (3 * i) = s + 24)
    (hsecond : t.blocks (3 * i + 1) = s + 16 + (need (argument b)).bytes + 8) (j : Nat)
    (ops : List Request) :
    ∃ t', replay (halves s (need (argument b)) true true) t j
        ((requestOfLine (.free (3 * i)) :: requestOfLine (.free (3 * i + 1)) ::
          requestOfLine (.alloc (3 * i + 2) (2 * b)) :: requestOfLine (.free (3 * i + 2)) :: ops)) =
      replay (whole s (need (argument b)) false) t' (j + 4) ops := by
  have hfits : (need (argument (2 * b))).bytes ≤
      (need (argument b)).bytes + (need (argument b)).bytes := by
    rw [bytes_need hint, bytes_need (by omega)]
    unfold blockBytes
    omega
  obtain ⟨L, hmalloc, hfree⟩ :=
    malloc_free_whole (s := s) (argument_ne_zero hint (by omega)) hfits
  have hnull : ∀ k, k + 8 ≠ null := fun k => Nat.succ_ne_zero _
  refine ⟨storePayload t (3 * i + 2) (s + 24) (argument (2 * b)), ?_⟩
  rw [replay_free j hfirst (hnull (s + 16)) (free_first s _),
    replay_free (j + 1) hsecond (hnull _) (free_second s _),
    replay_alloc (j + 2) t hmalloc (hnull (s + 16)) (3 * i + 2) hint (by omega)]
  have hblock : (storePayload t (3 * i + 2) (s + 24) (argument (2 * b))).blocks (3 * i + 2) =
      s + 24 := Function.update_self ..
  exact replay_free (j + 3) hblock (hnull (s + 16)) hfree

/-- The tables after the two small payloads of a round. -/
def stored (t : Payloads) (i s b : Nat) : Payloads :=
  storePayload (storePayload t (3 * i) (s + 24) (argument b)) (3 * i + 1)
    (s + 16 + (need (argument b)).bytes + 8) (argument b)

/-- A round, from any heap that serves the two small payloads as the halves of one block. -/
theorem replay_round (hb : 0 < b) (hint : 2 * b ≤ 2147483647)
    (hfirst : L.malloc (argument b) = (L', s + 24))
    (hsecond : L'.malloc (argument b) =
      (halves s (need (argument b)) true true, s + 16 + (need (argument b)).bytes + 8))
    (t : Payloads) (i j : Nat) :
    ∃ t', replay L t j ((coalescingIter b i).map requestOfLine ++ ops) =
      replay (whole s (need (argument b)) false) t' (j + 6) ops := by
  have hnull : ∀ k, k + 8 ≠ null := fun k => Nat.succ_ne_zero _
  have hblock : (stored t i s b).blocks (3 * i) = s + 24 := by
    simp [stored, storePayload]
  have hblock' : (stored t i s b).blocks (3 * i + 1) = s + 16 + (need (argument b)).bytes + 8 :=
    Function.update_self ..
  obtain ⟨t', hend⟩ := replay_round_end hb hint hblock hblock' (j + 2) ops
  refine ⟨t', Eq.trans ?_ hend⟩
  change replay _ t j (requestOfLine (.alloc (3 * i) b) :: requestOfLine (.alloc (3 * i + 1) b) ::
    _) = _
  rw [replay_alloc j t hfirst (hnull (s + 16)) _ (by omega) hb,
    replay_alloc (j + 1) _ hsecond (hnull _) _ (by omega) hb]
  rfl

theorem replay_rounds (hb : 0 < b) (hint : 2 * b ≤ 2147483647) (t : Payloads) (i j n : Nat) :
    replay (whole s (need (argument b)) false) t j
        (((List.range' i n).flatMap (coalescingIter b)).map requestOfLine) =
      .ok (whole s (need (argument b)) false) := by
  have hne := argument_ne_zero (b := b) (by omega) hb
  induction n generalizing t i j with
  | zero => rfl
  | succ n ih =>
      rw [List.range'_succ, List.flatMap_cons, List.map_append]
      obtain ⟨t', hround⟩ :=
        replay_round hb hint (malloc_whole hne) (malloc_halves hne) t i j
      rw [hround]
      exact ih t' (i + 1) (j + 6)

/-- The heap never grows after the first two requests. -/
theorem replayOf_coalescingTrace {n : Nat} (hb : 0 < b) (hint : 2 * b ≤ 2147483647)
    (hroom : 2 * blockBytes b + 32 ≤ maxHeap) (hn : 0 < n) :
    replayOf s (coalescingTrace b n) = .ok (whole s (need (argument b)) false) := by
  have hne := argument_ne_zero (b := b) (by omega) hb
  rw [← bytes_need (by omega)] at hroom
  obtain ⟨n, rfl⟩ := Nat.exists_eq_succ_of_ne_zero hn.ne'
  rw [replayOf, replayFrom, coalescingTrace, List.range_eq_range', List.range'_succ,
    List.flatMap_cons, List.map_append]
  obtain ⟨t, hround⟩ :=
    replay_round hb hint (malloc_empty hne hroom) (malloc_second hne hroom) noPayloads 0 0
  rw [hround]
  exact replay_rounds hb hint t 1 6 n

theorem length_whole (hb : b ≤ 2147483647) :
    (whole s (need (argument b)) false).brk - (whole s (need (argument b)) false).start =
      2 * blockBytes b + 32 := by
  change s + 16 + (need (argument b)).bytes + (need (argument b)).bytes + 16 - s = _
  rw [bytes_need hb]
  omega

/-- Nothing is left after a round, and the large payload was the most. -/
theorem tally_round {u : Tally} (hu : u.total = 0) (hpeak : u.peak ≤ 2 * b) (i : Nat) :
    ((coalescingIter b i).foldl Tally.after u).total = 0 ∧
      ((coalescingIter b i).foldl Tally.after u).peak = 2 * b := by
  constructor
  · simp [coalescingIter, Tally.after, hu, Function.update_of_ne]
  · simp [coalescingIter, Tally.after, hu, Function.update_of_ne]
    omega

theorem tally_rounds {u : Tally} (hu : u.total = 0) (hpeak : u.peak = 2 * b) (i n : Nat) :
    (((List.range' i n).flatMap (coalescingIter b)).foldl Tally.after u).peak = 2 * b := by
  induction n generalizing u i with
  | zero => exact hpeak
  | succ n ih =>
      obtain ⟨htotal, hround⟩ := tally_round hu hpeak.le i
      rw [List.range'_succ, List.flatMap_cons, List.foldl_append]
      exact ih htotal hround (i + 1)

theorem peakOf_coalescingTrace {n : Nat} (hn : 0 < n) : peakOf (coalescingTrace b n) = 2 * b := by
  obtain ⟨n, rfl⟩ := Nat.exists_eq_succ_of_ne_zero hn.ne'
  obtain ⟨htotal, hround⟩ := tally_round (b := b) (u := noTally) rfl (Nat.zero_le _) 0
  rw [peakOf, coalescingTrace, List.range_eq_range', List.range'_succ, List.flatMap_cons,
    List.foldl_append]
  exact tally_rounds htotal hround 1 n

end Rounds

section Files

variable {b n : Nat} {f : TraceFile} {files : List TraceFile} {traces : List (List Line)}

theorem mem_coalescingTrace {l : Line} :
    l ∈ coalescingTrace b n ↔ ∃ i < n, l ∈ coalescingIter b i := by
  simp [coalescingTrace]

theorem asks_coalescingTrace (hb : 0 < b) (hint : 2 * b ≤ 2147483647) :
    ∀ l ∈ coalescingTrace b n, Asks l := by
  intro l hl
  obtain ⟨i, -, hl⟩ := mem_coalescingTrace.mp hl
  simp only [coalescingIter, List.mem_cons, List.not_mem_nil, or_false] at hl
  rcases hl with rfl | rfl | rfl | rfl | rfl | rfl
  · exact ⟨(by omega : b ≤ 2147483647), fun _ => hb.ne'⟩
  · exact ⟨(by omega : b ≤ 2147483647), fun _ => hb.ne'⟩
  · exact ⟨Nat.zero_le _, nofun⟩
  · exact ⟨Nat.zero_le _, nofun⟩
  · exact ⟨hint, fun _ => (by omega : 2 * b ≠ 0)⟩
  · exact ⟨Nat.zero_le _, nofun⟩

theorem numbered_coalescingTrace (hn : 0 < n) : Numbered (3 * n) (coalescingTrace b n) where
  ids l hl := by
    obtain ⟨i, hi, hl⟩ := mem_coalescingTrace.mp hl
    simp only [coalescingIter, List.mem_cons, List.not_mem_nil, or_false] at hl
    rcases hl with rfl | rfl | rfl | rfl | rfl | rfl
    all_goals
      simp only [Line.id]
      omega
  last := by
    refine ⟨.alloc (3 * (n - 1) + 2) (2 * b), ?_, rfl, ?_⟩
    · refine mem_coalescingTrace.mpr ⟨n - 1, by omega, ?_⟩
      simp [coalescingIter]
    · change 3 * (n - 1) + 2 + 1 = 3 * n
      omega

theorem length_coalescingTrace (b n : Nat) : (coalescingTrace b n).length = 6 * n := by
  simp [coalescingTrace, coalescingIter, List.length_flatMap, Nat.mul_comm]

theorem holdingAfter_alloc {held : Finset Nat} (hb : b ≤ 2147483647) (hpos : 0 < b) (id : Nat) :
    holdingAfter held (requestOfLine (.alloc id b)) = insert id held :=
  if_neg (ofNat_ne_zero hb hpos.ne')

/-- A round frees all that it allocates. -/
theorem usesHeld_round {ops : List Request} (hb : 0 < b) (hint : 2 * b ≤ 2147483647) (i : Nat)
    (hops : UsesHeld ∅ ops) : UsesHeld ∅ ((coalescingIter b i).map requestOfLine ++ ops) := by
  have hle : b ≤ 2147483647 := by omega
  have hpos : 0 < 2 * b := by omega
  have hne : 3 * i ≠ 3 * i + 1 := by omega
  have hheld : ((insert (3 * i + 1) (insert (3 * i) ∅) : Finset Nat).erase (3 * i)).erase
      (3 * i + 1) = ∅ := by
    simp [Finset.erase_insert_of_ne hne.symm]
  refine ⟨trivial, trivial, ?_, ?_, trivial, ?_, ?_⟩
  all_goals
    simp only [holdingAfter_alloc hle hb, holdingAfter_alloc hint hpos]
  · exact Finset.mem_insert_of_mem (Finset.mem_insert_self ..)
  · exact Finset.mem_erase.mpr ⟨hne.symm, Finset.mem_insert_self ..⟩
  · exact Finset.mem_insert_self ..
  · change UsesHeld ((insert (3 * i + 2) (((insert (3 * i + 1) (insert (3 * i) ∅) :
      Finset Nat).erase (3 * i)).erase (3 * i + 1))).erase (3 * i + 2)) ops
    rw [hheld, Finset.erase_insert (Finset.notMem_empty _)]
    exact hops

theorem usesHeld_rounds (hb : 0 < b) (hint : 2 * b ≤ 2147483647) (i n : Nat) :
    UsesHeld ∅ (((List.range' i n).flatMap (coalescingIter b)).map requestOfLine) := by
  induction n generalizing i with
  | zero => trivial
  | succ n ih =>
      rw [List.range'_succ, List.flatMap_cons, List.map_append]
      exact usesHeld_round hb hint i (ih (i + 1))

theorem holdsTrace_coalescing (hfile : f.file = some (genCoalescing b n)) (hb : 0 < b) (hn : 0 < n)
    (hheap : 2 * b * n + 100 ≤ 2147483647) (hops : 6 * n ≤ 2147483647) :
    HoldsTrace f (coalescingTrace b n) := by
  have hint : 2 * b ≤ 2147483647 :=
    (Nat.le_mul_of_pos_right (2 * b) hn).trans ((Nat.le_add_right _ 100).trans hheap)
  have hlen := length_coalescingTrace b n
  have hread := readable_printTrace (asks_coalescingTrace hb hint) (numbered_coalescingTrace hn) hheap
    (by omega) (hlen.le.trans hops)
  rw [hlen] at hread
  refine ⟨⟨_, _, hfile, hread⟩, asks_coalescingTrace hb hint, ?_⟩
  rw [coalescingTrace, List.range_eq_range']
  exact usesHeld_rounds hb hint 0 n

/-- What a coalescing trace reaches: the large payload in a heap of twice the small need. -/
def coalescingUtil (b : Nat) : ℚ := (2 * b : Nat) / ((2 * blockBytes b + 32 : Nat) : ℚ)

theorem statsOf_coalescing (start tracenum : Nat) (name : String) (hb : 0 < b)
    (hint : 2 * b ≤ 2147483647) (hroom : 2 * blockBytes b + 32 ≤ maxHeap) (hn : 0 < n) :
    statsOf start tracenum name (coalescingTrace b n) =
      ⟨name, BitVec.ofNat 32 (6 * n), true, coalescingUtil b, ""⟩ := by
  rw [statsOf, replayOf_coalescingTrace hb hint hroom hn]
  dsimp only
  rw [length_coalescingTrace, peakOf_coalescingTrace hn, length_whole (by omega), coalescingUtil]

/-- From 351 bytes on, the tags are less than a tenth of the heap. -/
theorem le_coalescingUtil (hb : 351 ≤ b) : 9 / 10 ≤ coalescingUtil b := by
  have hle : 9 * (2 * blockBytes b + 32) ≤ 10 * (2 * b) := by
    unfold blockBytes
    omega
  have hcast : (9 : ℚ) * ((2 * blockBytes b + 32 : Nat) : ℚ) ≤ 10 * ((2 * b : Nat) : ℚ) := by
    exact_mod_cast hle
  have hpos : (0 : ℚ) < ((2 * blockBytes b + 32 : Nat) : ℚ) := Nat.cast_pos.mpr (by omega)
  rw [coalescingUtil, le_div_iff₀ hpos]
  linarith

/-- In any session, among any traces, a trace of `gen_coalescing.pl` is found valid, with a
utilization that does not depend on the number of its rounds; under the name of the trace of
the suite it passes from blocks of 351 bytes on. -/
theorem coalescing_passes {d : Driver Heap Payloads} {before after : List TraceFile}
    {tb ta : List (List Line)} (hbefore : List.Forall₂ HoldsTrace before tb)
    (hafter : List.Forall₂ HoldsTrace after ta) (hd : d.errors = [])
    (hfile : f.file = some (genCoalescing b n)) (hb : 0 < b) (hn : 0 < n)
    (hheap : 2 * b * n + 100 ≤ 2147483647) (hops : 6 * n ≤ 2147483647)
    (hroom : 2 * blockBytes b + 32 ≤ maxHeap) (tracedir : String) :
    ∃ r d', (main mmPackage tracedir (before ++ f :: after)).run d = .ok (r, d') ∧
      r.stats[before.length]? =
        some ⟨f.name, BitVec.ofNat 32 (6 * n), true, coalescingUtil b, ""⟩ ∧
      (f.name = "coalescing-bal.rep" → 351 ≤ b →
        ⟨before.length, f.name, some (coalescingUtil b * 100), true⟩ ∈ r.rows) := by
  have hint : 2 * b ≤ 2147483647 :=
    (Nat.le_mul_of_pos_right (2 * b) hn).trans ((Nat.le_add_right _ 100).trans hheap)
  have hholds := holdsTrace_coalescing hfile hb hn hheap hops
  have hfiles : List.Forall₂ HoldsTrace (before ++ f :: after)
      (tb ++ coalescingTrace b n :: ta) :=
    List.rel_append hbefore (.cons hholds hafter)
  obtain ⟨d', hrun, -⟩ := main_run hfiles hd tracedir
  have hlen := length_statsFrom hbefore.length_eq d.heap.arena.start 0
  have hstats : (statsFrom d.heap.arena.start 0 (before ++ f :: after)
      (tb ++ coalescingTrace b n :: ta))[before.length]? =
        some ⟨f.name, BitVec.ofNat 32 (6 * n), true, coalescingUtil b, ""⟩ := by
    rw [statsFrom_append hbefore.length_eq, List.getElem?_append_right hlen.le, hlen, Nat.sub_self,
      statsOf_coalescing _ _ _ hb hint hroom hn]
    rfl
  refine ⟨_, d', hrun, hstats, fun hname hlarge => ?_⟩
  have hbase : (f.name, (9 / 10 : ℚ)) ∈ traceBaselineTable := by
    rw [hname]
    simp [traceBaselineTable]
  have hrow := printpassedRow_mem (i := 0) hstats hbase
  rw [Nat.zero_add, printpassedRow, if_pos rfl] at hrow
  rw [decide_eq_true (le_coalescingUtil hlarge)] at hrow
  exact hrow

/-- `coalescing.rep`, after a trace that fails. -/
theorem coalescing_passes_suite : ∃ r d',
    (main mmPackage "./traces/" ([sampleFiles[1]] ++
      [⟨"coalescing-bal.rep", some coalescingRep, ⟨0, 0, 0, 0⟩, 7, noPayloads⟩])).run
        sampleTraceDriver = .ok (r, d') ∧
      ⟨1, "coalescing-bal.rep", some (coalescingUtil 4095 * 100), true⟩ ∈ r.rows := by
  cases sample_holds with
  | cons _ hrest =>
      obtain ⟨r, d', hrun, -, hrow⟩ := coalescing_passes (n := 2400) (b := 4095) (d := sampleTraceDriver)
        (f := ⟨"coalescing-bal.rep", some coalescingRep, ⟨0, 0, 0, 0⟩, 7, noPayloads⟩) hrest .nil rfl
        rfl (by decide) (by decide) (by decide) (by decide) (by decide) "./traces/"
      exact ⟨r, d', hrun, hrow rfl (by decide)⟩

end Files

end MallocLab.CoalescingTrace
