import MallocLab.PrintedTraces
import MallocLab.TraceBalancing

/-!
The traces that `checktrace.pl` accepts, and what `main` reports about a trace that it has
balanced: what it reports about the trace itself, but for the number of requests.
-/

namespace MallocLab.BalancedTraces

open MallocLab.Machine
open MallocLab.HeapGrowth
open MallocLab.AbstractLayout
open MallocLab.Runs
open MallocLab.MallocPackage
open MallocLab.Mdriver
open MallocLab.TraceSteps
open MallocLab.TraceVerdict
open MallocLab.Scanf
open MallocLab.PrintedText
open MallocLab.TraceGrammar
open MallocLab.WellFormedTraces
open MallocLab.MdriverMain
open MallocLab.TraceReports
open MallocLab.TraceScripts
open MallocLab.PrintedTraces
open MallocLab.TraceBalancing

/-- The ids that are outstanding after a request. -/
def outstandingAfter (held : Finset Nat) : Line → Finset Nat
  | .alloc id _ => insert id held
  | .realloc _ _ => held
  | .free id => held.erase id

def outstanding (held : Finset Nat) (ls : List Line) : Finset Nat := ls.foldl outstandingAfter held

/-- An id is allocated while it is not outstanding, and moved or freed while it is. -/
def Allowed (held : Finset Nat) : Line → Prop
  | .alloc id _ => id ∉ held
  | .realloc id _ => id ∈ held
  | .free id => id ∈ held

/-- Every request of the trace is allowed where it stands. -/
def Consistent : Finset Nat → List Line → Prop
  | _, [] => True
  | held, l :: ls => Allowed held l ∧ Consistent (outstandingAfter held l) ls

instance (held : Finset Nat) : DecidablePred (Allowed held) := fun l =>
  match l with
  | .alloc id _ => inferInstanceAs (Decidable (id ∉ held))
  | .realloc id _ => inferInstanceAs (Decidable (id ∈ held))
  | .free id => inferInstanceAs (Decidable (id ∈ held))

instance decidableConsistent :
    (held : Finset Nat) → (ls : List Line) → Decidable (Consistent held ls)
  | _, [] => inferInstanceAs (Decidable True)
  | held, l :: ls =>
      have := decidableConsistent (outstandingAfter held l) ls
      inferInstanceAs (Decidable (_ ∧ _))

section Requests

variable {h h' : Hash} {held : Finset Nat} {l : Line} {ls : List Line} {ids : List Nat} {n id : Nat}

/-- `%HASH` has the ids that are outstanding, in decimal. -/
structure Tracks (h : Hash) (held : Finset Nat) : Prop where
  tidy : Tidy h
  keys : ∀ k, k ∈ keys h ↔ ∃ id ∈ held, decimalOf id = k
  cmds : ∀ e ∈ h, e.2 = ['a']

theorem tracks_nil : Tracks [] ∅ := ⟨tidy_nil, by simp [keys], nofun⟩

theorem Tracks.mem_keys_iff (hR : Tracks h held) : decimalOf id ∈ TraceBalancing.keys h ↔ id ∈ held := by
  rw [hR.keys]
  constructor
  · rintro ⟨id', hid, heq⟩
    exact decimalOf_inj.mp heq ▸ hid
  · exact fun hid => ⟨id, hid, rfl⟩

theorem Tracks.lookup_of_mem (hR : Tracks h held) {k : List Char} (hk : k ∈ TraceBalancing.keys h) :
    h.lookup k = some ['a'] := by
  have hsome := isSome_lookup_iff.mpr hk
  obtain ⟨cmd, hcmd⟩ := Option.isSome_iff_exists.mp hsome
  have hcmds := hR.cmds (k, cmd) (mem_of_lookup hcmd)
  rw [hcmd]
  exact congrArg some hcmds

theorem Tracks.lookup_of_notMem (hR : Tracks h held) (hid : id ∉ held) :
    h.lookup (decimalOf id) = none := by
  rw [← Option.not_isSome_iff_eq_none, isSome_lookup_iff, hR.mem_keys_iff]
  exact hid

theorem Tracks.delete (hR : Tracks h held) (id : Nat) :
    Tracks (h.delete (decimalOf id)) (held.erase id) where
  tidy := hR.tidy.delete _
  keys k := by
    rw [mem_keys_delete, hR.keys]
    constructor
    · rintro ⟨⟨i, hi, rfl⟩, hne⟩
      exact ⟨i, Finset.mem_erase.mpr ⟨fun heq => hne (congrArg decimalOf heq), hi⟩, rfl⟩
    · rintro ⟨i, hi, rfl⟩
      obtain ⟨hne, hi⟩ := Finset.mem_erase.mp hi
      exact ⟨⟨i, hi, rfl⟩, fun heq => hne (decimalOf_inj.mp heq)⟩
  cmds e he := hR.cmds e (List.mem_filter.mp he).1

theorem Tracks.set (hR : Tracks h held) (id : Nat) :
    Tracks (h.set (decimalOf id) ['a']) (insert id held) where
  tidy := hR.tidy.set (isWord_decimalOf id).2 _
  keys k := by
    have hdelete := (hR.delete id).keys k
    change k ∈ decimalOf id :: TraceBalancing.keys (h.delete (decimalOf id)) ↔ _
    rw [List.mem_cons, hdelete]
    constructor
    · rintro (rfl | ⟨i, hi, rfl⟩)
      · exact ⟨id, Finset.mem_insert_self id held, rfl⟩
      · exact ⟨i, Finset.mem_insert_of_mem (Finset.mem_of_mem_erase hi), rfl⟩
    · rintro ⟨i, hi, rfl⟩
      rcases Decidable.em (i = id) with rfl | hne
      · exact .inl rfl
      · exact .inr ⟨i, Finset.mem_erase.mpr ⟨hne, Finset.mem_of_mem_insert_of_ne hi hne⟩, rfl⟩
  cmds := by
    intro e he
    rcases List.mem_cons.mp he with rfl | he
    · rfl
    · exact hR.cmds e (List.mem_filter.mp he).1

/-- The text of a request that a script prints, without the end of the line. -/
def lineText (l : Line) : List Char := spaced (lineWords l)

theorem words_lineText (l : Line) : words (lineText l) = lineWords l := by
  have hwords : words (lineText l ++ []) = lineWords l ++ [] :=
    words_spaced (isWord_lineWords l) rfl
  rw [List.append_nil] at hwords
  rwa [List.append_nil] at hwords

theorem wordAt_lineText (l : Line) : wordAt (lineText l) 1 = decimalOf l.id := by
  rw [wordAt, words_lineText]
  cases l with
  | alloc id bytes => rfl
  | realloc id bytes => rfl
  | free id => rfl

theorem ignored_lineText (l : Line) : ignored (lineText l) = false := by
  rw [ignored, wordAt, words_lineText]
  cases l with
  | alloc id bytes => rfl
  | realloc id bytes => rfl
  | free id => rfl

/-- The script accepts a request that is allowed, and keeps track of the ids. -/
theorem Tracks.checkRequest (hR : Tracks h held) (hl : Allowed held l) (n : Nat) :
    ∃ h', checkRequest n h (lineText l) = .ok h' ∧ Tracks h' (outstandingAfter held l) := by
  have hid := wordAt_lineText l
  have hcmd : wordAt (lineText l) 0 = (lineWords l).getD 0 [] := by rw [wordAt, words_lineText]
  cases l with
  | alloc id bytes =>
      have hlookup := hR.lookup_of_notMem hl
      change wordAt _ 1 = decimalOf id at hid
      change wordAt _ 0 = ['a'] at hcmd
      refine ⟨h.set (decimalOf id) ['a'], ?_, hR.set id⟩
      simp [TraceScripts.checkRequest, hid, hcmd, hlookup]
  | realloc id bytes =>
      have hlookup := hR.lookup_of_mem (hR.mem_keys_iff.mpr hl)
      change wordAt _ 1 = decimalOf id at hid
      change wordAt _ 0 = ['r'] at hcmd
      refine ⟨h, ?_, hR⟩
      simp [TraceScripts.checkRequest, hid, hcmd, hlookup]
  | free id =>
      have hlookup := hR.lookup_of_mem (hR.mem_keys_iff.mpr hl)
      change wordAt _ 1 = decimalOf id at hid
      change wordAt _ 0 = ['f'] at hcmd
      refine ⟨h.delete (decimalOf id), ?_, hR.delete id⟩
      simp [TraceScripts.checkRequest, hid, hcmd, hlookup]

theorem Tracks.checkRequest_refused (hR : Tracks h held) (hl : ¬ Allowed held l) (n : Nat) :
    ∃ e, TraceScripts.checkRequest n h (lineText l) = .error e := by
  have hid := wordAt_lineText l
  have hcmd : wordAt (lineText l) 0 = (lineWords l).getD 0 [] := by rw [wordAt, words_lineText]
  cases l with
  | alloc id bytes =>
      have hlookup := hR.lookup_of_mem (hR.mem_keys_iff.mpr (Decidable.not_not.mp hl))
      change wordAt _ 1 = decimalOf id at hid
      change wordAt _ 0 = ['a'] at hcmd
      refine ⟨.allocWithoutFree n, ?_⟩
      simp [TraceScripts.checkRequest, hid, hcmd, hlookup]
  | realloc id bytes =>
      have hlookup := hR.lookup_of_notMem hl
      change wordAt _ 1 = decimalOf id at hid
      change wordAt _ 0 = ['r'] at hcmd
      refine ⟨.reallocWithoutAlloc n, ?_⟩
      simp [TraceScripts.checkRequest, hid, hcmd, hlookup]
  | free id =>
      have hlookup := hR.lookup_of_notMem hl
      change wordAt _ 1 = decimalOf id at hid
      change wordAt _ 0 = ['f'] at hcmd
      refine ⟨.freeUnallocated n, ?_⟩
      simp [TraceScripts.checkRequest, hid, hcmd, hlookup]

theorem Tracks.checkRequests (hR : Tracks h held) (hls : Consistent held ls) (n : Nat) :
    ∃ h', checkRequests n h (ls.map lineText) = .ok (ls.map lineText, h') ∧
      Tracks h' (outstanding held ls) := by
  induction ls generalizing h held n with
  | nil => exact ⟨h, rfl, hR⟩
  | cons l ls ih =>
      obtain ⟨h₁, hfirst, hR₁⟩ := hR.checkRequest hls.1 n
      obtain ⟨h', hrest, hR'⟩ := ih hR₁ hls.2 (n + 1)
      exact ⟨h', checkRequests_cons (ignored_lineText l) hfirst hrest, hR'⟩

theorem Tracks.checkRequests_refused (hR : Tracks h held) (hls : ¬ Consistent held ls) (n : Nat) :
    ∃ e, TraceScripts.checkRequests n h (ls.map lineText) = .error e := by
  induction ls generalizing h held n with
  | nil => exact absurd trivial hls
  | cons l ls ih =>
      have hline := Bool.eq_false_iff.mp (ignored_lineText l)
      rw [List.map_cons, TraceScripts.checkRequests, if_neg hline]
      rcases Decidable.em (Allowed held l) with hl | hl
      · obtain ⟨h₁, hfirst, hR₁⟩ := hR.checkRequest hl n
        obtain ⟨e, hrest⟩ := ih hR₁ (fun hrest => hls ⟨hl, hrest⟩) (n + 1)
        refine ⟨e, ?_⟩
        rw [hfirst]
        change (TraceScripts.checkRequests (n + 1) h₁ (ls.map lineText) >>= fun p => _) = _
        rw [hrest]
        rfl
      · obtain ⟨e, hfirst⟩ := hR.checkRequest_refused hl n
        rw [hfirst]
        exact ⟨e, rfl⟩

end Requests

section Traces

variable {h : Hash} {held : Finset Nat} {ls : List Line} {ids : List Nat} {ks : List (List Char)}
  {heapSize numBlocks numOps n : Nat}

theorem residue_of_lookup (hks : ∀ k ∈ ks, h.lookup k = some ['a']) :
    residue h ks = .ok (ks.map freeLine) := by
  induction ks with
  | nil => rfl
  | cons k ks ih =>
      obtain ⟨hk, hks'⟩ := List.forall_mem_cons.mp hks
      have hfine : ¬ (h.lookup k ≠ some ['a'] ∧ h.lookup k ≠ some ['r']) := fun hno => hno.1 hk
      rw [residue, if_neg hfine, ih hks']
      rfl

/-- The keys are numbers in decimal. -/
theorem Tracks.sortedKeys (hR : Tracks h held) :
    ∃ ids : List Nat, ids.Nodup ∧ (∀ id, id ∈ ids ↔ id ∈ held) ∧
      TraceScripts.sortedKeys h = ids.map decimalOf := by
  have hdecimal : ∀ k ∈ TraceScripts.sortedKeys h, decimalOf (digitsValue k) = k := by
    intro k hk
    obtain ⟨id, -, rfl⟩ := (hR.keys k).mp (mem_sortedKeys.mp hk)
    rw [digitsValue_decimalOf]
  have hmap : ((TraceScripts.sortedKeys h).map digitsValue).map decimalOf =
      TraceScripts.sortedKeys h := by
    rw [List.map_map]
    exact (List.map_congr_left hdecimal).trans (List.map_id _)
  refine ⟨(TraceScripts.sortedKeys h).map digitsValue, ?_, fun id => ?_, hmap.symm⟩
  · apply List.Nodup.of_map decimalOf
    rw [hmap]
    exact nodup_sortedKeys hR.tidy
  · rw [← hR.mem_keys_iff, ← mem_sortedKeys]
    constructor
    · intro hid
      rw [← hmap]
      exact List.mem_map_of_mem hid
    · intro hid
      have hmem := List.mem_map_of_mem (f := digitsValue) hid
      rwa [digitsValue_decimalOf] at hmem

theorem toString_natCast (n : Nat) : (toString (n : Int)).toList = decimalOf n := by
  change (Nat.repr n).toList = _
  simp [Nat.repr, decimalOf]

theorem printTrace_eq (heapSize numBlocks numOps : Nat) (ls : List Line) :
    printTrace heapSize numBlocks numOps ls =
      ([decimalOf heapSize, decimalOf numBlocks, decimalOf numOps, ['1']] ++
        ls.map lineText).flatMap endLine := by
  rw [printTrace, printLines, List.flatMap_append, List.flatMap_append, List.flatMap_map,
    List.flatMap_map]
  rfl

theorem lines_printTrace (heapSize numBlocks numOps : Nat) (ls : List Line) :
    lines (printTrace heapSize numBlocks numOps ls) =
      [decimalOf heapSize, decimalOf numBlocks, decimalOf numOps, ['1']] ++ ls.map lineText := by
  have hnumber : ∀ n, '\n' ∉ decimalOf n := fun n => newline_not_mem_of_spells (spells_decimalOf n)
  rw [printTrace_eq]
  apply lines_endLines
  intro l hl
  rcases List.mem_append.mp hl with hl | hl
  · simp only [List.mem_cons, List.not_mem_nil, or_false] at hl
    rcases hl with rfl | rfl | rfl | rfl
    · exact hnumber heapSize
    · exact hnumber numBlocks
    · exact hnumber numOps
    · decide
  · obtain ⟨l, -, rfl⟩ := List.mem_map.mp hl
    cases l with
    | alloc id bytes => simp [lineText, lineWords, spaced, hnumber]
    | realloc id bytes => simp [lineText, lineWords, spaced, hnumber]
    | free id => simp [lineText, lineWords, spaced, hnumber]

theorem readChecked_printTrace (heapSize numBlocks numOps : Nat) (ls : List Line) :
    readChecked (printTrace heapSize numBlocks numOps ls) =
      checkRequests 5 [] (ls.map lineText) >>= fun p => .ok ⟨decimalOf heapSize,
        decimalOf numBlocks, decimalOf numOps, ['1'], p.1, p.2⟩ := by
  have hlines := lines_printTrace heapSize numBlocks numOps ls
  rw [readChecked]
  change (checkRequests 5 [] ((lines _).drop 4) >>= fun p => .ok (Checked.mk ((lines _).getD 0 [])
    ((lines _).getD 1 []) ((lines _).getD 2 []) ((lines _).getD 3 []) p.1 p.2)) = _
  rw [hlines]
  rfl

/-- The free requests of the ids. -/
def frees (ids : List Nat) : List Line := ids.map .free

theorem checktrace_of_consistent (hls : Consistent ∅ ls) (heapSize numBlocks : Nat)
    (hops : numOps + (outstanding ∅ ls).card < 2 ^ 63) :
    ∃ ids : List Nat, ids.Nodup ∧ (∀ id, id ∈ ids ↔ id ∈ outstanding ∅ ls) ∧
      checktrace (printTrace heapSize numBlocks numOps ls) =
        .ok (some (printTrace heapSize numBlocks (numOps + ids.length) (ls ++ frees ids))) := by
  obtain ⟨h, hrequests, hR⟩ := tracks_nil.checkRequests hls 5
  obtain ⟨ids, hnodup, hids, hkeys⟩ := hR.sortedKeys
  have hcount : h.length = ids.length := by
    have hlen := congrArg List.length hkeys
    rwa [TraceScripts.sortedKeys, List.length_insertionSort, List.length_map, List.length_map] at hlen
  have hresidue := residue_of_lookup fun k hk => hR.lookup_of_mem (mem_sortedKeys.mp hk)
  rw [card_held hnodup hids] at hops
  have hnumber : numberIn (decimalOf numOps) = some (numOps : Int) :=
    numberIn_of_spells (spells_decimalOf numOps) (fitsInteger_iff.mpr ⟨by omega, by omega⟩)
  have hnewNumOps := (newNumOps_eq_some (k := ids.length) hnumber (by omega)).1
  refine ⟨ids, hnodup, hids, ?_⟩
  rw [checktrace, readChecked_printTrace, hrequests]
  change (residue h (TraceScripts.sortedKeys h) >>= fun frees => .ok ((newNumOps (decimalOf numOps)
    h.length).map fun n => ([decimalOf heapSize, decimalOf numBlocks, (toString n).toList, ['1']] ++
      ls.map lineText ++ frees).flatMap endLine)) = _
  rw [hresidue, hcount, hnewNumOps, ← Int.natCast_add, hkeys]
  have hfrees : (ids.map decimalOf).map freeLine = (frees ids).map lineText := by
    rw [frees, List.map_map, List.map_map]
    rfl
  rw [printTrace_eq, hfrees, List.map_append, ← List.append_assoc, ← toString_natCast (_ + _)]
  rfl

theorem checktrace_of_not_consistent (hls : ¬ Consistent ∅ ls) (heapSize numBlocks numOps : Nat) :
    ∃ e, checktrace (printTrace heapSize numBlocks numOps ls) = .error e := by
  obtain ⟨e, hrequests⟩ := tracks_nil.checkRequests_refused hls 5
  refine ⟨e, ?_⟩
  rw [checktrace, readChecked_printTrace, hrequests]
  rfl

theorem consistent_append {ms : List Line} (hls : Consistent held ls)
    (hms : Consistent (outstanding held ls) ms) : Consistent held (ls ++ ms) := by
  induction ls generalizing held with
  | nil => exact hms
  | cons l ls ih => exact ⟨hls.1, ih hls.2 hms⟩

/-- Each id that is outstanding may be freed, and then nothing is. -/
theorem consistent_frees (hnodup : ids.Nodup) (hids : ∀ id, id ∈ ids ↔ id ∈ held) :
    Consistent held (frees ids) ∧ outstanding held (frees ids) = ∅ := by
  induction ids generalizing held with
  | nil =>
      refine ⟨trivial, Finset.eq_empty_of_forall_notMem fun id hid => ?_⟩
      exact List.not_mem_nil ((hids id).mpr hid)
  | cons id ids ih =>
      obtain ⟨hid, hnodup'⟩ := List.nodup_cons.mp hnodup
      have hrest : ∀ i, i ∈ ids ↔ i ∈ held.erase id := by
        intro i
        rw [Finset.mem_erase, ← hids, List.mem_cons]
        constructor
        · exact fun hi => ⟨ne_of_mem_of_not_mem hi hid, .inr hi⟩
        · rintro ⟨hne, rfl | hi⟩
          · exact absurd rfl hne
          · exact hi
      obtain ⟨hconsistent, hnone⟩ := ih hnodup' hrest
      exact ⟨⟨(hids id).mp List.mem_cons_self, hconsistent⟩, hnone⟩

/-- `checktrace.pl` on a trace as the scripts print it: it is accepted just if every id is
allocated while it is not outstanding and moved and freed while it is.  Then the same header,
with the new number of requests, and the same requests come out, with a free request behind them
for each of the ids that are outstanding; all that is consistent, and leaves nothing. -/
theorem checktrace_printTrace (heapSize numBlocks numOps : Nat) (ls : List Line)
    (hops : numOps + (outstanding ∅ ls).card < 2 ^ 63) :
    (Consistent ∅ ls → ∃ ids : List Nat, ids.Nodup ∧ (∀ id, id ∈ ids ↔ id ∈ outstanding ∅ ls) ∧
      checktrace (printTrace heapSize numBlocks numOps ls) =
        .ok (some (printTrace heapSize numBlocks (numOps + ids.length) (ls ++ frees ids))) ∧
      Consistent ∅ (ls ++ frees ids) ∧ outstanding ∅ (ls ++ frees ids) = ∅) ∧
    (¬ Consistent ∅ ls → ∃ e, checktrace (printTrace heapSize numBlocks numOps ls) = .error e) := by
  refine ⟨fun hls => ?_, fun hls => checktrace_of_not_consistent hls heapSize numBlocks numOps⟩
  obtain ⟨ids, hnodup, hids, hok⟩ := checktrace_of_consistent hls heapSize numBlocks hops
  obtain ⟨hfrees, hnone⟩ := consistent_frees hnodup hids
  refine ⟨ids, hnodup, hids, hok, consistent_append hls hfrees, ?_⟩
  rw [outstanding, List.foldl_append]
  exact hnone

def sampleUnbalanced : List Line :=
  [.alloc 0 24, .alloc 12 8, .realloc 0 40, .free 12, .alloc 2 5, .alloc 12 90]

theorem checktrace_printTrace_sample :
    (∃ ids : List Nat, ids.Nodup ∧ checktrace (printTrace 167 13 6 sampleUnbalanced) =
      .ok (some (printTrace 167 13 (6 + ids.length) (sampleUnbalanced ++ frees ids)))) ∧
    ∃ e, checktrace (printTrace 167 13 3 [.alloc 2 9, .free 2, .realloc 2 4]) = .error e := by
  constructor
  · obtain ⟨ids, hnodup, -, hok, -⟩ :=
      (checktrace_printTrace 167 13 6 sampleUnbalanced (by decide)).1 (by decide)
    exact ⟨ids, hnodup, hok⟩
  · exact (checktrace_printTrace 167 13 3 [.alloc 2 9, .free 2, .realloc 2 4] (by decide)).2
      (by decide)

end Traces

section Reports

variable {L L' : Layout} {t : Payloads} {held : Finset Nat} {l : Line} {ls : List Line}
  {ids : List Nat} {ops ms : List Request} {i start : Nat}

theorem holdingAfter_requestOfLine (hl : Asks l) :
    holdingAfter held (requestOfLine l) = outstandingAfter held l := by
  cases l with
  | alloc id bytes => exact if_neg (ofNat_ne_zero hl.1 (hl.2 rfl))
  | realloc id bytes => exact if_neg (ofNat_ne_zero hl.1 (hl.2 rfl))
  | free id => rfl

theorem uses_of_allowed (hl : Allowed held l) : Uses held (requestOfLine l) := by
  cases l with
  | alloc id bytes => trivial
  | realloc id bytes => exact hl
  | free id => exact hl

theorem usesHeld_of_consistent (hasks : ∀ l ∈ ls, Asks l) (hls : Consistent held ls) :
    UsesHeld held (ls.map requestOfLine) := by
  induction ls generalizing held with
  | nil => trivial
  | cons l ls ih =>
      obtain ⟨hl, hasks'⟩ := List.forall_mem_cons.mp hasks
      refine ⟨uses_of_allowed hls.1, ?_⟩
      rw [holdingAfter_requestOfLine hl]
      exact ih hasks' hls.2

theorem replay_cons_of_fine {op : Request}
    (hfine : complaintOf (execLayout L (callOf t op)).2 op = none) (i : Nat) (ops : List Request) :
    replay L t i (op :: ops) = replay (execLayout L (callOf t op)).1
      (tableAfter t (execLayout L (callOf t op)).2 op) (i + 1) ops := by
  rw [replay]
  dsimp only
  rw [hfine]

theorem replay_cons_of_complaint {op : Request} {c : Complaint}
    (hbad : complaintOf (execLayout L (callOf t op)).2 op = some c) (i : Nat)
    (ops : List Request) : replay L t i (op :: ops) = .error (i, c) := by
  rw [replay]
  dsimp only
  rw [hbad]

/-- A replay that gets to its end goes on with what comes next. -/
theorem replay_append (hok : replay L t i ops = .ok L') (ms : List Request) :
    ∃ t', replay L t i (ops ++ ms) = replay L' t' (i + ops.length) ms := by
  induction ops generalizing L t i with
  | nil =>
      obtain rfl := Except.ok.inj hok
      exact ⟨t, rfl⟩
  | cons op ops ih =>
      cases hcomplaint : complaintOf (execLayout L (callOf t op)).2 op with
      | none =>
          rw [replay_cons_of_fine hcomplaint] at hok
          obtain ⟨t', hrest⟩ := ih hok
          refine ⟨t', ?_⟩
          rw [List.cons_append, replay_cons_of_fine hcomplaint, hrest, List.length_cons,
            Nat.add_right_comm, Nat.add_assoc]
      | some c =>
          rw [replay_cons_of_complaint hcomplaint] at hok
          cases hok

theorem replay_append_error {e : Nat × Complaint} (herror : replay L t i ops = .error e)
    (ms : List Request) : replay L t i (ops ++ ms) = .error e := by
  induction ops generalizing L t i with
  | nil => cases herror
  | cons op ops ih =>
      cases hcomplaint : complaintOf (execLayout L (callOf t op)).2 op with
      | none =>
          rw [replay_cons_of_fine hcomplaint] at herror
          rw [List.cons_append, replay_cons_of_fine hcomplaint]
          exact ih herror
      | some c =>
          rw [replay_cons_of_complaint hcomplaint] at herror
          rw [List.cons_append, replay_cons_of_complaint hcomplaint]
          exact herror

theorem extent_free (L : Layout) (ptr : Nat) :
    (L.free ptr).start = L.start ∧ (L.free ptr).brk = L.brk := by
  rw [Layout.free]
  split
  · split
    · exact ⟨rfl, rfl⟩
    · exact ⟨rfl, rfl⟩
  · exact ⟨rfl, rfl⟩

/-- Free requests do not fail, and leave the heap as long as it is. -/
theorem replay_frees (L : Layout) (t : Payloads) (i : Nat) (ids : List Nat) :
    ∃ L', replay L t i ((frees ids).map requestOfLine) = .ok L' ∧ L'.start = L.start ∧
      L'.brk = L.brk := by
  induction ids generalizing L i with
  | nil => exact ⟨L, rfl, rfl, rfl⟩
  | cons id ids ih =>
      have hextent : (execLayout L (.free (t.blocks id))).1.start = L.start ∧
          (execLayout L (.free (t.blocks id))).1.brk = L.brk := by
        rw [execLayout]
        split
        · exact ⟨rfl, rfl⟩
        · exact extent_free L _
      obtain ⟨L', hrun, hstart, hbrk⟩ := ih (execLayout L (.free (t.blocks id))).1 (i + 1)
      exact ⟨L', hrun, hstart.trans hextent.1, hbrk.trans hextent.2⟩

theorem peakOf_append_frees (ls : List Line) (ids : List Nat) :
    peakOf (ls ++ frees ids) = peakOf ls := by
  rw [peakOf, List.foldl_append, peakOf]
  generalize ls.foldl Tally.after noTally = u
  induction ids generalizing u with
  | nil => rfl
  | cons id ids ih => exact ih (u.after (.free id))

/-- What is found out about a trace does not depend on free requests at its end. -/
theorem statsOf_append_frees (start tracenum : Nat) (name : String) (ls : List Line)
    (ids : List Nat) :
    statsOf start tracenum name (ls ++ frees ids) =
        { statsOf start tracenum name ls with
          ops := BitVec.ofNat 32 (ls.length + ids.length) } ∧
      reportOf tracenum (replayOf start (ls ++ frees ids)) =
        reportOf tracenum (replayOf start ls) := by
  have hlen : (ls ++ frees ids).length = ls.length + ids.length := by
    rw [List.length_append, frees, List.length_map]
  have happend : replayOf start (ls ++ frees ids) = replay (emptyLayout start) noPayloads 0
      (ls.map requestOfLine ++ (frees ids).map requestOfLine) := by
    rw [replayOf, replayFrom, List.map_append]
  rcases hreplay : replayOf start ls with ⟨j, c⟩ | L
  · have herror : replayOf start (ls ++ frees ids) = .error (j, c) :=
      happend.trans (replay_append_error hreplay _)
    rw [statsOf, statsOf, herror, hreplay, hlen]
    exact ⟨rfl, rfl⟩
  · obtain ⟨t, hrest⟩ := replay_append hreplay ((frees ids).map requestOfLine)
    obtain ⟨L', hrun, hstart, hbrk⟩ :=
      replay_frees L t (0 + (ls.map requestOfLine).length) ids
    have hok : replayOf start (ls ++ frees ids) = .ok L' := happend.trans (hrest.trans hrun)
    rw [statsOf, statsOf, hok, hreplay, hlen, peakOf_append_frees]
    dsimp only
    rw [hstart, hbrk]
    exact ⟨rfl, rfl⟩

end Reports

section Sessions

variable {d : Driver Heap Payloads} {f g : TraceFile} {before after : List TraceFile}
  {tb ta : List (List Line)} {ls : List Line} {ids : List Nat} {out : List Char}
  {heapSize numBlocks start i : Nat}

theorem printpassed_append (ss rest : List Stats) (i : Nat) :
    printpassed i (ss ++ rest) = printpassed i ss ++ printpassed (i + ss.length) rest := by
  induction ss generalizing i with
  | nil => rfl
  | cons s ss ih =>
      rw [List.cons_append, printpassed, printpassed, ih, List.append_assoc, List.length_cons,
        Nat.add_right_comm, Nat.add_assoc i]

theorem reportsFrom_append (hreport : reportOf (i + tb.length) (replayOf start ls) =
      reportOf (i + tb.length) (replayOf start (ls ++ frees ids))) :
    reportsFrom start i (tb ++ ls :: ta) = reportsFrom start i (tb ++ (ls ++ frees ids) :: ta) := by
  induction tb generalizing i with
  | nil =>
      change reportOf i _ ++ _ = reportOf i _ ++ _
      exact congrArg (· ++ reportsFrom start (i + 1) ta) hreport
  | cons ls' tb ih =>
      rw [List.length_cons, Nat.add_comm tb.length, ← Nat.add_assoc] at hreport
      exact congrArg (reportOf i (replayOf start ls') ++ ·) (ih hreport)

theorem numbered_append_frees (hids : Numbered numBlocks ls)
    (hlt : ∀ id ∈ ids, id < numBlocks) : Numbered numBlocks (ls ++ frees ids) where
  ids l hl := by
    rcases List.mem_append.mp hl with hl | hl
    · exact hids.ids l hl
    · obtain ⟨id, hid, rfl⟩ := List.mem_map.mp hl
      exact hlt id hid
  last := by
    obtain ⟨l, hl, hlast⟩ := hids.last
    exact ⟨l, List.mem_append_left _ hl, hlast⟩

theorem mem_outstanding {held : Finset Nat} {id : Nat} (hid : id ∈ outstanding held ls) :
    id ∈ held ∨ ∃ l ∈ ls, l.id = id := by
  induction ls generalizing held with
  | nil => exact .inl hid
  | cons l ls ih =>
      rcases ih hid with hid | ⟨l', hl', hid⟩
      · cases l with
        | alloc i bytes =>
            rcases Finset.mem_insert.mp hid with rfl | hid
            · exact .inr ⟨_, List.mem_cons_self, rfl⟩
            · exact .inl hid
        | realloc i bytes => exact .inl hid
        | free i => exact .inl (Finset.mem_of_mem_erase hid)
      · exact .inr ⟨l', List.mem_cons_of_mem l hl', hid⟩

theorem asks_append_frees (hasks : ∀ l ∈ ls, Asks l) (ids : List Nat) :
    ∀ l ∈ ls ++ frees ids, Asks l := by
  intro l hl
  rcases List.mem_append.mp hl with hl | hl
  · exact hasks l hl
  · obtain ⟨id, -, rfl⟩ := List.mem_map.mp hl
    exact ⟨Nat.zero_le _, nofun⟩

theorem holdsTrace_printTrace (hls : Consistent ∅ ls) (hasks : ∀ l ∈ ls, Asks l)
    (hids : Numbered numBlocks ls) (hheap : heapSize ≤ 2147483647)
    (hblocks : numBlocks ≤ 2147483647) (hops : ls.length ≤ 2147483647)
    (hfile : f.file = some (printTrace heapSize numBlocks ls.length ls)) : HoldsTrace f ls :=
  ⟨⟨_, _, hfile, readable_printTrace hasks hids hheap hblocks hops⟩, hasks,
    usesHeld_of_consistent hasks hls⟩

/-- `main` reports about a trace that `checktrace.pl` has balanced what it reports about the
trace as it was, and about the other traces too, but for the number of requests. -/
theorem balancing_keeps_reports (hbefore : List.Forall₂ HoldsTrace before tb)
    (hafter : List.Forall₂ HoldsTrace after ta) (hd : d.errors = [])
    (hasks : ∀ l ∈ ls, Asks l) (hids : Numbered numBlocks ls)
    (hheap : heapSize ≤ 2147483647) (hblocks : numBlocks ≤ 2147483647)
    (hops : ls.length + (outstanding ∅ ls).card ≤ 2147483647)
    (hf : f.file = some (printTrace heapSize numBlocks ls.length ls))
    (hbalance : checktrace (printTrace heapSize numBlocks ls.length ls) = .ok (some out))
    (hg : g.file = some out) (hname : g.name = f.name) (tracedir : String) :
    ∃ r r' d' e', (main mmPackage tracedir (before ++ f :: after)).run d = .ok (r, d') ∧
      (main mmPackage tracedir (before ++ g :: after)).run d = .ok (r', e') ∧
      e'.errors = d'.errors ∧ r'.rows = r.rows ∧ r'.numcorrect = r.numcorrect ∧
      ∃ ss s rest n, ss.length = before.length ∧ r.stats = ss ++ s :: rest ∧
        r'.stats = ss ++ { s with ops := n } :: rest := by
  have hls : Consistent ∅ ls := by
    refine Decidable.by_contra fun hno => ?_
    obtain ⟨e, herror⟩ := checktrace_of_not_consistent hno heapSize numBlocks ls.length
    rw [herror] at hbalance
    cases hbalance
  have hcount : ls.length + (outstanding ∅ ls).card < 2 ^ 63 := by omega
  obtain ⟨ids, hnodup, hmem, hok⟩ := checktrace_of_consistent hls heapSize numBlocks hcount
  obtain rfl : _ = out := Option.some.inj (Except.ok.inj (hok.symm.trans hbalance))
  have hcard := card_held hnodup hmem
  have hlt : ∀ id ∈ ids, id < numBlocks := by
    intro id hid
    rcases mem_outstanding ((hmem id).mp hid) with hid | ⟨l, hl, rfl⟩
    · exact absurd hid (Finset.notMem_empty id)
    · exact hids.ids l hl
  have hlen : (ls ++ frees ids).length = ls.length + ids.length := by
    rw [List.length_append, frees, List.length_map]
  have hholds := holdsTrace_printTrace hls hasks hids hheap hblocks (by omega) hf
  have hholds' : HoldsTrace g (ls ++ frees ids) := by
    refine holdsTrace_printTrace (consistent_append hls (consistent_frees hnodup hmem).1)
      (asks_append_frees hasks ids) (numbered_append_frees hids hlt) hheap hblocks (by omega) ?_
    rw [hg, hlen]
  obtain ⟨d', hrun, herrors⟩ := main_run (List.rel_append hbefore (.cons hholds hafter)) hd tracedir
  obtain ⟨e', hrun', herrors'⟩ :=
    main_run (List.rel_append hbefore (.cons hholds' hafter)) hd tracedir
  have hreports : reportsFrom d.heap.arena.start 0 (tb ++ ls :: ta) =
      reportsFrom d.heap.arena.start 0 (tb ++ (ls ++ frees ids) :: ta) :=
    reportsFrom_append (statsOf_append_frees _ _ f.name ls ids).2.symm
  have hstats : statsFrom d.heap.arena.start 0 (before ++ f :: after) (tb ++ ls :: ta) = _ :=
    statsFrom_append hbefore.length_eq
  have hstats' : statsFrom d.heap.arena.start 0 (before ++ g :: after)
      (tb ++ (ls ++ frees ids) :: ta) = _ := statsFrom_append hbefore.length_eq
  rw [hname, (statsOf_append_frees d.heap.arena.start (0 + before.length) f.name ls ids).1]
    at hstats'
  refine ⟨_, _, d', e', hrun, hrun', ?_, ?_, ?_, _, _, _, _, ?_, hstats, hstats'⟩
  · rw [herrors, herrors', hreports]
  · dsimp only
    rw [hstats, hstats', printpassed_append, printpassed_append]
    rfl
  · dsimp only
    rw [hstats, hstats', List.filter_append, List.filter_append, List.length_append,
      List.length_append, List.filter_cons, List.filter_cons]
    dsimp only
    split
    · rfl
    · rfl
  · exact length_statsFrom hbefore.length_eq _ 0

def sampleFile (text : List Char) : TraceFile :=
  ⟨"short1-bal.rep", some text, ⟨5, 5, 5, 5⟩, 0, ⟨fun i => i + 1, fun _ => 2⟩⟩

/-- Behind a trace that passes and before one that fails. -/
theorem balancing_keeps_reports_sample : ∃ r r' d' e',
    (main mmPackage "" ([sampleFiles[0]] ++ sampleFile (printTrace 167 13 6 sampleUnbalanced) ::
      [sampleFiles[1]])).run sampleTraceDriver = .ok (r, d') ∧
    (main mmPackage "" ([sampleFiles[0]] ++ sampleFile (printTrace 167 13 9
      (sampleUnbalanced ++ frees [0, 12, 2])) :: [sampleFiles[1]])).run sampleTraceDriver =
        .ok (r', e') ∧
    e'.errors = d'.errors ∧ r'.rows = r.rows ∧ r'.numcorrect = r.numcorrect := by
  cases sample_holds with
  | cons hfirst hrest =>
      obtain ⟨r, r', d', e', hrun, hrun', herrors, hrows, hcorrect, -⟩ :=
        balancing_keeps_reports (d := sampleTraceDriver)
          (f := sampleFile (printTrace 167 13 6 sampleUnbalanced))
          (g := sampleFile (printTrace 167 13 9 (sampleUnbalanced ++ frees [0, 12, 2])))
          (.cons hfirst .nil) hrest rfl (by decide : ∀ l ∈ sampleUnbalanced, Asks l)
          (⟨by decide, .alloc 12 8, by decide, rfl, rfl⟩ : Numbered 13 sampleUnbalanced)
          (by decide : 167 ≤ 2147483647) (by decide) (by decide) rfl rfl rfl rfl ""
      exact ⟨r, r', d', e', hrun, hrun', herrors, hrows, hcorrect⟩

end Sessions

end MallocLab.BalancedTraces
