import Mathlib.Data.List.Fold
import Mathlib.Data.List.Forall2
import Mathlib.Data.List.MinMax
import Mathlib.Order.Nat
import MallocLab.TraceGrammar

/-!
Which trace files `read_trace` reads as the trace format has it: the loop trusts the header
while it fills `ops`, and checks only how many requests there were and their largest id.
-/

namespace MallocLab.WellFormedTraces

open MallocLab.Scanf
open MallocLab.ReadTrace
open MallocLab.TraceText
open MallocLab.TraceReading
open MallocLab.TraceGrammar

/-- The stored request is the one of the line. -/
inductive Stores : TraceOp → Line → Prop
  | alloc {index size : BitVec 32} {id bytes : Nat} (hindex : index.toInt = id)
      (hsize : size.toInt = bytes) : Stores (.alloc index size) (.alloc id bytes)
  | realloc {index size : BitVec 32} {id bytes : Nat} (hindex : index.toInt = id)
      (hsize : size.toInt = bytes) : Stores (.realloc index size) (.realloc id bytes)
  | free {index : BitVec 32} {id : Nat} (hindex : index.toInt = id) :
      Stores (.free index) (.free id)

/-- The text is a trace file, and the trace holds its header and its requests in file order,
all with an id below `num_ids`. -/
structure HoldsText (tr : Trace) (t : List Char) : Prop where
  formatted : ∃ ls, Formatted t (mapHeader BitVec.toInt tr.header) ls ∧
    List.Forall₂ Stores tr.ops ls
  indices : ∀ op ∈ tr.ops, 0 ≤ op.index.toInt ∧ op.index.toInt < tr.header.numIds.toInt

/-- What a well-formed trace file has to satisfy to be accepted; `INT_MAX` is
2147483647. -/
structure Acceptable (h : Header Int) (ls : List Line) : Prop where
  nonempty : 1 ≤ h.numOps
  ids : ∀ l ∈ ls, (l.id : Int) < h.numIds
  sizes : ∀ l ∈ ls, l.bytes ≤ 2147483647
  last : ∃ l ∈ ls, l.tracked = true ∧ (l.id : Int) = h.numIds - 1

/-- `read_trace` does what it is for on the text.  Nothing can be said of a run that asks
`fscanf` for what the standard leaves undefined. -/
structure ReadsWell (path : String) (stale : Header (BitVec 32)) (size : BitVec 32)
    (t : List Char) : Prop where
  defined : readTrace path (some t) stale size ≠ .error .undefined
  inBounds : ∀ i, readTrace path (some t) stale size ≠ .error (.outOfBounds i)
  returns : ∀ tr, Returns path stale size t tr → HoldsText tr t
  accepts : ∀ h ls, Formatted t h ls → Acceptable h ls → ∃ tr, Returns path stale size t tr

/-- The number is there, fills its word, and has no value below 0. -/
def HasNatural (o : Option Number) (n : Int) : Prop := o = whole n ∧ 0 ≤ n

/-- The word is the letter alone, and all its numbers are there; a size is one of an `int`,
and the id of an `f` request, which the maximum leaves out, is below `num_ids`. -/
inductive Complete (numIds : Int) (e : Entry) : Prop
  | sized (hword : e.word = ['a'] ∨ e.word = ['r']) (hid : ∃ id, HasNatural e.id id)
      (hsize : ∃ bytes, HasNatural e.size bytes ∧ bytes ≤ 2147483647)
  | free (hword : e.word = ['f']) (hid : ∃ id, HasNatural e.id id ∧ id < numIds)
      (hsize : e.size = none)

/-- All numbers that are read can be represented, there are no more requests than the header
says, and if it is those that pass for a trace then all of them are complete. -/
def Trustworthy (stale : Header (BitVec 32)) (t : List Char) : Prop :=
  ∃ h rest es ending, headerOf t = some (h, rest) ∧ entries rest = (es, ending) ∧
    ending ≠ .undefined ∧ es.length ≤ (fields stale h).numOps.toInt.toNat ∧
    (ending = .eof → (es.length : Int) = (fields stale h).numOps.toInt →
      largestId es = ((fields stale h).numIds - 1).toNat →
        (∃ g, h = mapHeader whole g) ∧ 1 ≤ (fields stale h).numIds.toInt ∧
          ∀ e ∈ es, Complete (fields stale h).numIds.toInt e)

section Lines

variable {l : Line} {ls : List Line} {e : Entry} {es : List Entry} {numIds : Int} {n : Nat}
  {last : BitVec 32} {r : Reader}

/-- What is stored for a complete line. -/
def lineOp : Line → TraceOp
  | .alloc id bytes => .alloc (BitVec.ofInt 32 id) (BitVec.ofInt 32 bytes)
  | .realloc id bytes => .realloc (BitVec.ofInt 32 id) (BitVec.ofInt 32 bytes)
  | .free id => .free (BitVec.ofInt 32 id)

theorem tracked_entry (l : Line) : l.entry.tracked = l.tracked := by
  cases l with
  | alloc id bytes => rfl
  | realloc id bytes => rfl
  | free id => rfl

theorem id_entry (l : Line) : l.entry.id = whole (l.id) := by
  cases l with
  | alloc id bytes => rfl
  | realloc id bytes => rfl
  | free id => rfl

theorem index_lineOp (l : Line) : (lineOp l).index = BitVec.ofInt 32 (l.id) := by
  cases l with
  | alloc id bytes => rfl
  | realloc id bytes => rfl
  | free id => rfl

theorem ops_enter_line (r : Reader) (l : Line) : (enter r l.entry).ops = r.ops ++ [lineOp l] := by
  cases l with
  | alloc id bytes => rfl
  | realloc id bytes => rfl
  | free id => rfl

theorem ops_foldl_lines (r : Reader) (ls : List Line) :
    ((ls.map Line.entry).foldl enter r).ops = r.ops ++ ls.map lineOp := by
  induction ls generalizing r with
  | nil => exact (List.append_nil r.ops).symm
  | cons l ls ih =>
      rw [List.map_cons, List.foldl_cons, ih, ops_enter_line, List.append_assoc]
      rfl

theorem ops_finish_lines (size : BitVec 32) (ls : List Line) :
    (finish size (ls.map Line.entry)).ops = ls.map lineOp := ops_foldl_lines (start size) ls

theorem mem_trackedIds_iff {i : BitVec 32} : i ∈ trackedIds last (ls.map Line.entry) ↔
    ∃ l ∈ ls, l.tracked = true ∧ i = BitVec.ofInt 32 (l.id) := by
  induction ls generalizing last with
  | nil => simp [trackedIds]
  | cons l ls ih =>
      rw [List.map_cons, trackedIds, tracked_entry, id_entry]
      rcases hl : l.tracked with _ | _
      · simp [ih, hl]
      · simp [ih, hl, numberOr, whole]

theorem largestId_eq (es : List Entry) :
    largestId es = ((trackedIds 0 es).map BitVec.toNat).foldr max ⊥ := by
  rw [largestId, List.foldl_eq_foldr]
  rfl

theorem toNat_le_largestId {i : BitVec 32} (hi : i ∈ trackedIds 0 es) :
    i.toNat ≤ largestId es := by
  rw [largestId_eq]
  exact List.le_max_of_le (List.mem_map_of_mem hi) le_rfl

theorem largestId_le (hes : ∀ i ∈ trackedIds 0 es, i.toNat ≤ n) : largestId es ≤ n := by
  rw [largestId_eq]
  apply List.max_le_of_forall_le
  intro i hi
  obtain ⟨j, hj, rfl⟩ := List.mem_map.mp hi
  exact hes j hj

theorem toNat_ofInt {id : Nat} (hid : fitsUnsigned id = true) :
    (BitVec.ofInt 32 id).toNat = id := by
  simp only [fitsUnsigned, decide_eq_true_eq] at hid
  rw [BitVec.toNat_ofInt]
  omega

theorem fitsUnsigned_id (hl : l.fits = true) : fitsUnsigned (l.id) = true := by
  cases l with
  | alloc id bytes => exact (Bool.and_eq_true_iff.mp hl).1
  | realloc id bytes => exact (Bool.and_eq_true_iff.mp hl).1
  | free id => exact hl

/-- The largest id, for complete lines. -/
theorem largestId_lines (hfits : ∀ l ∈ ls, l.fits = true)
    (hle : ∀ l ∈ ls, l.tracked = true → l.id ≤ n)
    (hlast : ∃ l ∈ ls, l.tracked = true ∧ l.id = n) :
    largestId (ls.map Line.entry) = n := by
  apply le_antisymm
  · apply largestId_le
    intro i hi
    obtain ⟨l, hl, htracked, rfl⟩ := mem_trackedIds_iff.mp hi
    rw [toNat_ofInt (fitsUnsigned_id (hfits l hl))]
    exact hle l hl htracked
  · obtain ⟨l, hl, htracked, rfl⟩ := hlast
    have hmem := toNat_le_largestId (mem_trackedIds_iff.mpr ⟨l, hl, htracked, rfl⟩)
    rwa [toNat_ofInt (fitsUnsigned_id (hfits l hl))] at hmem

theorem id_le_largestId (hl : l ∈ ls) (hfits : l.fits = true) (htracked : l.tracked = true) :
    l.id ≤ largestId (ls.map Line.entry) := by
  have hmem := toNat_le_largestId (mem_trackedIds_iff.mpr ⟨l, hl, htracked, rfl⟩)
  rwa [toNat_ofInt (fitsUnsigned_id hfits)] at hmem

theorem toInt_ofInt_eq_iff {v : Nat} : (BitVec.ofInt 32 v).toInt = v ↔ v ≤ 2147483647 := by
  constructor
  · intro hv
    have hlt := BitVec.toInt_lt (x := BitVec.ofInt 32 v)
    omega
  · intro hv
    exact BitVec.toInt_ofInt_eq_self (by decide) (by omega) (by omega)

theorem stores_lineOp_iff :
    Stores (lineOp l) l ↔ l.id ≤ 2147483647 ∧ l.bytes ≤ 2147483647 := by
  cases l with
  | alloc id bytes =>
      constructor
      · intro hstores
        cases hstores with
        | alloc hindex hsize => exact ⟨toInt_ofInt_eq_iff.mp hindex, toInt_ofInt_eq_iff.mp hsize⟩
      · rintro ⟨hid, hbytes⟩
        exact Stores.alloc (toInt_ofInt_eq_iff.mpr hid) (toInt_ofInt_eq_iff.mpr hbytes)
  | realloc id bytes =>
      constructor
      · intro hstores
        cases hstores with
        | realloc hindex hsize => exact ⟨toInt_ofInt_eq_iff.mp hindex, toInt_ofInt_eq_iff.mp hsize⟩
      · rintro ⟨hid, hbytes⟩
        exact Stores.realloc (toInt_ofInt_eq_iff.mpr hid) (toInt_ofInt_eq_iff.mpr hbytes)
  | free id =>
      constructor
      · intro hstores
        cases hstores with
        | free hindex => exact ⟨toInt_ofInt_eq_iff.mp hindex, Nat.zero_le _⟩
      · rintro ⟨hid, -⟩
        exact Stores.free (toInt_ofInt_eq_iff.mpr hid)

theorem forall₂_stores_iff :
    List.Forall₂ Stores (ls.map lineOp) ls ↔ ∀ l ∈ ls, Stores (lineOp l) l :=
  List.forall₂_map_left_iff.trans List.forall₂_same

theorem hasNatural_whole (v : Nat) : HasNatural (whole v) v := ⟨rfl, Int.natCast_nonneg v⟩

theorem HasNatural.exists_nat {o : Option Number} {v : Int} (ho : HasNatural o v) :
    ∃ k : Nat, o = whole k ∧ v = k := by
  obtain ⟨rfl, hv⟩ := ho
  obtain ⟨k, rfl⟩ := Int.eq_ofNat_of_zero_le hv
  exact ⟨k, rfl, rfl⟩

/-- A complete entry is taken for a line. -/
theorem exists_line (he : Complete numIds e) : ∃ l : Line, e = l.entry ∧
    l.bytes ≤ 2147483647 ∧ (l.tracked = false → (l.id : Int) < numIds) := by
  obtain ⟨word, o, o'⟩ := e
  cases he with
  | sized hword hid hsize =>
      obtain ⟨i, hid⟩ := hid
      obtain ⟨v, hsize, hmax⟩ := hsize
      obtain ⟨id, rfl, rfl⟩ := hid.exists_nat
      obtain ⟨bytes, rfl, rfl⟩ := hsize.exists_nat
      rcases hword with rfl | rfl
      · exact ⟨.alloc id bytes, rfl, Int.ofNat_le.mp hmax, by intro hfree; cases hfree⟩
      · exact ⟨.realloc id bytes, rfl, Int.ofNat_le.mp hmax, by intro hfree; cases hfree⟩
  | free hword hid hsize =>
      obtain ⟨i, hid, hlt⟩ := hid
      obtain ⟨id, rfl, rfl⟩ := hid.exists_nat
      cases hword
      cases hsize
      exact ⟨.free id, rfl, Nat.zero_le _, fun _ => hlt⟩

theorem complete_entry (hbytes : l.bytes ≤ 2147483647) (hid : (l.id : Int) < numIds) :
    Complete numIds l.entry := by
  cases l with
  | alloc id bytes =>
      exact Complete.sized (Or.inl rfl) ⟨id, hasNatural_whole id⟩
        ⟨bytes, hasNatural_whole bytes, Int.ofNat_le.mpr hbytes⟩
  | realloc id bytes =>
      exact Complete.sized (Or.inr rfl) ⟨id, hasNatural_whole id⟩
        ⟨bytes, hasNatural_whole bytes, Int.ofNat_le.mpr hbytes⟩
  | free id => exact Complete.free rfl ⟨id, hasNatural_whole id, hid⟩ rfl

theorem exists_lines (hes : ∀ e ∈ es, Complete numIds e) : ∃ ls : List Line,
    es = ls.map Line.entry ∧ ∀ l ∈ ls, l.bytes ≤ 2147483647 ∧
      (l.tracked = false → (l.id : Int) < numIds) := by
  induction es with
  | nil => exact ⟨[], rfl, List.forall_mem_nil _⟩
  | cons e es ih =>
      obtain ⟨he, hrest⟩ := List.forall_mem_cons.mp hes
      obtain ⟨l, rfl, hl⟩ := exists_line he
      obtain ⟨ls, rfl, hls⟩ := ih hrest
      exact ⟨l :: ls, rfl, List.forall_mem_cons.mpr ⟨hl, hls⟩⟩

end Lines

section Texts

variable {path : String} {stale : Header (BitVec 32)} {size : BitVec 32} {t rest : List Char}
  {h : Header (Option Number)} {g : Header Int} {es : List Entry} {ending : Ending}
  {ls : List Line} {tr : Trace}

theorem toNat_sub_one {n : BitVec 32} (hpos : 1 ≤ n.toInt) :
    ((n - 1).toNat : Int) = n.toInt - 1 := by
  have hlt := BitVec.toInt_lt (x := n)
  have hn : n.toInt = n.toNat := by
    rw [BitVec.toInt_eq_toNat_cond] at hpos ⊢
    split at hpos
    · rename_i hsmall
      rw [if_pos hsmall]
    · omega
  have hone : (1 : BitVec 32).toNat = 1 := rfl
  rw [BitVec.toNat_sub, hone]
  omega

theorem toInt_of_sub_one {n : BitVec 32} (hn : (n - 1).toNat = 0) : n.toInt = 1 := by
  have hzero : n - 1 = 0 := BitVec.eq_of_toNat_eq hn
  have hone : n = 1 := by
    rw [← BitVec.sub_add_cancel n 1, hzero]
    rfl
  rw [hone]
  decide

/-- What is taken from the request lines of a trace file. -/
structure TakenWhole (es : List Entry) (ending : Ending) (ls : List Line) : Prop where
  entries : es = ls.map Line.entry
  ending : ending = .eof
  fits : ∀ l ∈ ls, l.fits = true

theorem takenWhole_of_spellLines (hes : entries rest = (es, ending)) (hdef : ending ≠ .undefined)
    (hs : SpellLines (words rest) ls) : TakenWhole es ending ls := by
  have hlines := entriesFrom_of_spellLines (Nat.lt_succ_self rest.length) hs
  rw [entries] at hes
  rw [hes] at hlines
  split at hlines
  · rename_i hfits
    cases hlines
    exact ⟨rfl, rfl, List.all_eq_true.mp hfits⟩
  · exact absurd hlines hdef

theorem takenWhole_of_formatted (ht : headerOf t = some (h, rest))
    (hes : entries rest = (es, ending)) (hdef : ending ≠ .undefined) (hformat : Formatted t g ls) :
    h = mapHeader whole g ∧ TakenWhole es ending ls := by
  obtain ⟨w₁, w₂, w₃, w₄, ws, hwords, hheader, hlines, -⟩ := hformat
  obtain ⟨hh, rfl⟩ := headerOf_eq hwords hheader ht
  exact ⟨hh, takenWhole_of_spellLines hes hdef hlines⟩

/-- Every text of the format is accepted, if its ids and sizes allow it. -/
theorem returns_of_acceptable (ht : headerOf t = some (h, rest))
    (hes : entries rest = (es, ending)) (hdef : ending ≠ .undefined)
    (hroom : es.length ≤ (fields stale h).numOps.toInt.toNat)
    (hformat : Formatted t g ls) (hacceptable : Acceptable g ls) :
    ∃ tr, Returns path stale size t tr := by
  obtain ⟨rfl, rfl, rfl, hfits⟩ := takenWhole_of_formatted ht hes hdef hformat
  have hint := toInt_fields stale ht
  have hids : (fields stale (mapHeader whole g)).numIds.toInt = g.numIds :=
    congrArg Header.numIds hint
  have hops : (fields stale (mapHeader whole g)).numOps.toInt = g.numOps :=
    congrArg Header.numOps hint
  have hcount : g.numOps = ls.length := by
    obtain ⟨w₁, w₂, w₃, w₄, ws, -, -, -, hcount⟩ := hformat
    exact hcount
  obtain ⟨l, hl, htracked, hlast⟩ := hacceptable.last
  have hmax := toNat_sub_one (n := (fields stale (mapHeader whole g)).numIds) (by omega)
  refine ⟨_, (returns_iff ht hes hroom).mpr ⟨rfl, ?_, ?_, rfl⟩⟩
  · apply largestId_lines hfits
    · intro l' hl' _
      have hlt := hacceptable.ids l' hl'
      omega
    · exact ⟨l, hl, htracked, by omega⟩
  · rw [List.length_map, hops, hcount]

-- The trace file that the format is explained with.
example : Returns "example.rep" ⟨0, 0, 0, 0⟩ 0
    ("20000\n3\n8\n1\na 0 512\na 1 128\nr 0 640\na 2 128\nf 1\nr 0 768\nf 0\nf 2\n").toList
    ⟨⟨20000, 3, 8, 1⟩, [.alloc 0 512, .alloc 1 128, .realloc 0 640, .alloc 2 128, .free 1,
      .realloc 0 768, .free 0, .free 2]⟩ := ⟨[], by decide +kernel⟩

/-- A trace of complete entries is the one of the text. -/
theorem holdsText_of_complete (ht : headerOf t = some (mapHeader whole g, rest))
    (hes : entries rest = (es, .eof))
    (hcount : (es.length : Int) = (fields stale (mapHeader whole g)).numOps.toInt)
    (hlargest : largestId es = ((fields stale (mapHeader whole g)).numIds - 1).toNat)
    (hpos : 1 ≤ (fields stale (mapHeader whole g)).numIds.toInt)
    (hcomplete : ∀ e ∈ es, Complete (fields stale (mapHeader whole g)).numIds.toInt e) :
    HoldsText ⟨fields stale (mapHeader whole g), (finish size es).ops⟩ t := by
  obtain ⟨ls, rfl, hls⟩ := exists_lines hcomplete
  have hspell := spellLines_of_entriesFrom (Nat.lt_succ_self rest.length) hes
  have hfits := (takenWhole_of_spellLines hes nofun hspell).fits
  have hmax := toNat_sub_one hpos
  have hlt := BitVec.toInt_lt (x := (fields stale (mapHeader whole g)).numIds)
  have hids : ∀ l ∈ ls, (l.id : Int) < (fields stale (mapHeader whole g)).numIds.toInt := by
    intro l hl
    rcases htracked : l.tracked with _ | _
    · exact (hls l hl).2 htracked
    · have hle := id_le_largestId hl (hfits l hl) htracked
      omega
  have hstores : ∀ l ∈ ls, Stores (lineOp l) l := by
    intro l hl
    have hid := hids l hl
    exact stores_lineOp_iff.mpr ⟨by omega, (hls l hl).1⟩
  constructor
  · obtain ⟨w₁, w₂, w₃, w₄, hwords, hheader⟩ := spellHeader_of_headerOf ht
    refine ⟨ls, ⟨w₁, w₂, w₃, w₄, words rest, hwords, ?_, hspell, ?_⟩, ?_⟩
    · rw [toInt_fields stale ht]
      exact hheader
    · rw [List.length_map] at hcount
      exact hcount.symm
    · rw [ops_finish_lines]
      exact forall₂_stores_iff.mpr hstores
  · intro op hop
    rw [ops_finish_lines] at hop
    obtain ⟨l, hl, rfl⟩ := List.mem_map.mp hop
    have hid := hids l hl
    rw [index_lineOp, toInt_ofInt_eq_iff.mpr (by omega)]
    exact ⟨Int.natCast_nonneg _, hid⟩

theorem readsWell_of_trustworthy (htrust : Trustworthy stale t) : ReadsWell path stale size t := by
  obtain ⟨h, rest, es, ending, ht, hes, hdef, hroom, hcomplete⟩ := htrust
  have hstop := readTrace_stops path size ht hes hroom hdef
  constructor
  · exact hstop.1
  · exact hstop.2
  · intro tr htr
    obtain ⟨rfl, hlargest, hcount, rfl⟩ := (returns_iff ht hes hroom).mp htr
    obtain ⟨⟨g, rfl⟩, hpos, hall⟩ := hcomplete rfl hcount hlargest
    exact holdsText_of_complete ht hes hcount hlargest hpos hall
  · intro g ls hformat hacceptable
    exact returns_of_acceptable ht hes hdef hroom hformat hacceptable

theorem trustworthy_of_readsWell (hreads : ReadsWell path stale size t) : Trustworthy stale t := by
  rcases ht : headerOf t with _ | ⟨h, rest⟩
  · exact absurd (readTrace_of_headerOf_none ht) hreads.defined
  · rcases hes : entries rest with ⟨es, ending⟩
    have hroom : es.length ≤ (fields stale h).numOps.toInt.toNat := by
      rcases Nat.lt_or_ge (fields stale h).numOps.toInt.toNat es.length with hfull | hroom
      · exact absurd (readTrace_of_full ht hes hfull) (hreads.inBounds _)
      · exact hroom
    have hdef : ending ≠ .undefined := by
      rintro rfl
      obtain ⟨log, hrun⟩ := readTrace_of_room path size ht hes hroom
      exact hreads.defined hrun
    refine ⟨h, rest, es, ending, ht, hes, hdef, hroom, ?_⟩
    intro heof hcount hlargest
    have hreturns : Returns path stale size t ⟨fields stale h, (finish size es).ops⟩ :=
      (returns_iff ht hes hroom).mpr ⟨heof, hlargest, hcount, rfl⟩
    obtain ⟨⟨ls, hformat, hstores⟩, hindices⟩ := hreads.returns _ hreturns
    obtain ⟨hheader, rfl, -, hfits⟩ := takenWhole_of_formatted ht hes hdef hformat
    rw [ops_finish_lines] at hstores hindices
    have hstores := forall₂_stores_iff.mp hstores
    have hids : ∀ l ∈ ls, (l.id : Int) < (fields stale h).numIds.toInt := by
      intro l hl
      have hindex := hindices _ (List.mem_map_of_mem hl)
      rw [index_lineOp, toInt_ofInt_eq_iff.mpr (stores_lineOp_iff.mp (hstores l hl)).1] at hindex
      exact hindex.2
    refine ⟨⟨_, hheader⟩, ?_, ?_⟩
    · cases ls with
      | nil => rw [toInt_of_sub_one hlargest.symm]
      | cons l ls =>
          have hid := hids l List.mem_cons_self
          omega
    · intro e he
      obtain ⟨l, hl, rfl⟩ := List.mem_map.mp he
      exact complete_entry (stores_lineOp_iff.mp (hstores l hl)).2 (hids l hl)

/-- `read_trace` reads a text as the trace format has it if and only if the text can be
trusted. -/
theorem reads_well_iff_trustworthy (path : String) (stale : Header (BitVec 32))
    (size : BitVec 32) (t : List Char) : ReadsWell path stale size t ↔ Trustworthy stale t :=
  ⟨trustworthy_of_readsWell, readsWell_of_trustworthy⟩

end Texts

/-- The id of an `f` request is not looked at, and a request more than the header says is
written behind the end of `ops`. -/
theorem header_is_trusted :
    ¬ ReadsWell "short.rep" ⟨0, 0, 0, 0⟩ 0 "20 1 2 1\na 0 8\nf 5\n".toList ∧
      ¬ ReadsWell "short.rep" ⟨0, 0, 0, 0⟩ 0 "20 1 1 1\na 0 8\nf 0\n".toList := by
  constructor
  · intro hreads
    have hreturns : Returns "short.rep" ⟨0, 0, 0, 0⟩ 0 "20 1 2 1\na 0 8\nf 5\n".toList
        ⟨⟨20, 1, 2, 1⟩, [.alloc 0 8, .free 5]⟩ := ⟨[], by decide +kernel⟩
    have hindices := (hreads.returns _ hreturns).indices
    exact absurd (hindices (.free 5) (by decide)).2 (by decide)
  · intro hreads
    exact hreads.inBounds 1 (by decide +kernel)

end MallocLab.WellFormedTraces
