import MallocLab.TraceText

/-!
A whole run of `read_trace`: what it returns, or how it stops, in terms of the numbers and
the entries of the text.
-/

namespace MallocLab.TraceReading

open MallocLab.HeapPrograms
open MallocLab.Scanf
open MallocLab.ReadTrace
open MallocLab.TraceText

/-- The numbers of the header, as far as they are there. -/
def headerOf (t : List Char) : Option (Header (Option Number) × List Char) := do
  let (suggHeapsize, t) ← nextNumber fitsInt t
  let (numIds, t) ← nextNumber fitsInt t
  let (numOps, t) ← nextNumber fitsInt t
  let (weight, t) ← nextNumber fitsInt t
  return (⟨suggHeapsize, numIds, numOps, weight⟩, t)

/-- The fields of the record after the header was read. -/
def fields (stale : Header (BitVec 32)) (h : Header (Option Number)) : Header (BitVec 32) where
  suggHeapsize := numberOr h.suggHeapsize stale.suggHeapsize
  numIds := numberOr h.numIds stale.numIds
  numOps := numberOr h.numOps stale.numOps
  weight := numberOr h.weight stale.weight

section Headers

variable {t rest : List Char} {o : Option Number} {log : Reported} {stale : Header (BitVec 32)}
  {h : Header (Option Number)}

theorem readField_undefined (old : BitVec 32) (ht : nextNumber fitsInt t = none) :
    readField old log t = .error .undefined := by
  simp only [readField, decimal, fscanf_integer_undefined ht]

theorem readField_ok (old : BitVec 32) (log : Reported)
    (ht : nextNumber fitsInt t = some (o, rest)) :
    ∃ log', readField old log t = .ok (numberOr o old, log', rest) := by
  obtain ⟨failure, hscan⟩ := fscanf_one ht
  simp only [readField, decimal, hscan, assigned_itemsOf]
  exact ⟨_, rfl⟩

theorem readHeader_ok (stale : Header (BitVec 32)) (ht : headerOf t = some (h, rest)) :
    ∃ log', readHeader stale t = .ok (fields stale h, log', rest) := by
  simp only [headerOf, Option.bind_eq_bind, Option.bind_eq_some_iff, Option.pure_def,
    Option.some.injEq, Prod.mk.injEq] at ht
  obtain ⟨⟨o₁, t₁⟩, h₁, ⟨o₂, t₂⟩, h₂, ⟨o₃, t₃⟩, h₃, ⟨o₄, t₄⟩, h₄, rfl, rfl⟩ := ht
  obtain ⟨log₁, hread₁⟩ := readField_ok stale.suggHeapsize [] h₁
  obtain ⟨log₂, hread₂⟩ := readField_ok stale.numIds log₁ h₂
  obtain ⟨log₃, hread₃⟩ := readField_ok stale.numOps log₂ h₃
  obtain ⟨log₄, hread₄⟩ := readField_ok stale.weight log₃ h₄
  simp only [readHeader, hread₁, hread₂, hread₃, hread₄, ok_bind]
  exact ⟨log₄, rfl⟩

theorem readHeader_undefined (stale : Header (BitVec 32)) (ht : headerOf t = none) :
    readHeader stale t = .error .undefined := by
  rcases h₁ : nextNumber fitsInt t with _ | ⟨o₁, t₁⟩
  · simp only [readHeader, readField_undefined _ h₁]
    rfl
  · obtain ⟨log₁, hread₁⟩ := readField_ok stale.suggHeapsize [] h₁
    rcases h₂ : nextNumber fitsInt t₁ with _ | ⟨o₂, t₂⟩
    · simp only [readHeader, hread₁, ok_bind, readField_undefined _ h₂]
      rfl
    · obtain ⟨log₂, hread₂⟩ := readField_ok stale.numIds log₁ h₂
      rcases h₃ : nextNumber fitsInt t₂ with _ | ⟨o₃, t₃⟩
      · simp only [readHeader, hread₁, hread₂, ok_bind, readField_undefined _ h₃]
        rfl
      · obtain ⟨log₃, hread₃⟩ := readField_ok stale.numOps log₂ h₃
        rcases h₄ : nextNumber fitsInt t₃ with _ | ⟨o₄, t₄⟩
        · simp only [readHeader, hread₁, hread₂, hread₃, ok_bind, readField_undefined _ h₄]
          rfl
        · simp [headerOf, h₁, h₂, h₃, h₄] at ht

end Headers

/-- The variables before the loop. -/
def start (size : BitVec 32) : Reader := ⟨0, size, 0, []⟩

/-- The variables after the loop, for the entries of the text. -/
def finish (size : BitVec 32) (es : List Entry) : Reader := es.foldl enter (start size)

section Results

variable {path : String} {t rest : List Char} {stale : Header (BitVec 32)} {size : BitVec 32}
  {h : Header (Option Number)} {es : List Entry} {ending : Ending}

theorem readTrace_of_headerOf_none (ht : headerOf t = none) :
    readTrace path (some t) stale size = .error .undefined := by
  simp only [readTrace, readHeader_undefined stale ht]
  rfl

/-- The rest of the run, once the loop is known. -/
def conclude (hd : Header (BitVec 32)) (r : Reader) (log : Reported) :
    Except ReadStop (Trace × Reported) :=
  if r.maxIndex = hd.numIds - 1 then
    if BitVec.ofNat 32 r.ops.length = hd.numOps then .ok (⟨hd, r.ops⟩, log)
    else .error .assertion
  else .error .assertion

theorem readTrace_of_header (path : String) (stale : Header (BitVec 32)) (size : BitVec 32)
    (ht : headerOf t = some (h, rest)) : ∃ log,
    readTrace path (some t) stale size =
      (readRequests path (fields stale h).numOps (rest.length + 1) (start size) log rest >>=
        fun s => conclude (fields stale h) s.1 s.2) := by
  obtain ⟨log, hheader⟩ := readHeader_ok stale ht
  simp only [readTrace, hheader, ok_bind]
  exact ⟨log, rfl⟩

theorem readTrace_of_full (ht : headerOf t = some (h, rest)) (hes : entries rest = (es, ending))
    (hfull : (fields stale h).numOps.toInt.toNat < es.length) :
    readTrace path (some t) stale size =
      .error (.outOfBounds (fields stale h).numOps.toInt.toNat) := by
  obtain ⟨log, hrun⟩ := readTrace_of_header path stale size ht
  rw [hrun, readRequests_of_full (Nat.lt_succ_self _) hes (Nat.zero_le _)
    (hfull.trans_le (Nat.le_add_left ..))]
  rfl

theorem readTrace_of_room (path : String) (size : BitVec 32)
    (ht : headerOf t = some (h, rest)) (hes : entries rest = (es, ending))
    (hroom : es.length ≤ (fields stale h).numOps.toInt.toNat) : ∃ log,
    readTrace path (some t) stale size =
      (ending.close path (finish size es) >>= fun r => conclude (fields stale h) r log) := by
  obtain ⟨log, hrun⟩ := readTrace_of_header path stale size ht
  obtain ⟨log', hloop⟩ := readRequests_of_room path (start size) log (Nat.lt_succ_self _) hes
    ((Nat.zero_add _).trans_le hroom)
  refine ⟨log', ?_⟩
  rw [hrun, hloop]
  cases ending with
  | eof => rfl
  | bogus c => rfl
  | undefined => rfl

theorem conclude_stops {hd : Header (BitVec 32)} {r : Reader} {log : Reported} {s : ReadStop}
    (hstop : conclude hd r log = .error s) : s = .assertion := by
  unfold conclude at hstop
  split at hstop
  · split at hstop
    · cases hstop
    · cases hstop
      rfl
  · cases hstop
    rfl

/-- With room in `ops` and all numbers in range, the run ends in a defined way. -/
theorem readTrace_stops (path : String) (size : BitVec 32) (ht : headerOf t = some (h, rest)) (hes : entries rest = (es, ending))
    (hroom : es.length ≤ (fields stale h).numOps.toInt.toNat) (hdef : ending ≠ .undefined) :
    readTrace path (some t) stale size ≠ .error .undefined ∧
      ∀ i, readTrace path (some t) stale size ≠ .error (.outOfBounds i) := by
  obtain ⟨log, hrun⟩ := readTrace_of_room path size ht hes hroom
  rw [hrun]
  cases ending with
  | eof =>
      rw [Ending.close, ok_bind]
      constructor
      · intro hstop
        cases conclude_stops hstop
      · intro i hstop
        cases conclude_stops hstop
  | bogus c =>
      constructor
      · intro hstop
        cases hstop
      · intro i hstop
        cases hstop
  | undefined => exact absurd rfl hdef

end Results

/-- The ids of the requests that count for the maximum.  A request whose id is missing has
the one before it. -/
def trackedIds : (last : BitVec 32) → List Entry → List (BitVec 32)
  | _, [] => []
  | last, e :: es =>
      if e.tracked then numberOr e.id last :: trackedIds (numberOr e.id last) es
      else trackedIds (numberOr e.id last) es

/-- The largest id of an `a` or `r` request, or 0. -/
def largestId (es : List Entry) : Nat := ((trackedIds 0 es).map BitVec.toNat).foldl max 0

section Variables

variable {path : String} {t rest : List Char} {stale : Header (BitVec 32)} {size : BitVec 32}
  {h : Header (Option Number)} {es : List Entry} {ending : Ending} {tr : Trace}

theorem length_ops_foldl (r : Reader) (es : List Entry) :
    (es.foldl enter r).ops.length = r.ops.length + es.length := by
  induction es generalizing r with
  | nil => rfl
  | cons e es ih =>
      rw [List.foldl_cons, ih, length_ops_enter, List.length_cons]
      omega

theorem maxIndex_trackMax (r : Reader) :
    (trackMax r).maxIndex.toNat = max r.maxIndex.toNat r.index.toNat := by
  simp only [trackMax, BitVec.lt_def]
  split
  · omega
  · omega

theorem maxIndex_foldl (r : Reader) (es : List Entry) :
    (es.foldl enter r).maxIndex.toNat =
      ((trackedIds r.index es).map BitVec.toNat).foldl max r.maxIndex.toNat := by
  induction es generalizing r with
  | nil => rfl
  | cons e es ih =>
      rw [List.foldl_cons, ih, trackedIds]
      rcases he : e.tracked with _ | _
      · rw [enter_eq, track, he]
        rfl
      · rw [enter_eq, track, if_pos he, maxIndex_trackMax]
        rfl

theorem maxIndex_finish (size : BitVec 32) (es : List Entry) :
    (finish size es).maxIndex.toNat = largestId es := maxIndex_foldl (start size) es

theorem length_ops_finish (size : BitVec 32) (es : List Entry) :
    (finish size es).ops.length = es.length :=
  (length_ops_foldl (start size) es).trans (Nat.zero_add _)

/-- `read_trace` returns this trace. -/
def Returns (path : String) (stale : Header (BitVec 32)) (size : BitVec 32) (t : List Char)
    (tr : Trace) : Prop :=
  ∃ reported, readTrace path (some t) stale size = .ok (tr, reported)

theorem ofNat_length_eq_iff {numOps : BitVec 32} {n : Nat} (hroom : n ≤ numOps.toInt.toNat) :
    BitVec.ofNat 32 n = numOps ↔ (n : Int) = numOps.toInt := by
  have hlt := BitVec.toInt_lt (x := numOps)
  have hn : (BitVec.ofNat 32 n).toInt = n := by
    rw [BitVec.toInt_ofNat', Int.bmod_eq_of_le]
    · omega
    · omega
  rw [← BitVec.toInt_inj, hn]

theorem conclude_eq_ok_iff {hd : Header (BitVec 32)} {r : Reader} {log reported : Reported} :
    conclude hd r log = .ok (tr, reported) ↔ r.maxIndex = hd.numIds - 1 ∧
      BitVec.ofNat 32 r.ops.length = hd.numOps ∧ tr = ⟨hd, r.ops⟩ ∧ reported = log := by
  unfold conclude
  split
  · rename_i hmax
    split
    · rename_i hlen
      rw [and_iff_right hmax, and_iff_right hlen, Except.ok.injEq, Prod.mk.injEq,
        eq_comm, @eq_comm _ log]
    · rename_i hlen
      exact ⟨nofun, fun hall => absurd hall.2.1 hlen⟩
  · rename_i hmax
    exact ⟨nofun, fun hall => absurd hall.1 hmax⟩

/-- The two assertions decide, once the text is read to its end without trouble. -/
theorem returns_iff (ht : headerOf t = some (h, rest)) (hes : entries rest = (es, ending))
    (hroom : es.length ≤ (fields stale h).numOps.toInt.toNat) :
    Returns path stale size t tr ↔ ending = .eof ∧
      largestId es = ((fields stale h).numIds - 1).toNat ∧
      (es.length : Int) = (fields stale h).numOps.toInt ∧
      tr = ⟨fields stale h, (finish size es).ops⟩ := by
  obtain ⟨log, hrun⟩ := readTrace_of_room path size ht hes hroom
  rw [Returns, hrun, ← maxIndex_finish size es, BitVec.toNat_inj, ← ofNat_length_eq_iff hroom,
    ← length_ops_finish size es]
  cases ending with
  | eof =>
      rw [Ending.close, ok_bind]
      constructor
      · rintro ⟨reported, hok⟩
        obtain ⟨hmax, hlen, htr, -⟩ := conclude_eq_ok_iff.mp hok
        exact ⟨rfl, hmax, hlen, htr⟩
      · rintro ⟨-, hmax, hlen, htr⟩
        exact ⟨log, conclude_eq_ok_iff.mpr ⟨hmax, hlen, htr, rfl⟩⟩
  | bogus c => exact ⟨nofun, nofun⟩
  | undefined => exact ⟨nofun, nofun⟩

end Variables

end MallocLab.TraceReading
