import MallocLab.HeapPrograms
import MallocLab.ReadTrace

/-!
How the conversions of `read_trace` cut a text, and what the loop makes of the pieces.
-/

namespace MallocLab.TraceText

open MallocLab.HeapPrograms
open MallocLab.Scanf
open MallocLab.ReadTrace

/-- What is taken for one request: the word of `%s`, and the numbers that were there. -/
structure Entry where
  word : List Char
  id : Option Number
  size : Option Number
  deriving DecidableEq, Repr

/-- Why no more requests are taken. -/
inductive Ending where
  | eof
  | bogus (c : Char)
  | undefined
  deriving DecidableEq, Repr

/-- Two numbers, and the rest of the text. -/
abbrev Numbers := Option Number × Option Number × List Char

/-- The numbers of `"%u %u"`. -/
def nextPair (t : List Char) : Option Numbers :=
  match nextNumber fitsUnsigned t with
  | none => none
  | some (none, rest) => some (none, none, rest)
  | some (some id, rest) => (nextNumber fitsUnsigned rest).map fun s => (some id, s.1, s.2)

def skipLetter (c : Char) : List Char → List Char
  | [] => []
  | e :: t => if e = c then t else e :: t

/-- The number of `"%ud"`. -/
def nextId (t : List Char) : Option Numbers :=
  match nextNumber fitsUnsigned t with
  | none => none
  | some (none, rest) => some (none, none, rest)
  | some (some id, rest) => some (some id, none, skipLetter 'd' rest)

def entryOf (w : List Char) : Option Numbers → Except Ending (Entry × List Char)
  | none => .error .undefined
  | some (id, size, rest) => .ok (⟨w, id, size⟩, rest)

/-- The first letter of the word says which numbers follow. -/
def entryAfter (w t : List Char) : Except Ending (Entry × List Char) :=
  match w.headD ' ' with
  | 'a' => entryOf w (nextPair t)
  | 'r' => entryOf w (nextPair t)
  | 'f' => entryOf w (nextId t)
  | c => .error (.bogus c)

def nextEntry (t : List Char) : Except Ending (Entry × List Char) :=
  if skipSpace t = [] then .error .eof
  else if maxLine ≤ (firstWord t).length then .error .undefined
  else entryAfter (firstWord t) (afterWord t)

/-- At most `n` entries of a text, and why there are no more. -/
def entriesFrom : (n : Nat) → List Char → List Entry × Ending
  | 0, _ => ([], .eof)
  | n + 1, t =>
      match nextEntry t with
      | .error ending => ([], ending)
      | .ok (e, rest) => (e :: (entriesFrom n rest).1, (entriesFrom n rest).2)

/-- Every turn takes at least one character. -/
def entries (t : List Char) : List Entry × Ending := entriesFrom (t.length + 1) t

def numberOr (o : Option Number) (old : BitVec 32) : BitVec 32 :=
  match o with
  | some n => BitVec.ofInt 32 n.value
  | none => old

def Entry.op (e : Entry) (index size : BitVec 32) : TraceOp :=
  match e.word.headD ' ' with
  | 'a' => .alloc index size
  | 'r' => .realloc index size
  | _ => .free index

/-- Only `a` and `r` count for the maximum. -/
def Entry.tracked (e : Entry) : Bool := e.word.headD ' ' != 'f'

/-- What one turn of the loop does if there is room in `ops`. -/
def enter (r : Reader) (e : Entry) : Reader :=
  let index := numberOr e.id r.index
  let size := numberOr e.size r.size
  { index, size
    maxIndex := if e.tracked = true ∧ r.maxIndex < index then index else r.maxIndex
    ops := r.ops ++ [e.op index size] }

def Ending.close (path : String) (r : Reader) : Ending → Except ReadStop Reader
  | .eof => .ok r
  | .bogus c => .error (.exit s!"Bogus type character ({c}) in tracefile {path}\n")
  | .undefined => .error .undefined

section Conversions

variable {t rest : List Char} {o id size : Option Number} {e : Entry} {ending : Ending}
  {inRange : Int → Bool} {r : Reader} {log : Reported} {w : List Char}

/-- What is assigned for a number that may be missing. -/
def itemsOf : Option Number → List Value
  | none => []
  | some n => [.int (BitVec.ofInt 32 n.value)]

theorem assigned_itemsOf (o : Option Number) (old : BitVec 32) :
    assigned (itemsOf o) 0 old = numberOr o old := by
  cases o with
  | none => rfl
  | some n => rfl

theorem fscanf_one (ht : nextNumber inRange t = some (o, rest)) :
    ∃ failure, fscanf [.integer inRange] t = some ⟨itemsOf o, failure, rest⟩ := by
  cases o with
  | none => exact fscanf_integer_missing ht
  | some n => exact ⟨false, fscanf_integer ht⟩

theorem fscanf_literal (c : Char) (t : List Char) :
    ∃ failure, fscanf [.literal c] t = some ⟨[], failure, skipLetter c t⟩ := by
  cases t with
  | nil => exact ⟨true, rfl⟩
  | cons e t =>
      rcases Decidable.em (e = c) with hc | hc
      · exact ⟨false, by simp [fscanf, Directive.convert, skipLetter, hc, Scan.assign]⟩
      · exact ⟨false, by simp [fscanf, Directive.convert, skipLetter, hc]⟩

theorem readNumbers_undefined {format : List Directive} (ht : fscanf format t = none) :
    readNumbers format r log t = .error .undefined := by
  simp only [readNumbers, ht]

/-- The items of one `fscanf` are the numbers found. -/
theorem readNumbers_ok {format : List Directive} {items : List Value} {failure : Bool}
    (ht : fscanf format t = some ⟨items, failure, rest⟩)
    (hid : ∀ old, assigned items 0 old = numberOr id old)
    (hsize : ∀ old, assigned items 1 old = numberOr size old) :
    ∃ log', readNumbers format r log t =
      .ok ({ r with index := numberOr id r.index, size := numberOr size r.size }, log', rest) := by
  simp only [readNumbers, ht, hid, hsize]
  exact ⟨_, rfl⟩

/-- The format takes the numbers that `next` says. -/
structure Takes (format : List Directive) (next : List Char → Option Numbers) : Prop where
  undefined : ∀ t r log, next t = none → readNumbers format r log t = .error .undefined
  taken : ∀ t id size rest r log, next t = some (id, size, rest) → ∃ log',
    readNumbers format r log t =
      .ok ({ r with index := numberOr id r.index, size := numberOr size r.size }, log', rest)

theorem takes_pair : Takes [unsigned, .blank, unsigned] nextPair where
  undefined t r log ht := by
    apply readNumbers_undefined
    rcases hid : nextNumber fitsUnsigned t with _ | ⟨_ | id, u⟩
    · exact fscanf_integer_undefined hid
    · simp [nextPair, hid] at ht
    · have hsize : nextNumber fitsUnsigned (skipSpace u) = none := by
        simpa [nextPair, hid, nextNumber_skipSpace] using ht
      rw [unsigned, fscanf_integer hid, fscanf_blank, fscanf_integer_undefined hsize]
      rfl
  taken t id size rest r log ht := by
    rcases hid : nextNumber fitsUnsigned t with _ | ⟨_ | n, u⟩
    · simp [nextPair, hid] at ht
    · simp only [nextPair, hid, Option.some.injEq, Prod.mk.injEq] at ht
      obtain ⟨rfl, rfl, rfl⟩ := ht
      have hscan : ∃ failure, fscanf [unsigned, .blank, unsigned] t = some ⟨[], failure, u⟩ :=
        fscanf_integer_missing hid
      obtain ⟨failure, hscan⟩ := hscan
      exact readNumbers_ok hscan (fun _ => rfl) fun _ => rfl
    · simp only [nextPair, hid, Option.map_eq_some_iff, Prod.mk.injEq] at ht
      obtain ⟨⟨o, v⟩, hsize, rfl, rfl, rfl⟩ := ht
      have hskip := hsize
      rw [← nextNumber_skipSpace] at hskip
      obtain ⟨failure, hone⟩ := fscanf_one hskip
      have hscan : fscanf [unsigned, .blank, unsigned] t =
          some ⟨.int (BitVec.ofInt 32 n.value) :: itemsOf o, failure, v⟩ := by
        rw [unsigned, fscanf_integer hid, fscanf_blank, hone]
        rfl
      exact readNumbers_ok hscan (fun _ => rfl) fun old => assigned_itemsOf o old

theorem takes_id : Takes [unsigned, .literal 'd'] nextId where
  undefined t r log ht := by
    apply readNumbers_undefined
    rcases hid : nextNumber fitsUnsigned t with _ | ⟨_ | id, u⟩
    · exact fscanf_integer_undefined hid
    · simp [nextId, hid] at ht
    · simp [nextId, hid] at ht
  taken t id size rest r log ht := by
    rcases hid : nextNumber fitsUnsigned t with _ | ⟨_ | n, u⟩
    · simp [nextId, hid] at ht
    · simp only [nextId, hid, Option.some.injEq, Prod.mk.injEq] at ht
      obtain ⟨rfl, rfl, rfl⟩ := ht
      have hscan : ∃ failure, fscanf [unsigned, .literal 'd'] t = some ⟨[], failure, u⟩ :=
        fscanf_integer_missing hid
      obtain ⟨failure, hscan⟩ := hscan
      exact readNumbers_ok hscan (fun _ => rfl) fun _ => rfl
    · simp only [nextId, hid, Option.some.injEq, Prod.mk.injEq] at ht
      obtain ⟨rfl, rfl, rfl⟩ := ht
      obtain ⟨failure, hletter⟩ := fscanf_literal 'd' u
      have hscan : fscanf [unsigned, .literal 'd'] t =
          some ⟨[.int (BitVec.ofInt 32 n.value)], failure, skipLetter 'd' u⟩ := by
        rw [unsigned, fscanf_integer hid, hletter]
        rfl
      exact readNumbers_ok hscan (fun _ => rfl) fun _ => rfl

end Conversions

section Steps

variable {path : String} {numOps : BitVec 32} {t rest : List Char} {e : Entry} {ending : Ending}
  {r : Reader} {log : Reported} {n : Nat}

theorem entryOf_ok {w : List Char} {o : Option Numbers} (ho : entryOf w o = .ok (e, rest)) :
    e.word = w ∧ o = some (e.id, e.size, rest) := by
  cases o with
  | none => cases ho
  | some s =>
      cases ho
      exact ⟨rfl, rfl⟩

theorem entryOf_error {w : List Char} {o : Option Numbers} (ho : entryOf w o = .error ending) :
    o = none ∧ ending = .undefined := by
  cases o with
  | none =>
      cases ho
      exact ⟨rfl, rfl⟩
  | some s => cases ho

/-- The cases of an entry, by its first letter. -/
theorem nextEntry_ok (ht : nextEntry t = .ok (e, rest)) :
    skipSpace t ≠ [] ∧ (firstWord t).length < maxLine ∧ e.word = firstWord t ∧
      (((firstWord t).headD ' ' = 'a' ∨ (firstWord t).headD ' ' = 'r') ∧
          nextPair (afterWord t) = some (e.id, e.size, rest) ∨
        (firstWord t).headD ' ' = 'f' ∧ nextId (afterWord t) = some (e.id, e.size, rest)) := by
  unfold nextEntry at ht
  split at ht
  · cases ht
  · rename_i hne
    split at ht
    · cases ht
    · rename_i hlen
      refine ⟨hne, by omega, ?_⟩
      unfold entryAfter at ht
      split at ht
      · rename_i hletter
        obtain ⟨hword, hpair⟩ := entryOf_ok ht
        exact ⟨hword, Or.inl ⟨Or.inl hletter, hpair⟩⟩
      · rename_i hletter
        obtain ⟨hword, hpair⟩ := entryOf_ok ht
        exact ⟨hword, Or.inl ⟨Or.inr hletter, hpair⟩⟩
      · rename_i hletter
        obtain ⟨hword, hid⟩ := entryOf_ok ht
        exact ⟨hword, Or.inr ⟨hletter, hid⟩⟩
      · cases ht

theorem storeOp_of_room {op : TraceOp} (hroom : (r.ops.length : Int) < numOps.toInt) :
    storeOp numOps op r = .ok { r with ops := r.ops ++ [op] } := if_pos hroom

theorem storeOp_of_full {op : TraceOp} (hfull : ¬ (r.ops.length : Int) < numOps.toInt) :
    storeOp numOps op r = .error (.outOfBounds r.ops.length) := if_neg hfull

/-- The variables once the numbers of the entry are assigned. -/
def assign (r : Reader) (e : Entry) : Reader :=
  { r with index := numberOr e.id r.index, size := numberOr e.size r.size }

def track (e : Entry) (r : Reader) : Reader := if e.tracked then trackMax r else r

theorem enter_eq (r : Reader) (e : Entry) :
    enter r e = track e
      { assign r e with ops := r.ops ++ [e.op (assign r e).index (assign r e).size] } := by
  rcases he : e.tracked with _ | _
  · simp [enter, track, he, assign]
  · rcases Decidable.em (r.maxIndex < numberOr e.id r.index) with hlt | hge
    · simp [enter, track, he, trackMax, assign, hlt]
    · simp [enter, track, he, trackMax, assign, hge]

/-- One turn assigns the numbers, stores the request and keeps the maximum. -/
theorem readRequest_of_nextEntry (path : String) (numOps : BitVec 32) (r : Reader)
    (log : Reported) (ht : nextEntry t = .ok (e, rest)) : ∃ log',
    readRequest path numOps (firstWord t) r log (afterWord t) =
      (storeOp numOps (e.op (assign r e).index (assign r e).size) (assign r e) >>= fun r' =>
        .ok (track e r', log', rest)) := by
  obtain ⟨-, -, hword, ⟨hletter | hletter, hnext⟩ | ⟨hletter, hnext⟩⟩ := nextEntry_ok ht
  · obtain ⟨log', hread⟩ := takes_pair.taken _ _ _ _ r log hnext
    refine ⟨log', ?_⟩
    simp only [readRequest, hletter, hread, ok_bind, track, Entry.tracked, Entry.op, hword]
    rfl
  · obtain ⟨log', hread⟩ := takes_pair.taken _ _ _ _ r log hnext
    refine ⟨log', ?_⟩
    simp only [readRequest, hletter, hread, ok_bind, track, Entry.tracked, Entry.op, hword]
    rfl
  · obtain ⟨log', hread⟩ := takes_id.taken _ _ _ _ r log hnext
    refine ⟨log', ?_⟩
    simp only [readRequest, hletter, hread, ok_bind, track, Entry.tracked, Entry.op, hword]
    rfl

theorem fscanf_word (hne : skipSpace t ≠ []) (hlen : (firstWord t).length < maxLine) :
    fscanf [.string maxLine] t = some ⟨[.str (firstWord t)], false, afterWord t⟩ := by
  simp only [fscanf, Directive.convert, if_neg hne, if_pos hlen]
  rfl

/-- A turn of the loop starts with `%s`. -/
theorem readRequests_of_word (hne : skipSpace t ≠ []) (hlen : (firstWord t).length < maxLine) :
    readRequests path numOps (n + 1) r log t =
      (readRequest path numOps (firstWord t) r log (afterWord t) >>= fun s =>
        readRequests path numOps n s.1 s.2.1 s.2.2) := by
  rw [readRequests, fscanf_word hne hlen]
  rfl

theorem readRequests_of_error (ht : nextEntry t = .error ending) :
    readRequests path numOps (n + 1) r log t = (ending.close path r).map (·, log) := by
  unfold nextEntry at ht
  split at ht
  · rename_i hnil
    cases ht
    simp only [readRequests, fscanf, Directive.convert, if_pos hnil]
    rfl
  · rename_i hne
    split at ht
    · rename_i hlen
      cases ht
      have hlong : ¬ (firstWord t).length < maxLine := by omega
      simp only [readRequests, fscanf, Directive.convert, if_neg hne, if_neg hlong]
      rfl
    · rename_i hlen
      rw [readRequests_of_word hne (by omega)]
      unfold entryAfter at ht
      split at ht
      · rename_i hletter
        obtain ⟨hnone, rfl⟩ := entryOf_error ht
        simp only [readRequest, hletter, takes_pair.undefined _ _ _ hnone]
        rfl
      · rename_i hletter
        obtain ⟨hnone, rfl⟩ := entryOf_error ht
        simp only [readRequest, hletter, takes_pair.undefined _ _ _ hnone]
        rfl
      · rename_i hletter
        obtain ⟨hnone, rfl⟩ := entryOf_error ht
        simp only [readRequest, hletter, takes_id.undefined _ _ _ hnone]
        rfl
      · cases ht
        simp only [readRequest]
        rfl

theorem length_skipLetter_le (c : Char) (t : List Char) :
    (skipLetter c t).length ≤ t.length := by
  cases t with
  | nil => rfl
  | cons e t =>
      simp only [skipLetter]
      split
      · exact Nat.le_succ t.length
      · rfl

theorem length_nextPair_le {id size : Option Number} (ht : nextPair t = some (id, size, rest)) :
    rest.length ≤ t.length := by
  rcases hid : nextNumber fitsUnsigned t with _ | ⟨_ | n, u⟩
  · simp [nextPair, hid] at ht
  · simp only [nextPair, hid, Option.some.injEq, Prod.mk.injEq] at ht
    rw [← ht.2.2]
    exact length_nextNumber_le hid
  · simp only [nextPair, hid, Option.map_eq_some_iff, Prod.mk.injEq] at ht
    obtain ⟨⟨o, v⟩, hsize, -, -, rfl⟩ := ht
    exact (length_nextNumber_le hsize).trans (length_nextNumber_le hid)

theorem length_nextId_le {id size : Option Number} (ht : nextId t = some (id, size, rest)) :
    rest.length ≤ t.length := by
  rcases hid : nextNumber fitsUnsigned t with _ | ⟨_ | n, u⟩
  · simp [nextId, hid] at ht
  · simp only [nextId, hid, Option.some.injEq, Prod.mk.injEq] at ht
    rw [← ht.2.2]
    exact length_nextNumber_le hid
  · simp only [nextId, hid, Option.some.injEq, Prod.mk.injEq] at ht
    rw [← ht.2.2]
    exact (length_skipLetter_le 'd' u).trans (length_nextNumber_le hid)

theorem length_nextEntry_lt (ht : nextEntry t = .ok (e, rest)) : rest.length < t.length := by
  obtain ⟨hne, -, -, hcases⟩ := nextEntry_ok ht
  have hlt := length_afterWord_lt hne
  rcases hcases with ⟨-, hnext⟩ | ⟨-, hnext⟩
  · exact (length_nextPair_le hnext).trans_lt hlt
  · exact (length_nextId_le hnext).trans_lt hlt

end Steps

section Runs

variable {path : String} {numOps : BitVec 32} {t rest : List Char} {e : Entry} {ending : Ending}
  {r : Reader} {log : Reported} {n : Nat} {es : List Entry}

theorem length_ops_enter (r : Reader) (e : Entry) :
    (enter r e).ops.length = r.ops.length + 1 := List.length_append

theorem entriesFrom_of_error (ht : nextEntry t = .error ending) :
    entriesFrom (n + 1) t = ([], ending) := by
  simp only [entriesFrom, ht]

theorem entriesFrom_of_ok (ht : nextEntry t = .ok (e, rest)) :
    entriesFrom (n + 1) t = (e :: (entriesFrom n rest).1, (entriesFrom n rest).2) := by
  simp only [entriesFrom, ht]

theorem readRequests_of_ok (path : String) (log : Reported) (n : Nat)
    (ht : nextEntry t = .ok (e, rest)) (hroom : (r.ops.length : Int) < numOps.toInt) : ∃ log',
    readRequests path numOps (n + 1) r log t =
      readRequests path numOps n (enter r e) log' rest := by
  obtain ⟨hne, hlen, -⟩ := nextEntry_ok ht
  obtain ⟨log', hturn⟩ := readRequest_of_nextEntry path numOps r log ht
  refine ⟨log', ?_⟩
  rw [readRequests_of_word hne hlen, hturn, storeOp_of_room (by exact hroom), enter_eq]
  rfl

/-- The whole loop: as long as there is room, it enters all that the text holds. -/
theorem readRequests_of_room (path : String) (r : Reader) (log : Reported) (ht : t.length < n)
    (hes : entriesFrom n t = (es, ending))
    (hroom : r.ops.length + es.length ≤ numOps.toInt.toNat) : ∃ log',
    readRequests path numOps n r log t =
      (ending.close path (es.foldl enter r)).map (·, log') := by
  induction n generalizing r log t es with
  | zero => omega
  | succ n ih =>
      rcases hnext : nextEntry t with stop | ⟨e, rest⟩
      · rw [entriesFrom_of_error hnext] at hes
        cases hes
        exact ⟨log, readRequests_of_error hnext⟩
      · have hlt := length_nextEntry_lt hnext
        rw [entriesFrom_of_ok hnext] at hes
        cases hes
        rw [List.length_cons] at hroom
        obtain ⟨log', hturn⟩ := readRequests_of_ok path log n hnext
          (show (r.ops.length : Int) < numOps.toInt by omega)
        rw [hturn, List.foldl_cons]
        apply ih _ _ _ rfl
        · rw [length_ops_enter]
          omega
        · omega

/-- One request more than `num_ops` is written behind the end of `ops`. -/
theorem readRequests_of_full (ht : t.length < n) (hes : entriesFrom n t = (es, ending))
    (hr : r.ops.length ≤ numOps.toInt.toNat)
    (hfull : numOps.toInt.toNat < r.ops.length + es.length) :
    readRequests path numOps n r log t = .error (.outOfBounds numOps.toInt.toNat) := by
  induction n generalizing r log t es with
  | zero => omega
  | succ n ih =>
      rcases hnext : nextEntry t with stop | ⟨e, rest⟩
      · rw [entriesFrom_of_error hnext] at hes
        cases hes
        rw [List.length_nil] at hfull
        omega
      · have hlt := length_nextEntry_lt hnext
        rw [entriesFrom_of_ok hnext] at hes
        cases hes
        rw [List.length_cons] at hfull
        rcases Decidable.em ((r.ops.length : Int) < numOps.toInt) with hroom | hroom
        · obtain ⟨log', hturn⟩ := readRequests_of_ok path log n hnext hroom
          rw [hturn]
          apply ih _ rfl
          · rw [length_ops_enter]
            omega
          · rw [length_ops_enter]
            omega
          · omega
        · obtain ⟨hne, hlen, -⟩ := nextEntry_ok hnext
          obtain ⟨log', hturn⟩ := readRequest_of_nextEntry path numOps r log hnext
          have hcount : numOps.toInt.toNat = r.ops.length := by omega
          rw [readRequests_of_word hne hlen, hturn, storeOp_of_full (by exact hroom), hcount]
          rfl

end Runs

end MallocLab.TraceText
