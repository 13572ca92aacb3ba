import MallocLab.Scanf

/-!
The function `read_trace` of `mdriver.c`.
-/

namespace MallocLab.ReadTrace

open MallocLab.Scanf

/-- `MAXLINE` -/
def maxLine : Nat := 1024

/-- A request of `ops`.  The size of a `FREE` is never written. -/
inductive TraceOp where
  | alloc (index size : BitVec 32)
  | realloc (index size : BitVec 32)
  | free (index : BitVec 32)
  deriving DecidableEq, Repr

def TraceOp.index : TraceOp → BitVec 32
  | .alloc index _ => index
  | .realloc index _ => index
  | .free index => index

/-- The four numbers that a trace file begins with. -/
structure Header (α : Type) where
  suggHeapsize : α
  numIds : α
  numOps : α
  weight : α
  deriving DecidableEq, Repr

/-- A `trace_t`.  The arrays `blocks` and `block_sizes` are left uninitialised. -/
structure Trace where
  header : Header (BitVec 32)
  ops : List TraceOp
  deriving DecidableEq, Repr

/-- How `read_trace` fails to return: `fscanf` is asked for what the standard leaves undefined,
a request is written behind the end of `ops`, the program exits, or an `assert` fails. -/
inductive ReadStop where
  | undefined
  | outOfBounds (opIndex : Nat)
  | unixError (msg : String)
  | exit (msg : String)
  | assertion
  | diverges
  deriving DecidableEq, Repr

/-- The local variables.  `op_index` is the length of `ops`. -/
structure Reader where
  index : BitVec 32
  size : BitVec 32
  maxIndex : BitVec 32
  ops : List TraceOp
  deriving DecidableEq, Repr

/-- The error numbers that `_check` has reported. -/
abbrev Reported := List Int

/-- `_check` prints a message and goes on. -/
def check (errcode : Int) (log : Reported) : Reported :=
  if errcode < 0 then log ++ [-errcode] else log

/-- The value that a conversion assigned, or the one that the variable had. -/
def assigned (items : List Value) (i : Nat) (old : BitVec 32) : BitVec 32 :=
  match items[i]? with
  | some (.int v) => v
  | _ => old

def assignedWord : List Value → List Char
  | .str w :: _ => w
  | _ => []

/-- One line `_check(fscanf(tracefile, "%d", &field))`. -/
def readField (old : BitVec 32) (log : Reported) (t : List Char) :
    Except ReadStop (BitVec 32 × Reported × List Char) :=
  match fscanf [decimal] t with
  | none => .error .undefined
  | some s => .ok (assigned s.items 0 old, check s.ret log, s.rest)

/-- The header.  A field that is not read keeps what `malloc` left there. -/
def readHeader (stale : Header (BitVec 32)) (t : List Char) :
    Except ReadStop (Header (BitVec 32) × Reported × List Char) := do
  let (suggHeapsize, log, t) ← readField stale.suggHeapsize [] t
  let (numIds, log, t) ← readField stale.numIds log t
  let (numOps, log, t) ← readField stale.numOps log t
  let (weight, log, t) ← readField stale.weight log t
  return (⟨suggHeapsize, numIds, numOps, weight⟩, log, t)

/-- `_check(fscanf(tracefile, "%u %u", &index, &size))`, and the same with `"%ud"`, which
asks for a letter `d` behind the number. -/
def readNumbers (format : List Directive) (r : Reader) (log : Reported) (t : List Char) :
    Except ReadStop (Reader × Reported × List Char) :=
  match fscanf format t with
  | none => .error .undefined
  | some s =>
      .ok ({ r with index := assigned s.items 0 r.index, size := assigned s.items 1 r.size },
        check s.ret log, s.rest)

/-- The assignments to `trace->ops[op_index]`. -/
def storeOp (numOps : BitVec 32) (op : TraceOp) (r : Reader) : Except ReadStop Reader :=
  if (r.ops.length : Int) < numOps.toInt then .ok { r with ops := r.ops ++ [op] }
  else .error (.outOfBounds r.ops.length)

def trackMax (r : Reader) : Reader :=
  { r with maxIndex := if r.maxIndex < r.index then r.index else r.maxIndex }

/-- The body of the loop. -/
def readRequest (path : String) (numOps : BitVec 32) (type : List Char) (r : Reader)
    (log : Reported) (t : List Char) : Except ReadStop (Reader × Reported × List Char) :=
  -- only `type[0]` is looked at, and a word that `%s` takes is not empty
  match type.headD ' ' with
  | 'a' => do
      let (r, log, t) ← readNumbers [unsigned, .blank, unsigned] r log t
      let r ← storeOp numOps (.alloc r.index r.size) r
      return (trackMax r, log, t)
  | 'r' => do
      let (r, log, t) ← readNumbers [unsigned, .blank, unsigned] r log t
      let r ← storeOp numOps (.realloc r.index r.size) r
      return (trackMax r, log, t)
  | 'f' => do
      let (r, log, t) ← readNumbers [unsigned, .literal 'd'] r log t
      let r ← storeOp numOps (.free r.index) r
      -- `max_index` is left alone here
      return (r, log, t)
  | c => .error (.exit s!"Bogus type character ({c}) in tracefile {path}\n")

/-- The loop; `n` bounds the number of turns. -/
def readRequests (path : String) (numOps : BitVec 32) :
    (n : Nat) → Reader → Reported → List Char → Except ReadStop (Reader × Reported)
  | 0, _, _, _ => .error .diverges
  | n + 1, r, log, t =>
      match fscanf [.string maxLine] t with
      | none => .error .undefined
      | some s =>
          if s.ret = eof then .ok (r, log)
          else do
            let (r, log, t) ← readRequest path numOps (assignedWord s.items) r log s.rest
            readRequests path numOps n r log t

/-- `read_trace`, for the file at `path` if it opens; `stale` and `size` are what the trace
record and the variable of that name hold before anything is assigned to them. -/
def readTrace (path : String) (file : Option (List Char)) (stale : Header (BitVec 32))
    (size : BitVec 32) : Except ReadStop (Trace × Reported) :=
  match file with
  | none => .error (.unixError s!"Could not open {path} in read_trace")
  | some text => do
      let (header, log, t) ← readHeader stale text
      let (r, log) ← readRequests path header.numOps (t.length + 1) ⟨0, size, 0, []⟩ log t
      if r.maxIndex = header.numIds - 1 then
        if BitVec.ofNat 32 r.ops.length = header.numOps then
          return (⟨header, r.ops⟩, log)
        else
          throw .assertion
      else
        throw .assertion

end MallocLab.ReadTrace
