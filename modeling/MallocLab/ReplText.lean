import MallocLab.Repl
import MallocLab.Scanf

/-!
The REPL of `mdriver.c` from the text of its input: the lines that `fgets` reads, the table of
the commands, and the formats by which the handlers take a line apart.
-/

namespace MallocLab.ReplText

open MallocLab.Machine
open MallocLab.MallocPackage
open MallocLab.Mdriver
open MallocLab.Scanf
open MallocLab.Repl

section Lines

/-- `MAXLINE` -/
def maxLine : Nat := 1024

/-- At most so many characters, up to the end of the line, and the rest. -/
def takeLine : Nat → List Char → List Char × List Char
  | 0, t => ([], t)
  | _ + 1, [] => ([], [])
  | n + 1, c :: t =>
      if c = '\n' then ([c], t)
      else
        let (line, rest) := takeLine n t
        (c :: line, rest)

/-- `fgets` into an array of so many characters, which ends with a null character. -/
def fgets (size : Nat) (t : List Char) : Option (List Char × List Char) :=
  if t = [] then none else some (takeLine (size - 1) t)

/-- What the string functions see of an array. -/
def cString (line : List Char) : List Char := line.takeWhile (· ≠ '\x00')

def sscanf (format : List Directive) (line : List Char) : Option Scan :=
  fscanf format (cString line)

end Lines

section Handlers

inductive Handler where
  | help
  | malloc
  | realloc
  | free
  | print
  | quit
  | reset
  deriving DecidableEq, Repr

/-- `cmd_table` -/
def cmdTable : List (List Char × Handler) :=
  [("help".toList, .help), ("h".toList, .help), ("m".toList, .malloc),
    ("malloc".toList, .malloc), ("r".toList, .realloc), ("realloc".toList, .realloc),
    ("f".toList, .free), ("free".toList, .free), ("p".toList, .print),
    ("print".toList, .print), ("quit".toList, .quit), ("q".toList, .quit),
    ("reset".toList, .reset), ("r".toList, .reset)]

def literals (name : List Char) : List Directive := name.map .literal

/-- `"name %d"` -/
def oneNumber (name : List Char) : List Directive := literals name ++ [.blank, Scanf.decimal]

/-- `"name %d %d"` -/
def twoNumbers (name : List Char) : List Directive :=
  literals name ++ [.blank, Scanf.decimal, .blank, Scanf.decimal]

/-- `"name -b %d"` -/
def blockNumber (name : List Char) : List Directive :=
  literals name ++ [.blank, .literal '-', .literal 'b', .blank, Scanf.decimal]

/-- The values of the first of two formats that assigns `n` of them; nothing where the behaviour
is undefined. -/
def scanEither (n : Nat) (format format' : List Directive) (line : List Char) :
    Option (Option (List Value)) := do
  let s ← sscanf format line
  if s.ret = n then
    return some s.items
  else
    let s' ← sscanf format' line
    return if s'.ret = n then some s'.items else none

/-- What a line comes to. -/
inductive Entry where
  | syntaxError
  | noCommand
  | help
  | quit
  | usage (h : Handler)
  | command (c : Command)
  deriving DecidableEq, Repr

def mallocEntry (line : List Char) : Option Entry := do
  match ← scanEither 2 (twoNumbers "m".toList) (twoNumbers "malloc".toList) line with
  | some [.int index, .int size] => return .command (.malloc index.toInt size)
  | _ => return .usage .malloc

def remallocEntry (line : List Char) : Option Entry := do
  match ← scanEither 2 (twoNumbers "r".toList) (twoNumbers "realloc".toList) line with
  | some [.int index, .int size] => return .command (.realloc index.toInt size)
  | _ => return .usage .realloc

def freeEntry (line : List Char) : Option Entry := do
  match ← scanEither 1 (oneNumber "f".toList) (oneNumber "free".toList) line with
  | some [.int index] => return .command (.free index.toInt)
  | _ => return .usage .free

def printEntry (line : List Char) : Option Entry := do
  match ← scanEither 1 (blockNumber "p".toList) (blockNumber "print".toList) line with
  | some [.int index] => return .command (.print (some index.toInt))
  | _ => return .command (.print none)

def Handler.entry (line : List Char) : Handler → Option Entry
  | .help => some .help
  | .malloc => mallocEntry line
  | .realloc => remallocEntry line
  | .free => freeEntry line
  | .print => printEntry line
  | .quit => some .quit
  | .reset => some (.command .reset)

/-- The body of the loop of `driver`, up to the call of a handler. -/
def enter (line : List Char) : Option Entry := do
  let s ← sscanf [.string maxLine] line
  match s.items with
  | [.str cmd] =>
      match cmdTable.find? fun e => cmd = e.1 with
      | some (_, h) => h.entry line
      | none => return .noCommand
  | _ => return .syntaxError

end Handlers

section Sessions

/-- What the lines of the input come to, up to `quit`. -/
def entriesFrom : (fuel : Nat) → List Char → Option (List Entry)
  | 0, _ => some []
  | fuel + 1, t =>
      match fgets maxLine t with
      | none => some []
      | some (line, rest) => do
          let e ← enter line
          if e = .quit then
            return [.quit]
          else
            return e :: (← entriesFrom fuel rest)

/-- Every line takes a character at least. -/
def entriesOf (t : List Char) : Option (List Entry) := entriesFrom (t.length + 1) t

def helpText : String :=
  "commands:\n" ++
    "malloc <index> <size>  \t mallocs the block at <index> to a size <amount>\n" ++
    "realloc <index> <size> \t reallocs the block at <index> to <amount>\n" ++
    "free <index>           \t frees block at <index>\n" ++
    "print                  \t prints the heap\n" ++
    "print -b <index>      \t prints the status of the block at <index>\n" ++
    "quit                   \t quits repl\n"

def usageText : Handler → String
  | .malloc => "usage: malloc <index> <amount>\n"
  | .free => "usage: f <index>\n"
  | .realloc => "usage: r <index> <size>\n"
  | _ => ""

/-- What an entry does, and the text that it shows. -/
def Entry.run : Entry → ReplM Heap String
  | .syntaxError => return "syntax error (first argument must be a command)\n"
  | .noCommand => return "error: no valid command specified\n"
  | .help => return helpText
  | .quit => do
      resetBrk mmPackage
      clearRanges
      return ""
  | .usage h => return usageText h
  | .command c => return String.join ((← c.handler).map Printed.text)

/-- The loop of `driver`, with a prompt before each line. -/
def entryLoop : List Entry → ReplM Heap String
  | [] => return ""
  | e :: es => do
      let out ← e.run
      return "> " ++ out ++ (← entryLoop es)

def welcome : String :=
  "Welcome to the Malloc REPL. (Enter 'help' to see available commands.)\n"

/-- `driver` on entries.  Only at the end of the input is there one more prompt, and the range
list is cleared, as it is by `quit`. -/
def driverEntries (es : List Entry) : ReplM Heap String := do
  let _ ← resetCmd mmPackage
  let out ← entryLoop es
  if .quit ∈ es then
    return welcome ++ out
  else
    clearRanges
    return welcome ++ out ++ "> \n"

end Sessions

end MallocLab.ReplText
