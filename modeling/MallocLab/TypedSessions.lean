import MallocLab.PrintedText
import MallocLab.ReplLines

/-!
A session of the REPL that is typed line by line: the commands that the words of the lines ask
for are those that the driver runs.
-/

namespace MallocLab.TypedSessions

open MallocLab.Machine
open MallocLab.MallocPackage
open MallocLab.Mdriver
open MallocLab.Scanf
open MallocLab.PrintedText
open MallocLab.Repl
open MallocLab.ReplText
open MallocLab.ReplLines

section Typing

/-- The word is a number that an `int` holds. -/
def IntWord (w : List Char) (v : Int) : Prop := numeralValue w = some v ∧ fitsInt v = true

/-- The words of a line that ask for a command; what comes after them is not looked at. -/
inductive Asks : List (List Char) → Command → Prop where
  | malloc {name w w' : List Char} {ws : List (List Char)} {index size : Int}
      (hname : name = "m".toList ∨ name = "malloc".toList) (hindex : IntWord w index)
      (hsize : IntWord w' size) :
      Asks (name :: w :: w' :: ws) (.malloc index (BitVec.ofInt 32 size))
  | realloc {name w w' : List Char} {ws : List (List Char)} {index size : Int}
      (hname : name = "r".toList ∨ name = "realloc".toList) (hindex : IntWord w index)
      (hsize : IntWord w' size) :
      Asks (name :: w :: w' :: ws) (.realloc index (BitVec.ofInt 32 size))
  | free {name w : List Char} {ws : List (List Char)} {index : Int}
      (hname : name = "f".toList ∨ name = "free".toList) (hindex : IntWord w index) :
      Asks (name :: w :: ws) (.free index)
  | print {name : List Char} {ws : List (List Char)}
      (hname : name = "p".toList ∨ name = "print".toList)
      (hother : ∀ w ∈ ws.head?, ¬ "-b".toList <+: w) :
      Asks (name :: ws) (.print none)
  | printBlock {name w : List Char} {ws : List (List Char)} {index : Int}
      (hname : name = "p".toList ∨ name = "print".toList) (hindex : IntWord w index) :
      Asks (name :: "-b".toList :: w :: ws) (.print (some index))
  | reset {ws : List (List Char)} : Asks ("reset".toList :: ws) .reset

/-- A line, without its end, that asks for a command. -/
structure Types (l : List Char) (c : Command) : Prop where
  line : '\n' ∉ l
  string : '\x00' ∉ l
  length : l.length + 1 < maxLine
  start : skipSpace l = l
  words : Asks (words l) c

/-- The lines of a session. -/
def typed (lines : List (List Char)) : List Char := lines.flatMap endLine

end Typing

section Words

variable {n : Nat} {t l w : List Char} {ws : List (List Char)} {v : Int} {h : Handler}

theorem numbers_of_words (hwords : words t = w :: ws) (hw : IntWord w v) :
    ∃ rest, words rest = ws ∧
      numbers (n + 1) t = (numbers n rest).map (Option.map (BitVec.ofInt 32 v :: ·)) := by
  obtain ⟨rest, hrest, -, hnumber⟩ := nextNumber_of_words fitsInt hwords hw.1
  rw [if_pos hw.2] at hnumber
  refine ⟨rest, hrest, ?_⟩
  rw [numbers, hnumber]

theorem toInt_of_intWord (hw : IntWord w v) : (BitVec.ofInt 32 v).toInt = v := by
  have hrange := hw.2
  simp only [fitsInt, Bool.and_eq_true, decide_eq_true_eq] at hrange
  exact BitVec.toInt_ofInt_eq_self (by decide) (by omega) (by omega)

/-- The handler that the table has for a name. -/
def handlerOf (name : List Char) : Option Handler :=
  (cmdTable.find? fun e => name = e.1).map Prod.snd

theorem plainEntry_of_words (hstart : skipSpace (cString l) = cString l)
    (hwords : words (cString l) = w :: ws) (hfind : handlerOf w = some h) :
    ∃ rest, words rest = ws ∧
      plainEntry l = (Handler.arguments rest h).map (Handler.entryOf h) := by
  have hne := skipSpace_ne_nil_of_words hwords
  have hcons := words_cons_of_skipSpace hne
  rw [hwords] at hcons
  obtain ⟨rfl, hrest⟩ := List.cons.inj hcons
  refine ⟨afterWord (cString l), hrest.symm, ?_⟩
  obtain ⟨e, hentry, rfl⟩ := Option.map_eq_some_iff.mp hfind
  rw [plainEntry, if_neg hne, hentry]
  exact if_pos hstart

/-- What follows a word of a text, if the next word is known. -/
theorem skipSpace_of_words (hwords : words t = w :: ws) :
    ∃ rest, skipSpace t = w ++ rest ∧ words rest = ws := by
  have hcons := words_cons_of_skipSpace (skipSpace_ne_nil_of_words hwords)
  rw [hwords] at hcons
  obtain ⟨rfl, hrest⟩ := List.cons.inj hcons
  exact ⟨afterWord t, (firstWord_append_afterWord t).symm, hrest.symm⟩

theorem blockArgument_of_words (hwords : words t = "-b".toList :: ws) :
    ∃ rest, words rest = ws ∧ blockArgument t = numbers 1 rest := by
  obtain ⟨rest, hskip, hrest⟩ := skipSpace_of_words hwords
  refine ⟨rest, hrest, ?_⟩
  rw [blockArgument, hskip]
  rfl

theorem blockArgument_of_other (hwords : words t = ws)
    (hother : ∀ w ∈ ws.head?, ¬ "-b".toList <+: w) : blockArgument t = some none := by
  rw [blockArgument]
  split
  · rename_i rest hskip
    have hne : skipSpace t ≠ [] := by
      rw [hskip]
      exact List.cons_ne_nil _ _
    have hhead : firstWord t ∈ ws.head? := by
      rw [← hwords, words_cons_of_skipSpace hne]
      rfl
    have hletters : "-b".toList.all (fun c => !isSpace c) = true := rfl
    have hbegins := prefix_firstWord (t := skipSpace t) hletters (by decide) ⟨rest, hskip.symm⟩
    rw [firstWord, skipSpace_skipSpace] at hbegins
    exact absurd hbegins.1 (hother _ hhead)
  · rfl

theorem handlerOf_print {name : List Char} (hname : name = "p".toList ∨ name = "print".toList) :
    handlerOf name = some .print := by
  rcases hname with rfl | rfl
  · rfl
  · rfl

/-- The words of a command are taken for it. -/
theorem plainEntry_of_asks {c : Command} (hstart : skipSpace (cString l) = cString l)
    (hasks : Asks (words (cString l)) c) : plainEntry l = some (.command c) := by
  generalize hwords : words (cString l) = us at hasks
  cases hasks with
  | @malloc name w w' ws index size hname hindex hsize =>
      have hfind : handlerOf name = some .malloc := by
        rcases hname with rfl | rfl
        · rfl
        · rfl
      obtain ⟨rest, hrest, hentry⟩ := plainEntry_of_words hstart hwords hfind
      obtain ⟨rest', hrest', hnumber⟩ := numbers_of_words (n := 1) hrest hindex
      obtain ⟨rest'', -, hnumber'⟩ := numbers_of_words (n := 0) hrest' hsize
      rw [hentry, Handler.arguments, hnumber, hnumber']
      change some (Entry.command (.malloc (BitVec.ofInt 32 index).toInt _)) = _
      rw [toInt_of_intWord hindex]
  | @realloc name w w' ws index size hname hindex hsize =>
      have hfind : handlerOf name = some .realloc := by
        rcases hname with rfl | rfl
        · rfl
        · rfl
      obtain ⟨rest, hrest, hentry⟩ := plainEntry_of_words hstart hwords hfind
      obtain ⟨rest', hrest', hnumber⟩ := numbers_of_words (n := 1) hrest hindex
      obtain ⟨rest'', -, hnumber'⟩ := numbers_of_words (n := 0) hrest' hsize
      rw [hentry, Handler.arguments, hnumber, hnumber']
      change some (Entry.command (.realloc (BitVec.ofInt 32 index).toInt _)) = _
      rw [toInt_of_intWord hindex]
  | @free name w ws index hname hindex =>
      have hfind : handlerOf name = some .free := by
        rcases hname with rfl | rfl
        · rfl
        · rfl
      obtain ⟨rest, hrest, hentry⟩ := plainEntry_of_words hstart hwords hfind
      obtain ⟨rest', -, hnumber⟩ := numbers_of_words (n := 0) hrest hindex
      rw [hentry, Handler.arguments, hnumber]
      change some (Entry.command (.free (BitVec.ofInt 32 index).toInt)) = _
      rw [toInt_of_intWord hindex]
  | @print name ws hname hother =>
      have hfind := handlerOf_print hname
      obtain ⟨rest, hrest, hentry⟩ := plainEntry_of_words hstart hwords hfind
      rw [hentry, Handler.arguments, blockArgument_of_other hrest hother]
      rfl
  | @printBlock name w ws index hname hindex =>
      have hfind := handlerOf_print hname
      obtain ⟨rest, hrest, hentry⟩ := plainEntry_of_words hstart hwords hfind
      obtain ⟨rest', hrest', hblock⟩ := blockArgument_of_words hrest
      obtain ⟨rest'', -, hnumber⟩ := numbers_of_words (n := 0) hrest' hindex
      rw [hentry, Handler.arguments, hblock, hnumber]
      change some (Entry.command (.print (some (BitVec.ofInt 32 index).toInt))) = _
      rw [toInt_of_intWord hindex]
  | @reset ws =>
      obtain ⟨rest, -, hentry⟩ := plainEntry_of_words (h := .reset) hstart hwords rfl
      exact hentry

end Words

section Lines

variable {n fuel : Nat} {t l rest : List Char} {ls : List (List Char)} {c : Command}
  {e : Entry}

theorem words_endLine (l : List Char) : words (endLine l) = words l := by
  induction l with
  | nil => rfl
  | cons c l ih =>
      have hblank : atBlank (endLine l) = atBlank l := by
        cases l with
        | nil => rfl
        | cons e l => rfl
      change words (c :: endLine l) = _
      rw [words, words, hblank, ih]

theorem skipSpace_endLine (hne : l ≠ []) (hstart : skipSpace l = l) :
    skipSpace (endLine l) = endLine l := by
  obtain ⟨c, u, rfl⟩ := List.exists_cons_of_ne_nil hne
  exact skipSpace_eq_self (head_skipSpace hstart)

theorem cString_endLine (hstring : '\x00' ∉ l) : cString (endLine l) = endLine l := by
  rw [cString, List.takeWhile_eq_self_iff]
  intro c hc
  rw [decide_eq_true_eq]
  rintro rfl
  rcases List.mem_append.mp hc with hmem | hmem
  · exact hstring hmem
  · exact absurd (List.mem_singleton.mp hmem) (by decide)

theorem Asks.ne_nil (hasks : Asks (words l) c) : l ≠ [] := by
  rintro rfl
  cases hasks

/-- A line that ends is read up to its end. -/
theorem takeLine_endLine (hline : '\n' ∉ l) (hlen : l.length < n) (rest : List Char) :
    takeLine n (endLine l ++ rest) = (endLine l, rest) := by
  induction l generalizing n with
  | nil =>
      cases n with
      | zero => exact absurd hlen (Nat.not_lt_zero 0)
      | succ n => rfl
  | cons c l ih =>
      have hne := List.ne_of_not_mem_cons hline
      have hrest := List.not_mem_of_not_mem_cons hline
      cases n with
      | zero => exact absurd hlen (Nat.not_lt_zero _)
      | succ n =>
          change takeLine (n + 1) (c :: (endLine l ++ rest)) = _
          rw [takeLine, if_neg (Ne.symm hne), ih hrest (Nat.lt_of_succ_lt_succ hlen)]
          rfl

theorem fgets_endLine (hline : '\n' ∉ l) (hlen : l.length + 1 < maxLine) (rest : List Char) :
    fgets maxLine (endLine l ++ rest) = some (endLine l, rest) := by
  have hne : endLine l ++ rest ≠ [] := by simp [endLine]
  rw [fgets, if_neg hne, takeLine_endLine hline (Nat.lt_sub_of_add_lt hlen)]

theorem enter_endLine (htypes : Types l c) : enter (endLine l) = some (.command c) := by
  have hstring := cString_endLine htypes.string
  have hline := fgets_endLine htypes.line htypes.length []
  rw [enter_eq_plainEntry hline]
  apply plainEntry_of_asks
  · rw [hstring]
    exact skipSpace_endLine htypes.words.ne_nil htypes.start
  · rw [hstring, words_endLine]
    exact htypes.words

/-- Every line takes a character at least. -/
theorem length_fgets_lt {line : List Char} (hline : fgets maxLine t = some (line, rest)) :
    rest.length < t.length := by
  obtain ⟨hne, -, rfl⟩ := fgets_eq_some hline
  have hsum := congrArg List.length (takeLine_append (maxLine - 1) t)
  obtain ⟨c, u, rfl⟩ := List.exists_cons_of_ne_nil hne
  have htaken : 0 < (takeLine (maxLine - 1) (c :: u)).1.length := by
    change 0 < (takeLine (1022 + 1) (c :: u)).1.length
    rw [takeLine]
    split
    · exact Nat.one_pos
    · exact Nat.succ_pos _
  rw [List.length_append] at hsum
  omega

/-- More fuel than characters makes no difference. -/
theorem entriesFrom_eq {fuel' : Nat} (hfuel : t.length < fuel) (hfuel' : t.length < fuel') :
    entriesFrom fuel t = entriesFrom fuel' t := by
  induction fuel generalizing t fuel' with
  | zero => exact absurd hfuel (Nat.not_lt_zero _)
  | succ fuel ih =>
      cases fuel' with
      | zero => exact absurd hfuel' (Nat.not_lt_zero _)
      | succ fuel' =>
          rw [entriesFrom, entriesFrom]
          cases hline : fgets maxLine t with
          | none => rfl
          | some p =>
              obtain ⟨line, rest⟩ := p
              have hlt := length_fgets_lt hline
              have hrest : entriesFrom fuel rest = entriesFrom fuel' rest :=
                ih (by omega) (by omega)
              dsimp only
              rw [hrest]

theorem entriesOf_eq_of_fgets {line : List Char} (hline : fgets maxLine t = some (line, rest)) :
    entriesOf t = (do
      let e ← enter line
      if e = .quit then
        return [.quit]
      else
        return e :: (← entriesOf rest)) := by
  have hlt := length_fgets_lt hline
  have hrest : entriesFrom t.length rest = entriesOf rest := entriesFrom_eq hlt (Nat.lt_succ_self _)
  rw [entriesOf, entriesFrom, hline]
  dsimp only
  rw [hrest]

/-- The lines of a session are read in front of what follows them. -/
theorem entriesOf_typed {session : List (List Char × Command)}
    (hsession : ∀ p ∈ session, Types p.1 p.2) (rest : List Char) :
    entriesOf (typed (session.map Prod.fst) ++ rest) =
      (entriesOf rest).map (session.map (fun p => Entry.command p.2) ++ ·) := by
  induction session with
  | nil => exact Option.map_id'.symm
  | cons p session ih =>
      obtain ⟨htypes, hsession⟩ := List.forall_mem_cons.mp hsession
      have hline := fgets_endLine htypes.line htypes.length (typed (session.map Prod.fst) ++ rest)
      have htext : typed ((p :: session).map Prod.fst) ++ rest =
          endLine p.1 ++ (typed (session.map Prod.fst) ++ rest) :=
        List.append_assoc ..
      rw [htext, entriesOf_eq_of_fgets hline, enter_endLine htypes, ih hsession]
      cases entriesOf rest with
      | none => rfl
      | some es => rfl

end Lines

section Effects

variable {α β γ δ : Type} {x : ReplM Heap α} {y : ReplM Heap β} {z : ReplM Heap γ}

/-- Two programs that leave the same state, or stop alike, whatever they return. -/
def SameEffect (x : ReplM Heap α) (y : ReplM Heap β) : Prop :=
  ∀ d, (x.run d).map Prod.snd = (y.run d).map Prod.snd

theorem SameEffect.refl (x : ReplM Heap α) : SameEffect x x := fun _ => rfl

theorem SameEffect.trans (hxy : SameEffect x y) (hyz : SameEffect y z) : SameEffect x z :=
  fun d => (hxy d).trans (hyz d)

theorem SameEffect.bind {f : α → ReplM Heap γ} {g : β → ReplM Heap δ} (hxy : SameEffect x y)
    (hfg : ∀ a b, SameEffect (f a) (g b)) : SameEffect (x >>= f) (y >>= g) := by
  intro d
  have heffect := hxy d
  rw [StateT.run_bind, StateT.run_bind]
  cases hx : x.run d with
  | error e =>
      rw [hx] at heffect
      cases hy : y.run d with
      | error e' =>
          rw [hy] at heffect
          cases heffect
          rfl
      | ok q =>
          rw [hy] at heffect
          cases heffect
  | ok p =>
      rw [hx] at heffect
      cases hy : y.run d with
      | error e' =>
          rw [hy] at heffect
          cases heffect
      | ok q =>
          rw [hy] at heffect
          have hstate : p.2 = q.2 := Except.ok.inj heffect
          change ((f p.1).run p.2).map Prod.snd = ((g q.1).run q.2).map Prod.snd
          rw [hstate]
          exact hfg p.1 q.1 q.2

theorem sameEffect_bind_pure (x : ReplM Heap α) (f : α → β) :
    SameEffect (x >>= fun a => pure (f a)) x := by
  intro d
  rw [StateT.run_bind]
  cases x.run d with
  | error e => rfl
  | ok q => rfl

end Effects

section Sessions

variable {cmds : List Command} {es : List Entry} {l : List Char}

theorem entryLoop_commands (cmds : List Command) (es : List Entry) :
    SameEffect (entryLoop (cmds.map Entry.command ++ es))
      (driverLoop cmds >>= fun _ => entryLoop es) := by
  induction cmds with
  | nil => exact .refl _
  | cons c cmds ih =>
      have hrun : SameEffect (Entry.command c).run c.handler :=
        sameEffect_bind_pure c.handler fun out => String.join (out.map Printed.text)
      have hloop : SameEffect (entryLoop ((c :: cmds).map Entry.command ++ es))
          (c.handler >>= fun _ => driverLoop cmds >>= fun _ => entryLoop es) :=
        hrun.bind fun out _ => (sameEffect_bind_pure _ fun rest => "> " ++ out ++ rest).trans ih
      rw [driverLoop, bind_assoc]
      exact hloop

theorem driverEntries_end (hquit : Entry.quit ∉ es) :
    SameEffect (driverEntries es)
      (resetCmd mmPackage >>= fun _ => entryLoop es >>= fun _ => clearRanges) := by
  refine (SameEffect.refl _).bind fun _ _ => (SameEffect.refl _).bind fun out _ => ?_
  rw [if_neg hquit]
  exact sameEffect_bind_pure clearRanges fun _ => welcome ++ out ++ "> \n"

theorem driverEntries_quit (hquit : Entry.quit ∈ es) :
    SameEffect (driverEntries es) (resetCmd mmPackage >>= fun _ => entryLoop es) := by
  refine (SameEffect.refl _).bind fun _ _ => ?_
  simp only [if_pos hquit]
  exact sameEffect_bind_pure (entryLoop es) fun out => welcome ++ out

/-- What `quit` does before it exits. -/
theorem entryLoop_quit : SameEffect (entryLoop [.quit])
    (resetBrk mmPackage >>= fun _ => clearRanges) := by
  have hrun : SameEffect Entry.quit.run (resetBrk mmPackage >>= fun _ => clearRanges) :=
    (SameEffect.refl _).bind fun _ _ => sameEffect_bind_pure clearRanges fun _ => ""
  have hloop : SameEffect (entryLoop [.quit]) Entry.quit.run :=
    sameEffect_bind_pure Entry.quit.run fun out => "> " ++ out ++ ""
  exact hloop.trans hrun

theorem quit_not_mem_commands (cmds : List Command) : Entry.quit ∉ cmds.map Entry.command := by
  intro hmem
  obtain ⟨c, -, hc⟩ := List.mem_map.mp hmem
  cases hc

theorem enter_quit (hname : l = "q".toList ∨ l = "quit".toList) :
    enter (endLine l) = some .quit := by
  rcases hname with rfl | rfl
  · rfl
  · rfl

end Sessions

/-- The driver runs the commands that the words of the lines ask for, up to the end of the input
or to 'quit', whatever follows that. -/
theorem typed_session {session : List (List Char × Command)} {q : List Char}
    (hsession : ∀ p ∈ session, Types p.1 p.2) (hquit : q = "q".toList ∨ q = "quit".toList)
    (rest : List Char) :
    (∃ es, entriesOf (typed (session.map Prod.fst)) = some es ∧
      SameEffect (driverEntries es) (do
        driver (session.map Prod.snd)
        clearRanges)) ∧
    ∃ es, entriesOf (typed (session.map Prod.fst) ++ (endLine q ++ rest)) = some es ∧
      SameEffect (driverEntries es) (do
        driver (session.map Prod.snd)
        resetBrk mmPackage
        clearRanges) := by
  have hcommands : session.map (fun p => Entry.command p.2) =
      (session.map Prod.snd).map Entry.command := (List.map_map ..).symm
  constructor
  · have hread := entriesOf_typed hsession []
    rw [List.append_nil, hcommands] at hread
    refine ⟨_, hread, ?_⟩
    have hloop := entryLoop_commands (session.map Prod.snd) []
    have hend : SameEffect (driverEntries ((session.map Prod.snd).map Entry.command ++ []))
        (resetCmd mmPackage >>= fun _ => (driverLoop (session.map Prod.snd) >>= fun _ =>
          entryLoop []) >>= fun _ => clearRanges) := by
      refine (driverEntries_end ?_).trans ?_
      · rw [List.append_nil]
        exact quit_not_mem_commands _
      · exact (SameEffect.refl _).bind fun _ _ => hloop.bind fun _ _ => .refl _
    rw [driver, bind_assoc]
    simpa only [entryLoop, bind_assoc, pure_bind] using hend
  · have hline : fgets maxLine (endLine q ++ rest) = some (endLine q, rest) := by
      rcases hquit with rfl | rfl
      · exact fgets_endLine (by decide) (by decide) rest
      · exact fgets_endLine (by decide) (by decide) rest
    have hread := entriesOf_typed hsession (endLine q ++ rest)
    rw [entriesOf_eq_of_fgets hline, enter_quit hquit, hcommands] at hread
    refine ⟨_, hread, ?_⟩
    have hmem : Entry.quit ∈ (session.map Prod.snd).map Entry.command ++ [.quit] :=
      List.mem_append_right _ List.mem_cons_self
    refine (driverEntries_quit hmem).trans ?_
    rw [driver, bind_assoc]
    exact (SameEffect.refl _).bind fun _ _ => (entryLoop_commands _ [.quit]).trans
      ((SameEffect.refl _).bind fun _ _ => entryLoop_quit)

/-- A number may have a sign and blanks in front, and what follows the command does not count. -/
theorem typed_session_sample : ∃ es,
    entriesOf (typed ["malloc 7  +24".toList, "f 7 and so on".toList]) = some es ∧
      SameEffect (driverEntries es) (do
        driver [.malloc 7 24, .free 7]
        clearRanges) := by
  have hindex : IntWord "7".toList 7 := ⟨rfl, rfl⟩
  have hsize : IntWord "+24".toList 24 := ⟨rfl, rfl⟩
  have hmalloc : Types "malloc 7  +24".toList (.malloc 7 24) :=
    { line := by decide
      string := by decide
      length := by decide
      start := rfl
      words := Asks.malloc (.inr rfl) hindex hsize }
  have hfree : Types "f 7 and so on".toList (.free 7) :=
    { line := by decide
      string := by decide
      length := by decide
      start := rfl
      words := .free (.inl rfl) hindex }
  have hsession : ∀ p ∈ [("malloc 7  +24".toList, Command.malloc 7 24),
      ("f 7 and so on".toList, .free 7)], Types p.1 p.2 := by
    intro p hp
    rcases List.mem_cons.mp hp with rfl | hp
    · exact hmalloc
    · rw [List.mem_singleton.mp hp]
      exact hfree
  exact (typed_session hsession (.inl rfl) []).1

end MallocLab.TypedSessions
