import MallocLab.ReplText

/-!
What a line of the REPL comes to.  The handlers try two formats each on the whole line; together
with the table they amount to this: the first word names the command, and what follows it has to
begin with the numbers that the command takes, if no blank is in front of the word.
-/

namespace MallocLab.ReplLines

open MallocLab.Scanf
open MallocLab.Repl
open MallocLab.ReplText

section Plain

/-- So many numbers at the start of a text, if they are there; nothing where one is out of
range. -/
def numbers : Nat → List Char → Option (Option (List (BitVec 32)))
  | 0, _ => some (some [])
  | n + 1, t =>
      match nextNumber fitsInt t with
      | none => none
      | some (none, _) => some none
      | some (some v, rest) => (numbers n rest).map (Option.map (BitVec.ofInt 32 v.value :: ·))

/-- The number behind `-b`. -/
def blockArgument (t : List Char) : Option (Option (List (BitVec 32))) :=
  match skipSpace t with
  | '-' :: 'b' :: rest => numbers 1 rest
  | _ => some none

/-- What a handler makes of the numbers that it finds. -/
def Handler.entryOf : Handler → Option (List (BitVec 32)) → Entry
  | .help, _ => .help
  | .quit, _ => .quit
  | .reset, _ => .command .reset
  | .malloc, some [index, size] => .command (.malloc index.toInt size)
  | .malloc, _ => .usage .malloc
  | .realloc, some [index, size] => .command (.realloc index.toInt size)
  | .realloc, _ => .usage .realloc
  | .free, some [index] => .command (.free index.toInt)
  | .free, _ => .usage .free
  | .print, some [index] => .command (.print (some index.toInt))
  | .print, _ => .command (.print none)

/-- The numbers that a handler looks for behind the name. -/
def Handler.arguments (t : List Char) : Handler → Option (Option (List (BitVec 32)))
  | .malloc => numbers 2 t
  | .realloc => numbers 2 t
  | .free => numbers 1 t
  | .print => blockArgument t
  | _ => some none

/-- A line taken apart in one pass. -/
def plainEntry (line : List Char) : Option Entry :=
  let t := cString line
  if skipSpace t = [] then some .syntaxError
  else
    match cmdTable.find? fun e => firstWord t = e.1 with
    | none => some .noCommand
    | some (_, h) =>
        if skipSpace t = t then (Handler.arguments (afterWord t) h).map (Handler.entryOf h)
        else some (Handler.entryOf h none)

end Plain

section Formats

variable {n : Nat} {ds f g : List Directive} {t w rest : List Char}
  {o o' : Option (Option (List (BitVec 32)))} {line : List Char}

/-- What a format with `n` conversions to numbers gives. -/
inductive Answers (n : Nat) (ds : List Directive) (t : List Char) :
    Option (Option (List (BitVec 32))) → Prop where
  | undefined (hscan : fscanf ds t = none) : Answers n ds t none
  | short {s : Scan} (hscan : fscanf ds t = some s) (hitems : s.items.length < n) :
      Answers n ds t (some none)
  | found {s : Scan} {vs : List (BitVec 32)} (hscan : fscanf ds t = some s)
      (hitems : s.items = vs.map Value.int) (hlen : vs.length = n) :
      Answers n ds t (some (some vs))

/-- `" %d"`, so many times. -/
def numberFormat : Nat → List Directive
  | 0 => []
  | n + 1 => .blank :: Scanf.decimal :: numberFormat n

theorem answers_numbers (n : Nat) (t : List Char) : Answers n (numberFormat n) t (numbers n t) := by
  induction n generalizing t with
  | zero =>
      have hscan : fscanf (numberFormat 0) t = some ⟨[], false, t⟩ := rfl
      exact .found hscan (List.map_nil.symm) rfl
  | succ n ih =>
      have hscan : fscanf (numberFormat (n + 1)) t =
          fscanf (Scanf.decimal :: numberFormat n) (skipSpace t) := fscanf_blank _ t
      rw [numbers, ← nextNumber_skipSpace]
      cases hnumber : nextNumber fitsInt (skipSpace t) with
      | none => exact .undefined (hscan.trans (fscanf_integer_undefined hnumber))
      | some p =>
          obtain ⟨o, rest⟩ := p
          cases o with
          | none =>
              obtain ⟨failure, hmissing⟩ : ∃ failure, fscanf (numberFormat (n + 1)) t =
                  some ⟨[], failure, rest⟩ := hscan ▸ fscanf_integer_missing hnumber
              exact .short hmissing (Nat.succ_pos n)
          | some v =>
              have hrest : fscanf (numberFormat (n + 1)) t = (fscanf (numberFormat n) rest).map
                  (Scan.assign [.int (BitVec.ofInt 32 v.value)]) :=
                hscan.trans (fscanf_integer hnumber)
              have hanswer := ih rest
              dsimp only
              generalize numbers n rest = o at hanswer
              cases hanswer with
              | undefined hnone =>
                  rw [hnone] at hrest
                  exact .undefined hrest
              | short hsome hitems =>
                  rw [hsome] at hrest
                  exact .short hrest (Nat.succ_lt_succ hitems)
              | found hsome hitems hlen =>
                  rw [hsome] at hrest
                  refine .found hrest ?_ (congrArg Nat.succ hlen)
                  exact congrArg (Value.int (BitVec.ofInt 32 v.value) :: ·) hitems

theorem Answers.blank (hanswer : Answers n ds (skipSpace t) o) : Answers n (.blank :: ds) t o := by
  cases hanswer with
  | undefined hscan => exact .undefined ((fscanf_blank ds t).trans hscan)
  | short hscan hitems => exact .short ((fscanf_blank ds t).trans hscan) hitems
  | found hscan hitems hlen => exact .found ((fscanf_blank ds t).trans hscan) hitems hlen

theorem fscanf_literals (w : List Char) (ds : List Directive) (t : List Char) :
    fscanf (literals w ++ ds) (w ++ t) = fscanf ds t := by
  induction w with
  | nil => rfl
  | cons c w ih =>
      have hmatched : (Directive.literal c).convert (c :: (w ++ t)) = .matched [] (w ++ t) :=
        if_pos rfl
      change fscanf (.literal c :: (literals w ++ ds)) (c :: (w ++ t)) = _
      rw [fscanf, hmatched]
      dsimp only
      rw [ih]
      cases fscanf ds t with
      | none => rfl
      | some s => rfl

/-- A format whose name is not at the start of the text assigns nothing. -/
theorem fscanf_literals_mismatch (hw : ¬ w <+: t) (ds : List Directive) :
    ∃ s, fscanf (literals w ++ ds) t = some s ∧ s.items = [] := by
  induction w generalizing t with
  | nil => exact absurd List.nil_prefix hw
  | cons c w ih =>
      cases t with
      | nil => exact ⟨_, rfl, rfl⟩
      | cons e t =>
          rcases Decidable.em (e = c) with rfl | hne
          · have hw' : ¬ w <+: t := fun hbegins => hw (List.cons_prefix_cons.mpr ⟨rfl, hbegins⟩)
            obtain ⟨s, hscan, hitems⟩ := ih hw'
            have hmatched : (Directive.literal e).convert (e :: t) = .matched [] t := if_pos rfl
            refine ⟨Scan.assign [] s, ?_, hitems⟩
            change fscanf (.literal e :: (literals w ++ ds)) (e :: t) = _
            rw [fscanf, hmatched]
            dsimp only
            rw [hscan]
            rfl
          · have hmismatch : (Directive.literal c).convert (e :: t) = .mismatch (e :: t) :=
              if_neg hne
            refine ⟨⟨[], false, e :: t⟩, ?_, rfl⟩
            change fscanf (.literal c :: (literals w ++ ds)) (e :: t) = _
            rw [fscanf, hmismatch]

theorem Answers.literals (hanswer : Answers n ds t o) (w : List Char) :
    Answers n (ReplText.literals w ++ ds) (w ++ t) o := by
  cases hanswer with
  | undefined hscan => exact .undefined ((fscanf_literals w ds t).trans hscan)
  | short hscan hitems => exact .short ((fscanf_literals w ds t).trans hscan) hitems
  | found hscan hitems hlen => exact .found ((fscanf_literals w ds t).trans hscan) hitems hlen

theorem answers_mismatch (hw : ¬ w <+: t) (hn : 0 < n) (ds : List Directive) :
    Answers n (literals w ++ ds) t (some none) := by
  obtain ⟨s, hscan, hitems⟩ := fscanf_literals_mismatch hw ds
  refine .short hscan ?_
  rw [hitems]
  exact hn

theorem answers_blockArgument (t : List Char) :
    Answers 1 (.blank :: .literal '-' :: .literal 'b' :: numberFormat 1) t (blockArgument t) := by
  apply Answers.blank
  rw [blockArgument]
  split
  · rename_i rest hskip
    rw [hskip]
    exact (answers_numbers 1 rest).literals ['-', 'b']
  · rename_i hnone
    refine answers_mismatch (w := ['-', 'b']) ?_ Nat.one_pos _
    rintro ⟨rest, hrest⟩
    exact hnone rest hrest.symm

/-- A text that does not begin with a number gives no numbers. -/
theorem numbers_of_letter {c : Char} (hspace : isSpace c = false) (hdigit : c.isDigit = false)
    (hsign : c ≠ '-' ∧ c ≠ '+') (hn : 0 < n) (t : List Char) : numbers n (c :: t) = some none := by
  have hskip : skipSpace (c :: t) = c :: t := skipSpace_eq_self hspace
  have hsplit : splitSign (c :: t) = (false, c :: t) := by
    rw [splitSign]
    · exact fun _ heq => hsign.1 (List.cons.inj heq).1
    · exact fun _ heq => hsign.2 (List.cons.inj heq).1
  have hnumber : nextNumber fitsInt (c :: t) = some (none, c :: t) := by
    have hscan : scanNumeral (c :: t) = .mismatch (c :: t) := by
      simp [scanNumeral, hskip, hsplit, hdigit]
    rw [nextNumber, hscan]
  cases n with
  | zero => exact absurd hn (lt_irrefl 0)
  | succ n => rw [numbers, hnumber]

/-- The first of two answers that is an answer. -/
def firstAnswer (o o' : Option (Option (List (BitVec 32)))) : Option (Option (List Value)) :=
  if o = some none then o'.map (Option.map (List.map Value.int))
  else o.map (Option.map (List.map Value.int))

theorem firstAnswer_of_none (o' : Option (Option (List (BitVec 32)))) :
    firstAnswer (some none) o' = o'.map (Option.map (List.map Value.int)) :=
  if_pos rfl

/-- Where the other format finds nothing, only this one counts. -/
theorem firstAnswer_none (o : Option (Option (List (BitVec 32)))) :
    firstAnswer o (some none) = o.map (Option.map (List.map Value.int)) := by
  rcases Decidable.em (o = some none) with rfl | hne
  · rfl
  · exact if_neg hne

/-- Two formats, of which the second one counts where the first one fails. -/
theorem scanEither_eq (hf : Answers n f (cString line) o) (hg : Answers n g (cString line) o')
    (hn : 0 < n) : scanEither n f g line = firstAnswer o o' := by
  have hret : ∀ {s : Scan}, s.items.length = n → s.ret = n := by
    intro s hlen
    have hne : ¬ (s.items = [] ∧ s.inputFailure = true) := by
      rintro ⟨hnil, -⟩
      rw [hnil] at hlen
      exact absurd hn (hlen ▸ lt_irrefl 0)
    rw [Scan.ret, if_neg hne, hlen]
  have hshort : ∀ {s : Scan}, s.items.length < n → s.ret ≠ n := by
    intro s hlen heq
    rw [Scan.ret] at heq
    split at heq
    · rw [eof] at heq
      omega
    · omega
  have hlast : (sscanf g line >>= fun s' => pure (if s'.ret = n then some s'.items else none)) =
      o'.map (Option.map (List.map Value.int)) := by
    cases hg with
    | undefined hscan => exact congrArg (· >>= _) hscan
    | short hscan hitems =>
        rw [sscanf, hscan]
        exact congrArg some (if_neg (hshort hitems))
    | found hscan hitems hlen =>
        rw [sscanf, hscan]
        refine congrArg some ((if_pos (hret ?_)).trans (congrArg some hitems))
        rw [hitems, List.length_map, hlen]
  rw [scanEither]
  cases hf with
  | undefined hscan => exact congrArg (· >>= _) hscan
  | short hscan hitems =>
      rw [sscanf, hscan]
      exact (if_neg (hshort hitems)).trans hlast
  | found hscan hitems hlen =>
      rw [sscanf, hscan]
      refine (if_pos (hret ?_)).trans (congrArg (some ∘ some) hitems)
      rw [hitems, List.length_map, hlen]

end Formats

section Names

variable {n : Nat} {c e : Char} {fmt : List Directive} {t w tail : List Char} {line : List Char}
  {args : List Char → Option (Option (List (BitVec 32)))} {h : Handler}

/-- A name at the start of a text is at the start of its first word, and has no blank in front. -/
theorem prefix_firstWord (hw : w.all (fun c => !isSpace c) = true) (hne : w ≠ [])
    (hbegins : w <+: t) : w <+: firstWord t ∧ skipSpace t = t := by
  obtain ⟨rest, rfl⟩ := hbegins
  obtain ⟨c, u, rfl⟩ := List.exists_cons_of_ne_nil hne
  have hall := List.all_eq_true.mp hw
  have hskip : skipSpace (c :: u ++ rest) = c :: u ++ rest := by
    apply skipSpace_eq_self
    simpa using hall c List.mem_cons_self
  refine ⟨?_, hskip⟩
  rw [firstWord, hskip, List.takeWhile_append_of_pos hall]
  exact List.prefix_append _ _

/-- The two formats of a handler, for a line whose first word is one of its names. -/
theorem scanEither_named (hargs : ∀ t, Answers n fmt t (args t))
    (hother : ∀ t, args (e :: tail ++ t) = some none) (hn : 0 < n)
    (hletters : (c :: e :: tail).all (fun x => !isSpace x) = true)
    (hname : firstWord (cString line) = [c] ∨ firstWord (cString line) = c :: e :: tail) :
    scanEither n (literals [c] ++ fmt) (literals (c :: e :: tail) ++ fmt) line =
      if skipSpace (cString line) = cString line then
        (args (afterWord (cString line))).map (Option.map (List.map Value.int))
      else some none := by
  generalize hline : cString line = t at hname
  have hc : [c].all (fun x => !isSpace x) = true := by
    rw [List.all_cons, Bool.and_eq_true] at hletters
    rw [List.all_cons, hletters.1]
    rfl
  rcases Decidable.em (skipSpace t = t) with hskip | hskip
  · have hsplit : firstWord t ++ afterWord t = t := (firstWord_append_afterWord t).trans hskip
    rw [if_pos hskip]
    rcases hname with hname | hname
    · have hno : ¬ c :: e :: tail <+: t := by
        intro hbegins
        have hshort := (prefix_firstWord hletters (List.cons_ne_nil _ _) hbegins).1
        rw [hname] at hshort
        have hlen := hshort.length_le
        simp at hlen
      have hf : Answers n (literals [c] ++ fmt) ([c] ++ afterWord t) (args (afterWord t)) :=
        (hargs (afterWord t)).literals [c]
      have hshape : [c] ++ afterWord t = t := hname ▸ hsplit
      rw [hshape] at hf
      subst hline
      rw [scanEither_eq hf (answers_mismatch hno hn fmt) hn]
      exact firstAnswer_none _
    · have hf : Answers n (literals [c] ++ fmt) ([c] ++ (e :: tail ++ afterWord t)) (some none) :=
        hother (afterWord t) ▸ (hargs (e :: tail ++ afterWord t)).literals [c]
      have hg : Answers n (literals (c :: e :: tail) ++ fmt) (c :: e :: tail ++ afterWord t)
          (args (afterWord t)) :=
        (hargs (afterWord t)).literals (c :: e :: tail)
      have hshape : c :: e :: tail ++ afterWord t = t := hname ▸ hsplit
      have hshape' : [c] ++ (e :: tail ++ afterWord t) = t := hshape
      rw [hshape'] at hf
      rw [hshape] at hg
      subst hline
      rw [scanEither_eq hf hg hn]
      exact firstAnswer_of_none _
  · rw [if_neg hskip]
    have hf : ¬ [c] <+: t := fun hbegins =>
      hskip (prefix_firstWord hc (List.cons_ne_nil _ _) hbegins).2
    have hg : ¬ c :: e :: tail <+: t := fun hbegins =>
      hskip (prefix_firstWord hletters (List.cons_ne_nil _ _) hbegins).2
    subst hline
    rw [scanEither_eq (answers_mismatch hf hn fmt) (answers_mismatch hg hn fmt) hn]
    rfl

theorem names_of_mem (hmem : (w, h) ∈ cmdTable) :
    (h = .malloc → w = "m".toList ∨ w = "malloc".toList) ∧
      (h = .realloc → w = "r".toList ∨ w = "realloc".toList) ∧
      (h = .free → w = "f".toList ∨ w = "free".toList) ∧
      (h = .print → w = "p".toList ∨ w = "print".toList) := by
  simp only [cmdTable, List.mem_cons, Prod.mk.injEq, List.not_mem_nil, or_false] at hmem
  rcases hmem with ⟨rfl, rfl⟩ | ⟨rfl, rfl⟩ | ⟨rfl, rfl⟩ | ⟨rfl, rfl⟩ | ⟨rfl, rfl⟩ | ⟨rfl, rfl⟩ |
    ⟨rfl, rfl⟩ | ⟨rfl, rfl⟩ | ⟨rfl, rfl⟩ | ⟨rfl, rfl⟩ | ⟨rfl, rfl⟩ | ⟨rfl, rfl⟩ | ⟨rfl, rfl⟩ |
    ⟨rfl, rfl⟩
  all_goals simp

theorem ite_bind_eq {p : Prop} [Decidable p] {o : Option (Option (List (BitVec 32)))}
    {next : Option (List Value) → Option Entry} {entry : Option (List (BitVec 32)) → Entry}
    (hnext : ∀ o', next (o'.map (List.map Value.int)) = some (entry o')) :
    ((if p then o.map (Option.map (List.map Value.int)) else some none) >>= next) =
      if p then o.map entry else some (entry none) := by
  rcases Decidable.em p with hp | hp
  · rw [if_pos hp, if_pos hp]
    cases o with
    | none => rfl
    | some o' => exact hnext o'
  · rw [if_neg hp, if_neg hp]
    exact hnext none

/-- A handler makes of a line what it makes of the numbers behind its name. -/
theorem handler_entry_eq (hmem : (firstWord (cString line), h) ∈ cmdTable) :
    h.entry line =
      if skipSpace (cString line) = cString line then
        (Handler.arguments (afterWord (cString line)) h).map (Handler.entryOf h)
      else some (Handler.entryOf h none) := by
  obtain ⟨hmalloc, hrealloc, hfree, hprint⟩ := names_of_mem hmem
  cases h with
  | help => exact (ite_self _).symm
  | quit => exact (ite_self _).symm
  | reset => exact (ite_self _).symm
  | malloc =>
      have hscan := scanEither_named (answers_numbers 2)
        (fun t => numbers_of_letter rfl rfl (by decide) (by decide) ("lloc".toList ++ t))
        (by decide) rfl (hmalloc rfl)
      change (scanEither 2 (literals "m".toList ++ numberFormat 2)
        (literals "malloc".toList ++ numberFormat 2) line >>= _) = _
      refine (congrArg (· >>= _) hscan).trans (ite_bind_eq ?_)
      rintro (_ | _ | ⟨v, _ | ⟨v', _ | ⟨v'', vs⟩⟩⟩)
      all_goals rfl
  | realloc =>
      have hscan := scanEither_named (answers_numbers 2)
        (fun t => numbers_of_letter rfl rfl (by decide) (by decide) ("alloc".toList ++ t))
        (by decide) rfl (hrealloc rfl)
      change (scanEither 2 (literals "r".toList ++ numberFormat 2)
        (literals "realloc".toList ++ numberFormat 2) line >>= _) = _
      refine (congrArg (· >>= _) hscan).trans (ite_bind_eq ?_)
      rintro (_ | _ | ⟨v, _ | ⟨v', _ | ⟨v'', vs⟩⟩⟩)
      all_goals rfl
  | free =>
      have hscan := scanEither_named (answers_numbers 1)
        (fun t => numbers_of_letter rfl rfl (by decide) (by decide) ("ee".toList ++ t))
        (by decide) rfl (hfree rfl)
      change (scanEither 1 (literals "f".toList ++ numberFormat 1)
        (literals "free".toList ++ numberFormat 1) line >>= _) = _
      refine (congrArg (· >>= _) hscan).trans (ite_bind_eq ?_)
      rintro (_ | _ | ⟨v, _ | ⟨v', vs⟩⟩)
      all_goals rfl
  | print =>
      have hscan := scanEither_named answers_blockArgument
        (fun t => by rfl) (by decide) rfl (hprint rfl)
      change (scanEither 1 (literals "p".toList ++ .blank :: .literal '-' :: .literal 'b' ::
        numberFormat 1) (literals "print".toList ++ .blank :: .literal '-' :: .literal 'b' ::
        numberFormat 1) line >>= _) = _
      refine (congrArg (· >>= _) hscan).trans (ite_bind_eq ?_)
      rintro (_ | _ | ⟨v, _ | ⟨v', vs⟩⟩)
      all_goals rfl

end Names

section Input

variable {n : Nat} {t line rest : List Char}

theorem takeLine_append (n : Nat) (t : List Char) : (takeLine n t).1 ++ (takeLine n t).2 = t := by
  induction n generalizing t with
  | zero => rfl
  | succ n ih =>
      cases t with
      | nil => rfl
      | cons c t =>
          rw [takeLine]
          split
          · rfl
          · exact congrArg (c :: ·) (ih t)

theorem length_takeLine_le (n : Nat) (t : List Char) : (takeLine n t).1.length ≤ n := by
  induction n generalizing t with
  | zero => exact le_rfl
  | succ n ih =>
      cases t with
      | nil => exact Nat.zero_le _
      | cons c t =>
          rw [takeLine]
          split
          · exact Nat.succ_le_succ (Nat.zero_le n)
          · exact Nat.succ_le_succ (ih t)

theorem fgets_eq_some (hline : fgets n t = some (line, rest)) :
    t ≠ [] ∧ line = (takeLine (n - 1) t).1 ∧ rest = (takeLine (n - 1) t).2 := by
  rw [fgets] at hline
  split at hline
  · cases hline
  · rename_i hne
    have htaken := Option.some.inj hline
    exact ⟨hne, (congrArg Prod.fst htaken).symm, (congrArg Prod.snd htaken).symm⟩

theorem length_firstWord_le (t : List Char) : (firstWord t).length ≤ t.length :=
  (List.takeWhile_prefix _).length_le.trans (length_skipSpace_le t)

/-- The first word of a line has room in the array that it is read into. -/
theorem length_firstWord_lt (hline : fgets maxLine t = some (line, rest)) :
    (firstWord (cString line)).length < maxLine := by
  obtain ⟨-, rfl, -⟩ := fgets_eq_some hline
  have hword := length_firstWord_le (cString (takeLine (maxLine - 1) t).1)
  have hstring : (cString (takeLine (maxLine - 1) t).1).length ≤ _ :=
    (List.takeWhile_prefix _).length_le
  have htaken := length_takeLine_le (maxLine - 1) t
  have hroom : maxLine - 1 < maxLine := by decide
  omega

end Input

/-- The table of the commands, and the two formats of each handler, take every line that is read
apart as one pass over it does. -/
theorem enter_eq_plainEntry {t line rest : List Char}
    (hline : fgets maxLine t = some (line, rest)) : enter line = plainEntry line := by
  have hroom := length_firstWord_lt hline
  rw [plainEntry]
  rcases Decidable.em (skipSpace (cString line) = []) with hnil | hne
  · rw [if_pos hnil]
    have hscan : sscanf [.string maxLine] line = some ⟨[], true, []⟩ := by
      rw [sscanf, fscanf, Directive.convert, if_pos hnil]
    rw [enter, hscan]
    rfl
  · rw [if_neg hne]
    have hscan : sscanf [.string maxLine] line =
        some ⟨[.str (firstWord (cString line))], false, afterWord (cString line)⟩ := by
      rw [sscanf, fscanf, Directive.convert, if_neg hne, if_pos hroom]
      rfl
    rw [enter, hscan, Option.bind_eq_bind, Option.bind_some]
    cases hfind : cmdTable.find? fun e => firstWord (cString line) = e.1 with
    | none =>
        simp only [hfind]
        rfl
    | some p =>
        obtain ⟨w, h⟩ := p
        have hmem := List.mem_of_find?_eq_some hfind
        have hfound := List.find?_some hfind
        have hname : firstWord (cString line) = w := of_decide_eq_true hfound
        rw [← hname] at hmem
        simp only [hfind]
        exact handler_entry_eq hmem

/-- What follows the numbers does not count, but a blank in front of the name does. -/
theorem enter_eq_plainEntry_sample :
    enter "malloc 3 +40 x\n".toList = some (.command (.malloc 3 40)) ∧
      enter "m 3\n".toList = some (.usage .malloc) ∧
      enter " f 3\n".toList = some (.usage .free) := by
  have hmalloc := enter_eq_plainEntry (t := "malloc 3 +40 x\n".toList) rfl
  have husage := enter_eq_plainEntry (t := "m 3\n".toList) rfl
  have hblank := enter_eq_plainEntry (t := " f 3\n".toList) rfl
  exact ⟨hmalloc.trans rfl, husage.trans rfl, hblank.trans rfl⟩

end MallocLab.ReplLines
