import Mathlib.Data.List.TakeWhile

/-!
Formatted input as ISO C has it: how the conversions `%d`, `%u` and `%s` of `fscanf` take a
text apart, and what they have to do with its words.
-/

namespace MallocLab.Scanf

/-- `isspace` in the C locale. -/
def isSpace (c : Char) : Bool := c == ' ' || (decide (9 ≤ c.toNat) && decide (c.toNat ≤ 13))

def skipSpace (t : List Char) : List Char := t.dropWhile isSpace

/-- A word cannot go on here: a blank follows, or nothing. -/
def atBlank : List Char → Bool
  | [] => true
  | c :: _ => isSpace c

/-- The words of a text, separated by white space. -/
def words : List Char → List (List Char)
  | [] => []
  | c :: t =>
      if isSpace c then words t
      else if atBlank t then [c] :: words t
      else (words t).modifyHead (c :: ·)

/-- The characters that `%s` takes. -/
def firstWord (t : List Char) : List Char := (skipSpace t).takeWhile fun c => !isSpace c

def afterWord (t : List Char) : List Char := (skipSpace t).dropWhile fun c => !isSpace c

section Words

variable {t w rest : List Char} {c : Char}

theorem skipSpace_eq_self (hc : isSpace c = false) : skipSpace (c :: t) = c :: t := by
  rw [skipSpace, List.dropWhile_cons_of_neg (by simp [hc])]

theorem head_skipSpace (ht : skipSpace t = c :: rest) : isSpace c = false := by
  have hhead := List.head?_dropWhile_not isSpace t
  rw [skipSpace] at ht
  rw [ht] at hhead
  exact hhead

theorem skipSpace_skipSpace (t : List Char) : skipSpace (skipSpace t) = skipSpace t := by
  rcases ht : skipSpace t with _ | ⟨c, rest⟩
  · rfl
  · exact skipSpace_eq_self (head_skipSpace ht)

theorem words_skipSpace (t : List Char) : words (skipSpace t) = words t := by
  induction t with
  | nil => rfl
  | cons c t ih =>
      rcases hc : isSpace c with _ | _
      · rw [skipSpace_eq_self hc]
      · rw [skipSpace, List.dropWhile_cons_of_pos hc, words, if_pos hc]
        exact ih

theorem words_append (hne : w ≠ []) (hw : ∀ c ∈ w, isSpace c = false)
    (hrest : atBlank rest = true) : words (w ++ rest) = w :: words rest := by
  induction w with
  | nil => exact absurd rfl hne
  | cons c w ih =>
      obtain ⟨hc, hw⟩ := List.forall_mem_cons.mp hw
      have hnot : ¬ isSpace c = true := by simp [hc]
      rw [List.cons_append, words, if_neg hnot]
      cases w with
      | nil => exact if_pos hrest
      | cons e w =>
          have he : ¬ atBlank (e :: w ++ rest) = true := by
            simp [atBlank, hw e List.mem_cons_self]
          rw [if_neg he, ih (List.cons_ne_nil e w) hw, List.modifyHead_cons]

theorem firstWord_append_afterWord (t : List Char) : firstWord t ++ afterWord t = skipSpace t :=
  List.takeWhile_append_dropWhile

theorem atBlank_afterWord (t : List Char) : atBlank (afterWord t) = true := by
  rcases hrest : afterWord t with _ | ⟨c, rest⟩
  · rfl
  · have hhead := List.head?_dropWhile_not (fun c => !isSpace c) (skipSpace t)
    rw [afterWord] at hrest
    rw [hrest] at hhead
    simpa [atBlank] using hhead

theorem not_isSpace_of_mem_firstWord (hc : c ∈ firstWord t) : isSpace c = false := by
  have hnot := List.mem_takeWhile_imp hc
  simpa using hnot

theorem firstWord_ne_nil (ht : skipSpace t ≠ []) : firstWord t ≠ [] := by
  obtain ⟨c, rest, hcons⟩ := List.exists_cons_of_ne_nil ht
  have hc := head_skipSpace hcons
  simp [firstWord, hcons, hc]

theorem words_nil_of_skipSpace (ht : skipSpace t = []) : words t = [] := by
  rw [← words_skipSpace, ht]
  rfl

/-- `%s` takes the first word. -/
theorem words_cons_of_skipSpace (ht : skipSpace t ≠ []) :
    words t = firstWord t :: words (afterWord t) := by
  rw [← words_skipSpace, ← firstWord_append_afterWord]
  exact words_append (firstWord_ne_nil ht) (fun c hc => not_isSpace_of_mem_firstWord hc)
    (atBlank_afterWord t)

theorem skipSpace_ne_nil_of_words {ws : List (List Char)} (ht : words t = w :: ws) :
    skipSpace t ≠ [] := by
  intro hnil
  rw [words_nil_of_skipSpace hnil] at ht
  cases ht

theorem length_skipSpace_le (t : List Char) : (skipSpace t).length ≤ t.length :=
  List.length_dropWhile_le ..

theorem length_afterWord_lt (ht : skipSpace t ≠ []) : (afterWord t).length < t.length := by
  have hsum := congrArg List.length (firstWord_append_afterWord t)
  have hpos := List.length_pos_iff.mpr (firstWord_ne_nil ht)
  have hle := length_skipSpace_le t
  rw [List.length_append] at hsum
  omega

end Words

/-- A sign in front of a number, if there is one. -/
def splitSign : List Char → Bool × List Char
  | '-' :: t => (true, t)
  | '+' :: t => (false, t)
  | t => (false, t)

def digitsValue (ds : List Char) : Nat := ds.foldl (fun n c => 10 * n + (c.toNat - 48)) 0

def signed (negative : Bool) (n : Nat) : Int := if negative then -n else n

/-- What is found where a number is looked for. -/
inductive Numeral where
  | noInput
  | mismatch (rest : List Char)
  | number (value : Int) (rest : List Char)
  deriving DecidableEq, Repr

/-- The longest prefix that looks like a number, after blanks. -/
def scanNumeral (t : List Char) : Numeral :=
  let s := skipSpace t
  if s = [] then .noInput
  else
    let (negative, u) := splitSign s
    let ds := u.takeWhile Char.isDigit
    if ds = [] then .mismatch u
    else .number (signed negative (digitsValue ds)) (u.dropWhile Char.isDigit)

/-- The value of a word that is a number from its first to its last character. -/
def numeralValue (w : List Char) : Option Int :=
  match scanNumeral w with
  | .number v [] => some v
  | _ => none

/-- The characters before the digits of a number. -/
def IsSign (sign : List Char) (negative : Bool) : Prop :=
  sign = [] ∧ negative = false ∨ sign = ['+'] ∧ negative = false ∨ sign = ['-'] ∧ negative = true

/-- The word is a number: a sign, then digits. -/
def Spells (w : List Char) (v : Int) : Prop :=
  ∃ sign negative ds, IsSign sign negative ∧ ds ≠ [] ∧ (∀ c ∈ ds, c.isDigit = true) ∧
    w = sign ++ ds ∧ v = signed negative (digitsValue ds)

section Numerals

variable {t w rest ds : List Char} {v : Int} {sign : List Char} {negative : Bool} {c : Char}
  {ws : List (List Char)}

theorem isSpace_of_isDigit (hc : c.isDigit = true) : isSpace c = false := by
  have hrange := Char.isDigit_iff_toNat.mp hc
  have hzero : '0'.toNat = 48 := rfl
  rw [hzero] at hrange
  have hblank : c ≠ ' ' := by
    rintro rfl
    exact absurd hc (by decide)
  simp only [isSpace, Bool.or_eq_false_iff, beq_eq_false_iff_ne, Bool.and_eq_false_iff,
    decide_eq_false_iff_not]
  exact ⟨hblank, Or.inr (by omega)⟩

theorem isDigit_of_isSpace (hc : isSpace c = true) : c.isDigit = false := by
  rcases hdigit : c.isDigit with _ | _
  · rfl
  · rw [isSpace_of_isDigit hdigit] at hc
    cases hc

theorem exists_splitSign (t : List Char) :
    ∃ sign, IsSign sign (splitSign t).1 ∧ t = sign ++ (splitSign t).2 := by
  unfold splitSign
  split
  · exact ⟨['-'], Or.inr (Or.inr ⟨rfl, rfl⟩), rfl⟩
  · exact ⟨['+'], Or.inr (Or.inl ⟨rfl, rfl⟩), rfl⟩
  · exact ⟨[], Or.inl ⟨rfl, rfl⟩, rfl⟩

theorem splitSign_append (hsign : IsSign sign negative) (hc : c.isDigit = true) :
    splitSign (sign ++ c :: t) = (negative, c :: t) := by
  rcases hsign with ⟨rfl, rfl⟩ | ⟨rfl, rfl⟩ | ⟨rfl, rfl⟩
  · rw [List.nil_append, splitSign]
    · intro u hcons
      rw [(List.cons.inj hcons).1] at hc
      exact absurd hc (by decide)
    · intro u hcons
      rw [(List.cons.inj hcons).1] at hc
      exact absurd hc (by decide)
  · rfl
  · rfl

/-- What follows a number does not go on with a digit. -/
def AtNonDigit (rest : List Char) : Prop := ∀ c ∈ rest.head?, c.isDigit = false

theorem atNonDigit_of_atBlank (hrest : atBlank rest = true) : AtNonDigit rest := by
  intro c hc
  cases rest with
  | nil => cases hc
  | cons e rest =>
      cases hc
      exact isDigit_of_isSpace hrest

theorem takeWhile_digits (hds : ∀ c ∈ ds, c.isDigit = true) (hrest : AtNonDigit rest) :
    (ds ++ rest).takeWhile Char.isDigit = ds ∧ (ds ++ rest).dropWhile Char.isDigit = rest := by
  rw [List.takeWhile_append_of_pos hds, List.dropWhile_append_of_pos hds]
  cases rest with
  | nil => exact ⟨List.append_nil ds, rfl⟩
  | cons c rest =>
      have hc : ¬ c.isDigit = true := by simp [hrest c rfl]
      rw [List.takeWhile_cons_of_neg hc, List.dropWhile_cons_of_neg hc]
      exact ⟨List.append_nil ds, rfl⟩

theorem Spells.ne_nil (hw : Spells w v) : w ≠ [] := by
  obtain ⟨sign, negative, ds, -, hne, -, rfl, -⟩ := hw
  simp [hne]

theorem Spells.not_isSpace (hw : Spells w v) : ∀ c ∈ w, isSpace c = false := by
  obtain ⟨sign, negative, ds, hsign, -, hds, rfl, -⟩ := hw
  intro c hc
  rcases List.mem_append.mp hc with hc | hc
  · rcases hsign with ⟨rfl, -⟩ | ⟨rfl, -⟩ | ⟨rfl, -⟩
    · cases hc
    · rw [List.mem_singleton.mp hc]
      decide
    · rw [List.mem_singleton.mp hc]
      decide
  · exact isSpace_of_isDigit (hds c hc)

theorem skipSpace_append (hw : Spells w v) : skipSpace (w ++ rest) = w ++ rest := by
  obtain ⟨c, u, rfl⟩ := List.exists_cons_of_ne_nil hw.ne_nil
  exact skipSpace_eq_self (hw.not_isSpace c List.mem_cons_self)

theorem scanNumeral_of_spells (hw : Spells w v) (ht : skipSpace t = w ++ rest)
    (hrest : AtNonDigit rest) : scanNumeral t = .number v rest := by
  have hne : skipSpace t ≠ [] := by simp [ht, hw.ne_nil]
  obtain ⟨sign, negative, ds, hsign, hnil, hds, rfl, rfl⟩ := hw
  have htaken := takeWhile_digits hds hrest
  obtain ⟨c, ds, rfl⟩ := List.exists_cons_of_ne_nil hnil
  have hsplit : splitSign (skipSpace t) = (negative, c :: ds ++ rest) := by
    rw [ht, List.append_assoc]
    exact splitSign_append hsign (hds c List.mem_cons_self)
  simp only [scanNumeral, if_neg hne, hsplit, htaken.1, htaken.2, if_neg hnil]

theorem spells_of_scanNumeral (ht : scanNumeral t = .number v rest) :
    ∃ w, Spells w v ∧ skipSpace t = w ++ rest := by
  simp only [scanNumeral] at ht
  split at ht
  · cases ht
  · split at ht
    · cases ht
    · rename_i hne
      obtain ⟨sign, hsign, hsplit⟩ := exists_splitSign (skipSpace t)
      obtain ⟨rfl, rfl⟩ := Numeral.number.inj ht
      refine ⟨_, ⟨sign, _, _, hsign, hne, ?_, rfl, rfl⟩, ?_⟩
      · intro c hc
        exact List.mem_takeWhile_imp hc
      · rw [List.append_assoc, List.takeWhile_append_dropWhile]
        exact hsplit

theorem numeralValue_eq_some (hw : Spells w v) : numeralValue w = some v := by
  have hscan : scanNumeral w = .number v [] := by
    apply scanNumeral_of_spells hw _ (atNonDigit_of_atBlank rfl)
    have hself : skipSpace (w ++ []) = w ++ [] := skipSpace_append hw
    rwa [List.append_nil] at hself ⊢
  rw [numeralValue, hscan]

theorem spells_of_numeralValue (hw : ∀ c ∈ w, isSpace c = false) (hv : numeralValue w = some v) :
    Spells w v := by
  unfold numeralValue at hv
  split at hv
  · rename_i u hscan
    cases hv
    obtain ⟨w', hspells, hskip⟩ := spells_of_scanNumeral hscan
    have hself : skipSpace w = w := by
      cases w with
      | nil => rfl
      | cons c w => exact skipSpace_eq_self (hw c List.mem_cons_self)
    rw [hself, List.append_nil] at hskip
    rwa [hskip]
  · cases hv

/-- A number that ends where its word ends is a word of the text. -/
theorem words_of_scanNumeral (ht : scanNumeral t = .number v rest) (hrest : atBlank rest = true) :
    ∃ w, words t = w :: words rest ∧ numeralValue w = some v := by
  obtain ⟨w, hw, hskip⟩ := spells_of_scanNumeral ht
  have hwords := words_append hw.ne_nil hw.not_isSpace hrest
  rw [← hskip, words_skipSpace] at hwords
  exact ⟨w, hwords, numeralValue_eq_some hw⟩

/-- A word that is a number is what the conversion takes. -/
theorem scanNumeral_of_words (ht : words t = w :: ws) (hv : numeralValue w = some v) :
    ∃ rest, scanNumeral t = .number v rest ∧ atBlank rest = true ∧ words rest = ws := by
  have hne := skipSpace_ne_nil_of_words ht
  rw [words_cons_of_skipSpace hne] at ht
  obtain ⟨rfl, hws⟩ := List.cons.inj ht
  have hw := spells_of_numeralValue (fun c hc => not_isSpace_of_mem_firstWord hc) hv
  have hblank := atBlank_afterWord t
  exact ⟨afterWord t, scanNumeral_of_spells hw (firstWord_append_afterWord t).symm
    (atNonDigit_of_atBlank hblank), hblank, hws⟩

end Numerals

/-- A number that a conversion takes; `closed` says that its word ends with it. -/
structure Number where
  value : Int
  closed : Bool
  deriving DecidableEq, Repr

/-- What a conversion to a number takes, and what it leaves; nothing if the number is out
of range, for then the behaviour is undefined. -/
def nextNumber (inRange : Int → Bool) (t : List Char) : Option (Option Number × List Char) :=
  match scanNumeral t with
  | .noInput => some (none, [])
  | .mismatch rest => some (none, rest)
  | .number v rest => if inRange v then some (some ⟨v, atBlank rest⟩, rest) else none

/-- The directives of a format.  `string capacity` is `%s` into an array of so many
characters, `blank` is white space. -/
inductive Directive where
  | integer (inRange : Int → Bool)
  | string (capacity : Nat)
  | blank
  | literal (c : Char)

def fitsInt (v : Int) : Bool := decide (-2147483648 ≤ v) && decide (v ≤ 2147483647)

def fitsUnsigned (v : Int) : Bool := decide (v.natAbs ≤ 4294967295)

/-- The conversion `%d`. -/
def decimal : Directive := .integer fitsInt

/-- The conversion `%u`, which takes a sign as well. -/
def unsigned : Directive := .integer fitsUnsigned

inductive Value where
  | int (v : BitVec 32)
  | str (w : List Char)
  deriving DecidableEq, Repr

inductive Conversion where
  | undefined
  | noInput
  | mismatch (rest : List Char)
  | matched (values : List Value) (rest : List Char)
  deriving DecidableEq, Repr

def Directive.convert : Directive → List Char → Conversion
  | .integer inRange, t =>
      match scanNumeral t with
      | .noInput => .noInput
      | .mismatch rest => .mismatch rest
      | .number v rest =>
          if inRange v then .matched [.int (BitVec.ofInt 32 v)] rest else .undefined
  | .string capacity, t =>
      if skipSpace t = [] then .noInput
      -- the array holds the terminating null character as well
      else if (firstWord t).length < capacity then .matched [.str (firstWord t)] (afterWord t)
      else .undefined
  | .blank, t => .matched [] (skipSpace t)
  | .literal _, [] => .noInput
  | .literal c, e :: t => if e = c then .matched [] t else .mismatch (e :: t)

/-- What `fscanf` assigns, and whether it stopped for want of input. -/
structure Scan where
  items : List Value
  inputFailure : Bool
  rest : List Char
  deriving DecidableEq, Repr

/-- `EOF` -/
def eof : Int := -1

def Scan.ret (s : Scan) : Int := if s.items = [] ∧ s.inputFailure = true then eof else s.items.length

def Scan.assign (values : List Value) (s : Scan) : Scan := { s with items := values ++ s.items }

/-- Nothing where the behaviour is undefined. -/
def fscanf : List Directive → List Char → Option Scan
  | [], t => some ⟨[], false, t⟩
  | d :: ds, t =>
      match d.convert t with
      | .undefined => none
      | .noInput => some ⟨[], true, []⟩
      | .mismatch rest => some ⟨[], false, rest⟩
      | .matched values rest => (fscanf ds rest).map (Scan.assign values)

section Directives

variable {t w rest : List Char} {v : Int} {n : Number} {inRange : Int → Bool}
  {ds : List Directive} {ws : List (List Char)}

theorem scanNumeral_skipSpace (t : List Char) : scanNumeral (skipSpace t) = scanNumeral t := by
  simp only [scanNumeral, skipSpace_skipSpace]

theorem nextNumber_skipSpace (t : List Char) :
    nextNumber inRange (skipSpace t) = nextNumber inRange t := by
  simp only [nextNumber, scanNumeral_skipSpace]

theorem fscanf_blank (ds : List Directive) (t : List Char) :
    fscanf (.blank :: ds) t = fscanf ds (skipSpace t) := by
  change (fscanf ds (skipSpace t)).map (Scan.assign []) = _
  cases fscanf ds (skipSpace t) with
  | none => rfl
  | some s => rfl

theorem fscanf_integer_undefined (ht : nextNumber inRange t = none) :
    fscanf (.integer inRange :: ds) t = none := by
  rcases hscan : scanNumeral t with _ | rest | ⟨v, rest⟩
  · simp [nextNumber, hscan] at ht
  · simp [nextNumber, hscan] at ht
  · simp only [nextNumber, hscan] at ht
    simp only [fscanf, Directive.convert, hscan]
    split at ht
    · cases ht
    · rename_i hrange
      simp only [if_neg hrange]

theorem fscanf_integer_missing (ht : nextNumber inRange t = some (none, rest)) :
    ∃ failure, fscanf (.integer inRange :: ds) t = some ⟨[], failure, rest⟩ := by
  rcases hscan : scanNumeral t with _ | u | ⟨v, u⟩
  · simp only [nextNumber, hscan, Option.some.injEq, Prod.mk.injEq, true_and] at ht
    subst ht
    exact ⟨true, by simp only [fscanf, Directive.convert, hscan]⟩
  · simp only [nextNumber, hscan, Option.some.injEq, Prod.mk.injEq, true_and] at ht
    subst ht
    exact ⟨false, by simp only [fscanf, Directive.convert, hscan]⟩
  · simp only [nextNumber, hscan] at ht
    split at ht
    · cases ht
    · cases ht

theorem scanNumeral_of_nextNumber (ht : nextNumber inRange t = some (some n, rest)) :
    scanNumeral t = .number n.value rest ∧ n.closed = atBlank rest ∧ inRange n.value = true := by
  rcases hscan : scanNumeral t with _ | u | ⟨v, u⟩
  · simp [nextNumber, hscan] at ht
  · simp [nextNumber, hscan] at ht
  · simp only [nextNumber, hscan] at ht
    split at ht
    · rename_i hrange
      cases ht
      exact ⟨rfl, rfl, hrange⟩
    · cases ht

theorem fscanf_integer (ht : nextNumber inRange t = some (some n, rest)) :
    fscanf (.integer inRange :: ds) t =
      (fscanf ds rest).map (Scan.assign [.int (BitVec.ofInt 32 n.value)]) := by
  obtain ⟨hscan, -, hrange⟩ := scanNumeral_of_nextNumber ht
  simp only [fscanf, Directive.convert, hscan, if_pos hrange]

/-- A number that fills its word. -/
theorem words_of_nextNumber (ht : nextNumber inRange t = some (some ⟨v, true⟩, rest)) :
    ∃ w, words t = w :: words rest ∧ numeralValue w = some v := by
  obtain ⟨hscan, hclosed, -⟩ := scanNumeral_of_nextNumber ht
  exact words_of_scanNumeral hscan hclosed.symm

/-- A word that is a number is taken whole. -/
theorem nextNumber_of_words (inRange : Int → Bool) (ht : words t = w :: ws) (hv : numeralValue w = some v) :
    ∃ rest, words rest = ws ∧ atBlank rest = true ∧
      nextNumber inRange t = if inRange v then some (some ⟨v, true⟩, rest) else none := by
  obtain ⟨rest, hscan, hblank, hws⟩ := scanNumeral_of_words ht hv
  exact ⟨rest, hws, hblank, by simp only [nextNumber, hscan, hblank]⟩

theorem length_scanNumeral_le (ht : scanNumeral t = .number v rest) : rest.length ≤ t.length := by
  obtain ⟨w, -, hskip⟩ := spells_of_scanNumeral ht
  have hsum := congrArg List.length hskip
  have hle := length_skipSpace_le t
  rw [List.length_append] at hsum
  omega

theorem length_mismatch_le (ht : scanNumeral t = .mismatch rest) : rest.length ≤ t.length := by
  simp only [scanNumeral] at ht
  split at ht
  · cases ht
  · split at ht
    · obtain ⟨sign, -, hsplit⟩ := exists_splitSign (skipSpace t)
      have hsum := congrArg List.length hsplit
      have hle := length_skipSpace_le t
      cases ht
      rw [List.length_append] at hsum
      omega
    · cases ht

theorem length_nextNumber_le {o : Option Number} (ht : nextNumber inRange t = some (o, rest)) :
    rest.length ≤ t.length := by
  rcases hscan : scanNumeral t with _ | u | ⟨v, u⟩
  · simp only [nextNumber, hscan, Option.some.injEq, Prod.mk.injEq] at ht
    simp [← ht.2]
  · simp only [nextNumber, hscan, Option.some.injEq, Prod.mk.injEq] at ht
    rw [← ht.2]
    exact length_mismatch_le hscan
  · simp only [nextNumber, hscan] at ht
    split at ht
    · cases ht
      exact length_scanNumeral_le hscan
    · cases ht

end Directives

end MallocLab.Scanf
