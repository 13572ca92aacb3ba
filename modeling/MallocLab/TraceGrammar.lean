import MallocLab.TraceReading

/-!
The trace file format: which texts are a header and complete requests, and which entries are
taken from such a text.
-/

namespace MallocLab.TraceGrammar

open MallocLab.Scanf
open MallocLab.ReadTrace
open MallocLab.TraceText
open MallocLab.TraceReading

/-- A request line of a trace file. -/
inductive Line where
  | alloc (id bytes : Nat)
  | realloc (id bytes : Nat)
  | free (id : Nat)
  deriving DecidableEq, Repr

def Line.id : Line → Nat
  | .alloc id _ => id
  | .realloc id _ => id
  | .free id => id

def Line.bytes : Line → Nat
  | .alloc _ bytes => bytes
  | .realloc _ bytes => bytes
  | .free _ => 0

/-- The line allocates or reallocates its id. -/
def Line.tracked : Line → Bool
  | .free _ => false
  | _ => true

/-- The words are complete request lines: `a id bytes`, `r id bytes` and `f id`. -/
inductive SpellLines : List (List Char) → List Line → Prop
  | nil : SpellLines [] []
  | alloc {wid wbytes : List Char} {id bytes : Nat} {ws : List (List Char)} {ls : List Line}
      (hid : numeralValue wid = some (id : Int)) (hbytes : numeralValue wbytes = some (bytes : Int))
      (hrest : SpellLines ws ls) :
      SpellLines (['a'] :: wid :: wbytes :: ws) (.alloc id bytes :: ls)
  | realloc {wid wbytes : List Char} {id bytes : Nat} {ws : List (List Char)} {ls : List Line}
      (hid : numeralValue wid = some (id : Int)) (hbytes : numeralValue wbytes = some (bytes : Int))
      (hrest : SpellLines ws ls) :
      SpellLines (['r'] :: wid :: wbytes :: ws) (.realloc id bytes :: ls)
  | free {wid : List Char} {id : Nat} {ws : List (List Char)} {ls : List Line}
      (hid : numeralValue wid = some (id : Int)) (hrest : SpellLines ws ls) :
      SpellLines (['f'] :: wid :: ws) (.free id :: ls)

/-- Four words are the numbers of the header. -/
def SpellHeader (w₁ w₂ w₃ w₄ : List Char) (h : Header Int) : Prop :=
  numeralValue w₁ = some h.suggHeapsize ∧ numeralValue w₂ = some h.numIds ∧
    numeralValue w₃ = some h.numOps ∧ numeralValue w₄ = some h.weight

/-- The text is a trace file with this header and these lines. -/
def Formatted (t : List Char) (h : Header Int) (ls : List Line) : Prop :=
  ∃ w₁ w₂ w₃ w₄ ws, words t = w₁ :: w₂ :: w₃ :: w₄ :: ws ∧ SpellHeader w₁ w₂ w₃ w₄ h ∧
    SpellLines ws ls ∧ h.numOps = ls.length

def mapHeader {α β : Type} (f : α → β) (h : Header α) : Header β :=
  ⟨f h.suggHeapsize, f h.numIds, f h.numOps, f h.weight⟩

/-- A number that is there, and fills its word. -/
def whole (v : Int) : Option Number := some ⟨v, true⟩

/-- What is taken for a complete line. -/
def Line.entry : Line → Entry
  | .alloc id bytes => ⟨['a'], some ⟨id, true⟩, some ⟨bytes, true⟩⟩
  | .realloc id bytes => ⟨['r'], some ⟨id, true⟩, some ⟨bytes, true⟩⟩
  | .free id => ⟨['f'], some ⟨id, true⟩, none⟩

/-- The numbers of the line fit `unsigned`. -/
def Line.fits : Line → Bool
  | .alloc id bytes => fitsUnsigned id && fitsUnsigned bytes
  | .realloc id bytes => fitsUnsigned id && fitsUnsigned bytes
  | .free id => fitsUnsigned id

section Lines

variable {t rest w wid wbytes : List Char} {ws : List (List Char)} {id bytes : Nat} {l : Line}
  {ls : List Line} {n : Nat} {c : Char}

theorem skipLetter_of_atBlank (hc : isSpace c = false) (ht : atBlank t = true) :
    skipLetter c t = t := by
  cases t with
  | nil => rfl
  | cons e t =>
      have hne : e ≠ c := by
        rintro rfl
        rw [atBlank, hc] at ht
        cases ht
      exact if_neg hne

theorem nextPair_of_words (ht : words t = wid :: wbytes :: ws)
    (hid : numeralValue wid = some (id : Int)) (hbytes : numeralValue wbytes = some (bytes : Int)) :
    ∃ rest, words rest = ws ∧ nextPair t =
      if fitsUnsigned id && fitsUnsigned bytes then
        some (some ⟨id, true⟩, some ⟨bytes, true⟩, rest)
      else none := by
  obtain ⟨u, hu, -, hfirst⟩ := nextNumber_of_words fitsUnsigned ht hid
  obtain ⟨rest, hrest, -, hsecond⟩ := nextNumber_of_words fitsUnsigned hu hbytes
  refine ⟨rest, hrest, ?_⟩
  rcases hfits : fitsUnsigned id with _ | _
  · simp [nextPair, hfirst, hfits]
  · rcases hfits' : fitsUnsigned bytes with _ | _
    · simp [nextPair, hfirst, hsecond, hfits, hfits']
    · simp [nextPair, hfirst, hsecond, hfits, hfits']

theorem nextId_of_words (ht : words t = wid :: ws) (hid : numeralValue wid = some (id : Int)) :
    ∃ rest, words rest = ws ∧ nextId t =
      if fitsUnsigned id then some (some ⟨id, true⟩, none, rest) else none := by
  obtain ⟨rest, hrest, hblank, hnumber⟩ := nextNumber_of_words fitsUnsigned ht hid
  refine ⟨rest, hrest, ?_⟩
  rcases hfits : fitsUnsigned id with _ | _
  · simp [nextId, hnumber, hfits]
  · simp [nextId, hnumber, hfits, skipLetter_of_atBlank (c := 'd') rfl hblank]

theorem nextEntry_of_nil (ht : words t = []) : nextEntry t = .error .eof := by
  have hnil : skipSpace t = [] := by
    rcases Decidable.em (skipSpace t = []) with hnil | hne
    · exact hnil
    · rw [words_cons_of_skipSpace hne] at ht
      cases ht
  rw [nextEntry, if_pos hnil]

theorem words_of_nextEntry_eof (ht : nextEntry t = .error .eof) : words t = [] := by
  have hentry : ∀ w o, entryOf w o ≠ .error .eof := by
    intro w o ho
    cases (entryOf_error ho).2
  unfold nextEntry at ht
  split at ht
  · rename_i hnil
    exact words_nil_of_skipSpace hnil
  · split at ht
    · cases ht
    · unfold entryAfter at ht
      split at ht
      · exact absurd ht (hentry _ _)
      · exact absurd ht (hentry _ _)
      · exact absurd ht (hentry _ _)
      · cases ht

/-- An entry begins with a letter. -/
theorem nextEntry_of_letter (ht : words t = [c] :: ws) :
    words (afterWord t) = ws ∧ nextEntry t = entryAfter [c] (afterWord t) := by
  have hne := skipSpace_ne_nil_of_words ht
  rw [words_cons_of_skipSpace hne] at ht
  obtain ⟨hword, hafter⟩ := List.cons.inj ht
  have hlen : ¬ maxLine ≤ (firstWord t).length := by
    rw [hword, List.length_singleton]
    decide
  exact ⟨hafter, by rw [nextEntry, if_neg hne, if_neg hlen, hword]⟩

/-- A complete line is taken whole, unless a number of it is out of range. -/
theorem nextEntry_of_spellLines (hs : SpellLines (words t) (l :: ls)) :
    ∃ rest, SpellLines (words rest) ls ∧
      nextEntry t = if l.fits then .ok (l.entry, rest) else .error .undefined := by
  generalize hws : words t = ws at hs
  cases hs with
  | alloc hid hbytes hrest =>
      obtain ⟨hafter, hnext⟩ := nextEntry_of_letter hws
      obtain ⟨rest, hwords, hpair⟩ := nextPair_of_words hafter hid hbytes
      rw [← hwords] at hrest
      refine ⟨rest, hrest, ?_⟩
      rw [hnext, Line.fits]
      simp only [entryAfter, List.headD_cons, hpair]
      split
      · rfl
      · rfl
  | realloc hid hbytes hrest =>
      obtain ⟨hafter, hnext⟩ := nextEntry_of_letter hws
      obtain ⟨rest, hwords, hpair⟩ := nextPair_of_words hafter hid hbytes
      rw [← hwords] at hrest
      refine ⟨rest, hrest, ?_⟩
      rw [hnext, Line.fits]
      simp only [entryAfter, List.headD_cons, hpair]
      split
      · rfl
      · rfl
  | free hid hrest =>
      obtain ⟨hafter, hnext⟩ := nextEntry_of_letter hws
      obtain ⟨rest, hwords, hnumber⟩ := nextId_of_words hafter hid
      rw [← hwords] at hrest
      refine ⟨rest, hrest, ?_⟩
      rw [hnext, Line.fits]
      simp only [entryAfter, List.headD_cons, hnumber]
      split
      · rfl
      · rfl

/-- The entries of complete lines, or undefined behaviour where a number is out of range. -/
theorem entriesFrom_of_spellLines (ht : t.length < n) (hs : SpellLines (words t) ls) :
    if ls.all Line.fits then entriesFrom n t = (ls.map Line.entry, .eof)
    else (entriesFrom n t).2 = .undefined := by
  induction n generalizing t ls with
  | zero => omega
  | succ n ih =>
      cases ls with
      | nil =>
          generalize hws : words t = ws at hs
          cases hs
          exact entriesFrom_of_error (nextEntry_of_nil hws)
      | cons l ls =>
          obtain ⟨rest, hrest, hnext⟩ := nextEntry_of_spellLines hs
          rcases hl : l.fits with _ | _
          · rw [hl] at hnext
            simp only [List.all_cons, hl, Bool.false_and, Bool.false_eq_true, if_false]
            rw [entriesFrom_of_error hnext]
          · rw [hl] at hnext
            have hlt := length_nextEntry_lt hnext
            have htail := ih (by omega) hrest
            simp only [List.all_cons, hl, Bool.true_and, entriesFrom_of_ok hnext]
            split at htail
            · rename_i hfits
              rw [if_pos hfits, htail]
              rfl
            · rename_i hfits
              rw [if_neg hfits, htail]

/-- Numbers that end with their words are words of the text. -/
theorem words_of_nextPair (ht : nextPair t = some (some ⟨id, true⟩, some ⟨bytes, true⟩, rest)) :
    ∃ wid wbytes, words t = wid :: wbytes :: words rest ∧
      numeralValue wid = some (id : Int) ∧ numeralValue wbytes = some (bytes : Int) := by
  rcases hid : nextNumber fitsUnsigned t with _ | ⟨_ | m, u⟩
  · simp [nextPair, hid] at ht
  · simp [nextPair, hid] at ht
  · simp only [nextPair, hid, Option.map_eq_some_iff, Prod.mk.injEq, Option.some.injEq] at ht
    obtain ⟨⟨o, v⟩, hbytes, rfl, rfl, rfl⟩ := ht
    obtain ⟨wid, hwid, hvalue⟩ := words_of_nextNumber hid
    obtain ⟨wbytes, hwbytes, hvalue'⟩ := words_of_nextNumber hbytes
    exact ⟨wid, wbytes, by rw [hwid, hwbytes], hvalue, hvalue'⟩

theorem words_of_nextId {o : Option Number} (ht : nextId t = some (some ⟨id, true⟩, o, rest)) :
    ∃ wid, words t = wid :: words rest ∧ numeralValue wid = some (id : Int) := by
  rcases hid : nextNumber fitsUnsigned t with _ | ⟨_ | m, u⟩
  · simp [nextId, hid] at ht
  · simp [nextId, hid] at ht
  · simp only [nextId, hid, Prod.mk.injEq, Option.some.injEq] at ht
    obtain ⟨rfl, -, rfl⟩ := ht
    obtain ⟨wid, hwid, hvalue⟩ := words_of_nextNumber hid
    have hblank := (scanNumeral_of_nextNumber hid).2.1
    rw [skipLetter_of_atBlank rfl hblank.symm]
    exact ⟨wid, hwid, hvalue⟩

theorem spellLines_cons (hnext : nextEntry t = .ok (l.entry, rest))
    (hs : SpellLines (words rest) ls) : SpellLines (words t) (l :: ls) := by
  obtain ⟨hne, -, hword, hcases⟩ := nextEntry_ok hnext
  rw [words_cons_of_skipSpace hne, ← hword]
  rw [← hword] at hcases
  cases l with
  | alloc id bytes =>
      rcases hcases with ⟨-, hpair⟩ | ⟨hletter, -⟩
      · obtain ⟨wid, wbytes, hwords, hid, hbytes⟩ := words_of_nextPair hpair
        rw [hwords]
        exact SpellLines.alloc hid hbytes hs
      · cases hletter
  | realloc id bytes =>
      rcases hcases with ⟨-, hpair⟩ | ⟨hletter, -⟩
      · obtain ⟨wid, wbytes, hwords, hid, hbytes⟩ := words_of_nextPair hpair
        rw [hwords]
        exact SpellLines.realloc hid hbytes hs
      · cases hletter
  | free id =>
      rcases hcases with ⟨hletter, -⟩ | ⟨-, hnumber⟩
      · rcases hletter with hletter | hletter
        · cases hletter
        · cases hletter
      · obtain ⟨wid, hwords, hid⟩ := words_of_nextId hnumber
        rw [hwords]
        exact SpellLines.free hid hs

/-- A text that is cut into complete lines is spelt by them. -/
theorem spellLines_of_entriesFrom (ht : t.length < n)
    (hes : entriesFrom n t = (ls.map Line.entry, .eof)) : SpellLines (words t) ls := by
  induction n generalizing t ls with
  | zero => omega
  | succ n ih =>
      rcases hnext : nextEntry t with stop | ⟨e, rest⟩
      · rw [entriesFrom_of_error hnext, Prod.mk.injEq] at hes
        obtain ⟨hnil, rfl⟩ := hes
        rw [List.map_eq_nil_iff.mp hnil.symm, words_of_nextEntry_eof hnext]
        exact SpellLines.nil
      · rw [entriesFrom_of_ok hnext, Prod.mk.injEq] at hes
        obtain ⟨hcons, heof⟩ := hes
        obtain ⟨l, ls, rfl, rfl, htail⟩ := List.map_eq_cons_iff.mp hcons.symm
        have hlt := length_nextEntry_lt hnext
        exact spellLines_cons hnext (ih (by omega) (Prod.ext htail.symm heof))

end Lines

section Headers

variable {t rest w w₁ w₂ w₃ w₄ : List Char} {ws : List (List Char)} {h : Header Int}
  {h' : Header (Option Number)} {v : Int} {o : Option Number}

/-- A word that is a number is taken whole, if anything is. -/
theorem nextNumber_eq_whole (ht : words t = w :: ws) (hw : numeralValue w = some v)
    (hnext : nextNumber fitsInt t = some (o, rest)) : o = whole v ∧ words rest = ws := by
  obtain ⟨u, hu, -, hnumber⟩ := nextNumber_of_words fitsInt ht hw
  rw [hnext] at hnumber
  split at hnumber
  · cases hnumber
    exact ⟨rfl, hu⟩
  · cases hnumber

theorem headerOf_eq (ht : words t = w₁ :: w₂ :: w₃ :: w₄ :: ws) (hh : SpellHeader w₁ w₂ w₃ w₄ h)
    (hread : headerOf t = some (h', rest)) : h' = mapHeader whole h ∧ words rest = ws := by
  obtain ⟨hw₁, hw₂, hw₃, hw₄⟩ := hh
  simp only [headerOf, Option.bind_eq_bind, Option.bind_eq_some_iff, Option.pure_def,
    Option.some.injEq, Prod.mk.injEq] at hread
  obtain ⟨⟨o₁, t₁⟩, h₁, ⟨o₂, t₂⟩, h₂, ⟨o₃, t₃⟩, h₃, ⟨o₄, t₄⟩, h₄, rfl, rfl⟩ := hread
  obtain ⟨rfl, ht₁⟩ := nextNumber_eq_whole ht hw₁ h₁
  obtain ⟨rfl, ht₂⟩ := nextNumber_eq_whole ht₁ hw₂ h₂
  obtain ⟨rfl, ht₃⟩ := nextNumber_eq_whole ht₂ hw₃ h₃
  obtain ⟨rfl, ht₄⟩ := nextNumber_eq_whole ht₃ hw₄ h₄
  exact ⟨rfl, ht₄⟩

theorem spellHeader_of_headerOf (hread : headerOf t = some (mapHeader whole h, rest)) :
    ∃ w₁ w₂ w₃ w₄, words t = w₁ :: w₂ :: w₃ :: w₄ :: words rest ∧ SpellHeader w₁ w₂ w₃ w₄ h := by
  simp only [headerOf, Option.bind_eq_bind, Option.bind_eq_some_iff, Option.pure_def,
    Option.some.injEq, Prod.mk.injEq, mapHeader, Header.mk.injEq] at hread
  obtain ⟨⟨o₁, t₁⟩, h₁, ⟨o₂, t₂⟩, h₂, ⟨o₃, t₃⟩, h₃, ⟨o₄, t₄⟩, h₄, ⟨rfl, rfl, rfl, rfl⟩, rfl⟩ :=
    hread
  obtain ⟨w₁, ht₁, hw₁⟩ := words_of_nextNumber h₁
  obtain ⟨w₂, ht₂, hw₂⟩ := words_of_nextNumber h₂
  obtain ⟨w₃, ht₃, hw₃⟩ := words_of_nextNumber h₃
  obtain ⟨w₄, ht₄, hw₄⟩ := words_of_nextNumber h₄
  exact ⟨w₁, w₂, w₃, w₄, by rw [ht₁, ht₂, ht₃, ht₄], hw₁, hw₂, hw₃, hw₄⟩

theorem toInt_of_nextNumber (hnext : nextNumber fitsInt t = some (whole v, rest)) :
    (BitVec.ofInt 32 v).toInt = v := by
  have hfits := (scanNumeral_of_nextNumber hnext).2.2
  simp only [fitsInt, Bool.and_eq_true, decide_eq_true_eq] at hfits
  exact BitVec.toInt_ofInt_eq_self (by decide) (by omega) (by omega)

/-- The numbers of a header that is all there fit their fields. -/
theorem toInt_fields (stale : Header (BitVec 32))
    (hread : headerOf t = some (mapHeader whole h, rest)) :
    mapHeader BitVec.toInt (fields stale (mapHeader whole h)) = h := by
  simp only [headerOf, Option.bind_eq_bind, Option.bind_eq_some_iff, Option.pure_def,
    Option.some.injEq, Prod.mk.injEq, mapHeader, Header.mk.injEq] at hread
  obtain ⟨⟨o₁, t₁⟩, h₁, ⟨o₂, t₂⟩, h₂, ⟨o₃, t₃⟩, h₃, ⟨o₄, t₄⟩, h₄, ⟨rfl, rfl, rfl, rfl⟩, rfl⟩ :=
    hread
  simp only [mapHeader, fields, numberOr, whole, toInt_of_nextNumber h₁, toInt_of_nextNumber h₂,
    toInt_of_nextNumber h₃, toInt_of_nextNumber h₄]

end Headers

end MallocLab.TraceGrammar
