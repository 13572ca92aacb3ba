import MallocLab.TraceScripts

/-!
What `checktrace.pl` prints.  It keeps the requests of the trace as they are and appends a free
request for each id that is outstanding, after which nothing is; so it accepts its own output and
changes it no more.
-/

namespace MallocLab.TraceBalancing

open MallocLab.Scanf
open MallocLab.PrintedText
open MallocLab.TraceScripts

section TextLines

variable {l rest t : List Char} {ls : List (List Char)} {n : Nat}

theorem nextLine_endLine (hl : '\n' ∉ l) (rest : List Char) :
    nextLine (endLine l ++ rest) = some (l, rest) := by
  have hne : ∀ c ∈ l, decide (c ≠ '\n') = true := by
    intro c hc
    exact decide_eq_true (ne_of_mem_of_not_mem hc hl)
  have hsplit : endLine l ++ rest = l ++ '\n' :: rest := by simp [endLine]
  have htake : (l ++ '\n' :: rest).takeWhile (· ≠ '\n') = l := by
    rw [List.takeWhile_append_of_pos hne]
    simp
  have hdrop : (l ++ '\n' :: rest).dropWhile (· ≠ '\n') = '\n' :: rest := by
    rw [List.dropWhile_append_of_pos hne]
    simp
  rw [hsplit]
  cases hcons : l ++ '\n' :: rest with
  | nil => simp at hcons
  | cons c u =>
      rw [nextLine, ← hcons, htake, hdrop]
      rfl

theorem newline_not_mem_nextLine (hline : nextLine t = some (l, rest)) : '\n' ∉ l := by
  cases t with
  | nil => cases hline
  | cons c t =>
      obtain ⟨rfl, -⟩ := Prod.mk.inj (Option.some.inj hline)
      intro hmem
      have hne := List.mem_takeWhile_imp hmem
      simp at hne

theorem newline_not_mem_linesOf (n : Nat) (t : List Char) : ∀ l ∈ linesOf n t, '\n' ∉ l := by
  induction n generalizing t with
  | zero => exact fun l hl => absurd hl List.not_mem_nil
  | succ n ih =>
      rw [linesOf]
      cases hline : nextLine t with
      | none => exact fun l hl => absurd hl List.not_mem_nil
      | some p =>
          exact List.forall_mem_cons.mpr ⟨newline_not_mem_nextLine hline, ih p.2⟩

/-- Lines that are ended and put together come apart again. -/
theorem linesOf_endLines (hls : ∀ l ∈ ls, '\n' ∉ l) (hn : ls.length < n) :
    linesOf n (ls.flatMap endLine) = ls := by
  induction ls generalizing n with
  | nil =>
      cases n with
      | zero => rfl
      | succ n => rfl
  | cons l ls ih =>
      obtain ⟨hl, hls'⟩ := List.forall_mem_cons.mp hls
      cases n with
      | zero => exact absurd hn (Nat.not_lt_zero _)
      | succ n =>
          rw [List.flatMap_cons, linesOf, nextLine_endLine hl]
          exact congrArg (l :: ·) (ih hls' (Nat.lt_of_succ_lt_succ hn))

theorem length_le_endLines (ls : List (List Char)) : ls.length ≤ (ls.flatMap endLine).length := by
  induction ls with
  | nil => rfl
  | cons l ls ih =>
      rw [List.flatMap_cons, List.length_append, endLine, List.length_append]
      simp only [List.length_cons, List.length_nil]
      omega

/-- The lines of a text. -/
def lines (t : List Char) : List (List Char) := linesOf (t.length + 1) t

theorem lines_endLines (hls : ∀ l ∈ ls, '\n' ∉ l) : lines (ls.flatMap endLine) = ls :=
  linesOf_endLines hls (Nat.lt_succ_of_le (length_le_endLines ls))

end TextLines

section Hashes

variable {h h' : Hash} {k id cmd l : List Char} {linenum m : Nat}

def keys (h : Hash) : List (List Char) := h.map Prod.fst

theorem isSome_lookup_iff : (h.lookup k).isSome = true ↔ k ∈ keys h := by
  rw [List.lookup_isSome_iff, keys, List.mem_map]
  constructor
  · rintro ⟨e, he, hk⟩
    exact ⟨e, he, (eq_of_beq hk).symm⟩
  · rintro ⟨e, he, rfl⟩
    exact ⟨e, he, beq_self_eq_true e.1⟩

theorem mem_keys_delete : k ∈ keys (h.delete id) ↔ k ∈ keys h ∧ k ≠ id := by
  constructor
  · intro hk
    obtain ⟨e, he, rfl⟩ := List.mem_map.mp hk
    obtain ⟨hmem, hne⟩ := List.mem_filter.mp he
    exact ⟨List.mem_map_of_mem hmem, of_decide_eq_true hne⟩
  · rintro ⟨hk, hne⟩
    obtain ⟨e, he, rfl⟩ := List.mem_map.mp hk
    exact List.mem_map_of_mem (List.mem_filter.mpr ⟨he, decide_eq_true hne⟩)

theorem mem_of_lookup (hcmd : h.lookup k = some cmd) : (k, cmd) ∈ h := by
  obtain ⟨before, after, rfl, -⟩ := List.lookup_eq_some_iff.mp hcmd
  exact List.mem_append_right _ List.mem_cons_self

/-- What `%HASH` is like after any requests: a key is there once, and has no blank in it. -/
structure Tidy (h : Hash) : Prop where
  nodup : (keys h).Nodup
  blank : ∀ k ∈ keys h, ∀ c ∈ k, isSpace c = false

theorem tidy_nil : Tidy [] := ⟨List.nodup_nil, nofun⟩

theorem Tidy.delete (hT : Tidy h) (id : List Char) : Tidy (h.delete id) where
  nodup := hT.nodup.sublist (List.filter_sublist.map Prod.fst)
  blank k hk := hT.blank k (mem_keys_delete.mp hk).1

theorem Tidy.set (hT : Tidy h) (hid : ∀ c ∈ id, isSpace c = false) (cmd : List Char) :
    Tidy (h.set id cmd) where
  nodup := by
    refine List.nodup_cons.mpr ⟨fun hmem => ?_, (hT.delete id).nodup⟩
    exact (mem_keys_delete.mp hmem).2 rfl
  blank := by
    intro k hk
    rcases List.mem_cons.mp hk with rfl | hk
    · exact hid
    · exact (hT.delete id).blank k hk

theorem not_isSpace_of_mem_words {t w : List Char} (hw : w ∈ words t) :
    ∀ c ∈ w, isSpace c = false := by
  induction t generalizing w with
  | nil => exact absurd hw List.not_mem_nil
  | cons c t ih =>
      rw [words] at hw
      split at hw
      · exact ih hw
      · rename_i hc
        have hc' : isSpace c = false := Bool.eq_false_of_not_eq_true hc
        split at hw
        · rcases List.mem_cons.mp hw with rfl | hw
          · exact List.forall_mem_singleton.mpr hc'
          · exact ih hw
        · cases hwords : words t with
          | nil =>
              rw [hwords] at hw
              exact absurd hw List.not_mem_nil
          | cons u us =>
              rw [hwords] at hw ih
              rcases List.mem_cons.mp hw with rfl | hw
              · exact List.forall_mem_cons.mpr ⟨hc', ih List.mem_cons_self⟩
              · exact ih (List.mem_cons_of_mem u hw)

theorem not_isSpace_wordAt (l : List Char) (i : Nat) : ∀ c ∈ wordAt l i, isSpace c = false := by
  rw [wordAt, List.getD_eq_getElem?_getD]
  cases hw : (words l)[i]? with
  | none => exact fun c hc => absurd hc List.not_mem_nil
  | some w => exact not_isSpace_of_mem_words (List.mem_of_getElem? hw)

/-- `%HASH` after a request that is accepted. -/
def hashAfter (h : Hash) (l : List Char) : Hash :=
  if wordAt l 0 = ['r'] then h
  else if wordAt l 0 = ['f'] then h.delete (wordAt l 1)
  else h.set (wordAt l 1) (wordAt l 0)

/-- A request that is accepted has the same effect on any line. -/
theorem checkRequest_ok (hok : checkRequest linenum h l = .ok h') :
    (∀ m, checkRequest m h l = .ok h') ∧ h' = hashAfter h l := by
  simp only [checkRequest, hashAfter] at hok ⊢
  split at hok
  · split at hok
    · rename_i hr hid
      obtain rfl := Except.ok.inj hok
      exact ⟨fun m => by rw [if_pos hr, if_pos hid], (if_pos hr).symm⟩
    · cases hok
  · rename_i hr
    rw [if_neg hr]
    split at hok
    · cases hok
    · rename_i ha
      split at hok
      · cases hok
      · rename_i ha'
        split at hok
        · rename_i hf
          split at hok
          · rename_i hid
            obtain rfl := Except.ok.inj hok
            refine ⟨fun m => ?_, (if_pos hf).symm⟩
            rw [if_neg hr, if_neg ha, if_neg ha', if_pos hf, if_pos hid]
          · cases hok
        · rename_i hf
          obtain rfl := Except.ok.inj hok
          refine ⟨fun m => ?_, (if_neg hf).symm⟩
          rw [if_neg hr, if_neg ha, if_neg ha', if_neg hf]

theorem Tidy.hashAfter (hT : Tidy h) (l : List Char) : Tidy (hashAfter h l) := by
  rw [TraceBalancing.hashAfter]
  split
  · exact hT
  · split
    · exact hT.delete _
    · exact hT.set (not_isSpace_wordAt l 1) _

end Hashes

section Requests

variable {h h' h'' : Hash} {kept ls ms ks frees : List (List Char)} {k l : List Char} {n m : Nat}

theorem checkRequests_cons (hl : ignored l = false) (hfirst : checkRequest n h l = .ok h')
    (hrest : checkRequests (n + 1) h' ls = .ok (kept, h'')) :
    checkRequests n h (l :: ls) = .ok (l :: kept, h'') := by
  rw [checkRequests, if_neg (Bool.eq_false_iff.mp hl), hfirst]
  change (checkRequests (n + 1) h' ls >>= fun p => _) = _
  rw [hrest]
  rfl

theorem checkRequests_cons_eq_ok (hl : ignored l = false)
    (hok : checkRequests n h (l :: ls) = .ok (kept, h'')) :
    ∃ h' kept', checkRequest n h l = .ok h' ∧ checkRequests (n + 1) h' ls = .ok (kept', h'') ∧
      kept = l :: kept' := by
  rw [checkRequests, if_neg (Bool.eq_false_iff.mp hl)] at hok
  cases hfirst : checkRequest n h l with
  | error e =>
      rw [hfirst] at hok
      cases hok
  | ok h' =>
      rw [hfirst] at hok
      change (checkRequests (n + 1) h' ls >>= fun p => _) = _ at hok
      cases hrest : checkRequests (n + 1) h' ls with
      | error e =>
          rw [hrest] at hok
          cases hok
      | ok p =>
          rw [hrest] at hok
          obtain ⟨rfl, rfl⟩ := Prod.mk.inj (Except.ok.inj hok)
          exact ⟨h', p.1, rfl, hrest, rfl⟩

/-- The lines that are not blank are kept, and are accepted again wherever they stand. -/
theorem checkRequests_ok (hok : checkRequests n h ls = .ok (kept, h')) :
    kept = ls.filter (fun l => !ignored l) ∧ (∀ m, checkRequests m h kept = .ok (kept, h')) ∧
      (Tidy h → Tidy h') := by
  induction ls generalizing n h kept with
  | nil =>
      obtain ⟨rfl, rfl⟩ := Prod.mk.inj (Except.ok.inj hok)
      exact ⟨rfl, fun m => rfl, id⟩
  | cons l ls ih =>
      cases hl : ignored l with
      | true =>
          rw [checkRequests, if_pos hl] at hok
          obtain ⟨hkept, hagain⟩ := ih hok
          rw [List.filter_cons_of_neg (by simp [hl])]
          exact ⟨hkept, hagain⟩
      | false =>
          obtain ⟨h₁, kept', hfirst, hrest, rfl⟩ := checkRequests_cons_eq_ok hl hok
          obtain ⟨rfl, hagain, htidy⟩ := ih hrest
          obtain ⟨hsame, rfl⟩ := checkRequest_ok hfirst
          refine ⟨?_, fun m => ?_, fun hT => htidy (hT.hashAfter l)⟩
          · rw [List.filter_cons_of_pos (by simp [hl])]
          · exact checkRequests_cons hl (hsame m) (hagain (m + 1))

/-- Requests that were kept go on with others that are kept. -/
theorem checkRequests_append (hkeep : ∀ l ∈ kept, ignored l = false)
    (hkept : checkRequests n h kept = .ok (kept, h'))
    (hms : ∀ m, checkRequests m h' ms = .ok (ms, h'')) :
    checkRequests n h (kept ++ ms) = .ok (kept ++ ms, h'') := by
  induction kept generalizing n h with
  | nil =>
      obtain ⟨-, rfl⟩ := Prod.mk.inj (Except.ok.inj hkept)
      exact hms n
  | cons l kept ih =>
      obtain ⟨hl, hkeep'⟩ := List.forall_mem_cons.mp hkeep
      obtain ⟨h₁, kept', hfirst, hrest, hsame⟩ := checkRequests_cons_eq_ok hl hkept
      obtain ⟨-, rfl⟩ := List.cons.inj hsame
      exact checkRequests_cons hl hfirst (ih hkeep' hrest)

/-- The free request of a key. -/
def freeLine (k : List Char) : List Char := 'f' :: ' ' :: k

theorem words_freeLine (k : List Char) : words (freeLine k) = ['f'] :: words k :=
  words_append (w := ['f']) (List.cons_ne_nil _ _) (List.forall_mem_singleton.mpr rfl) rfl

theorem wordAt_freeLine (hk : ∀ c ∈ k, isSpace c = false) :
    wordAt (freeLine k) 0 = ['f'] ∧ wordAt (freeLine k) 1 = k := by
  rw [wordAt, wordAt, words_freeLine]
  refine ⟨rfl, ?_⟩
  cases k with
  | nil => rfl
  | cons c k =>
      have hwords : words (c :: k ++ []) = [c :: k] := words_append (List.cons_ne_nil c k) hk rfl
      rw [List.append_nil] at hwords
      rw [hwords]
      rfl

theorem checkRequest_freeLine (hT : Tidy h) (hk : k ∈ keys h) (n : Nat) :
    checkRequest n h (freeLine k) = .ok (h.delete k) := by
  obtain ⟨hcmd, hid⟩ := wordAt_freeLine (hT.blank k hk)
  have hlookup := isSome_lookup_iff.mpr hk
  simp [checkRequest, hcmd, hid, hlookup]

/-- With a free request for each key, nothing is left in `%HASH`. -/
theorem checkRequests_frees (hT : Tidy h) (hnodup : ks.Nodup) (hks : ∀ k, k ∈ ks ↔ k ∈ keys h)
    (n : Nat) : checkRequests n h (ks.map freeLine) = .ok (ks.map freeLine, []) := by
  induction ks generalizing h n with
  | nil =>
      obtain rfl : h = [] :=
        List.eq_nil_iff_forall_not_mem.mpr fun e he =>
          List.not_mem_nil ((hks e.1).mpr (List.mem_map_of_mem he))
      rfl
  | cons k ks ih =>
      obtain ⟨hk, hnodup'⟩ := List.nodup_cons.mp hnodup
      have hmem := (hks k).mp List.mem_cons_self
      have hline : ignored (freeLine k) = false := by
        simp [ignored, (wordAt_freeLine (hT.blank k hmem)).1]
      refine checkRequests_cons hline (checkRequest_freeLine hT hmem n)
        (ih (hT.delete k) hnodup' (fun k' => ?_) (n + 1))
      rw [mem_keys_delete, ← hks k', List.mem_cons]
      constructor
      · exact fun hk' => ⟨.inr hk', ne_of_mem_of_not_mem hk' hk⟩
      · rintro ⟨rfl | hk', hne⟩
        · exact absurd rfl hne
        · exact hk'

theorem residue_eq_ok (hok : residue h ks = .ok frees) :
    frees = ks.map freeLine ∧ ∀ k ∈ ks, h.lookup k = some ['a'] ∨ h.lookup k = some ['r'] := by
  induction ks generalizing frees with
  | nil => exact ⟨(Except.ok.inj hok).symm, nofun⟩
  | cons k ks ih =>
      rw [residue] at hok
      split at hok
      · cases hok
      · rename_i hfine
        cases hrest : residue h ks with
        | error e =>
            rw [hrest] at hok
            cases hok
        | ok frees' =>
            rw [hrest] at hok
            obtain rfl := Except.ok.inj hok
            obtain ⟨rfl, hcmds⟩ := ih hrest
            exact ⟨rfl, List.forall_mem_cons.mpr ⟨by tauto, hcmds⟩⟩

theorem mem_sortedKeys : k ∈ sortedKeys h ↔ k ∈ keys h := List.mem_insertionSort _

theorem nodup_sortedKeys (hT : Tidy h) : (sortedKeys h).Nodup :=
  (List.perm_insertionSort _ _).nodup_iff.mpr hT.nodup

end Requests

section Outstanding

variable {h h' : Hash} {held : Finset (List Char)} {kept ls : List (List Char)} {l : List Char}
  {n : Nat}

/-- The ids that are outstanding after a line. -/
def heldAfter (held : Finset (List Char)) (l : List Char) : Finset (List Char) :=
  if wordAt l 0 = ['a'] then insert (wordAt l 1) held
  else if wordAt l 0 = ['f'] then held.erase (wordAt l 1)
  else held

/-- The ids that are allocated in the lines, and not freed behind that. -/
def outstandingIds (ls : List (List Char)) : Finset (List Char) := ls.foldl heldAfter ∅

/-- A list of the ids that are held has as many. -/
theorem card_held {α : Type} [DecidableEq α] {ids : List α} {held : Finset α}
    (hnodup : ids.Nodup) (hids : ∀ id, id ∈ ids ↔ id ∈ held) : held.card = ids.length := by
  have hset : held = ids.toFinset := by
    ext id
    rw [List.mem_toFinset, hids]
  rw [hset, List.toFinset_card_of_nodup hnodup]

/-- The ids are keys of `%HASH`, and all that it has as allocated; it has none as moved. -/
structure Covers (h : Hash) (held : Finset (List Char)) : Prop where
  allocated : ∀ e ∈ h, e.2 = ['a'] → e.1 ∈ held
  keys : ∀ k ∈ held, k ∈ keys h
  cmds : ∀ e ∈ h, e.2 ≠ ['r']

theorem covers_nil : Covers [] ∅ := ⟨nofun, fun _ hk => absurd hk (Finset.notMem_empty _), nofun⟩

theorem Covers.delete (hC : Covers h held) (id : List Char) :
    Covers (h.delete id) (held.erase id) where
  allocated e he hcmd := by
    obtain ⟨hmem, hne⟩ := List.mem_filter.mp he
    exact Finset.mem_erase.mpr ⟨of_decide_eq_true hne, hC.allocated e hmem hcmd⟩
  keys k hk := by
    obtain ⟨hne, hk⟩ := Finset.mem_erase.mp hk
    exact mem_keys_delete.mpr ⟨hC.keys k hk, hne⟩
  cmds e he := hC.cmds e (List.mem_filter.mp he).1

theorem Covers.set {held' : Finset (List Char)} {id cmd : List Char} (hC : Covers h held)
    (hcmd : cmd ≠ ['r']) (hid : cmd = ['a'] → id ∈ held') (hold : held ⊆ held')
    (hnew : ∀ k ∈ held', k = id ∨ k ∈ held) : Covers (h.set id cmd) held' where
  allocated e he ha := by
    rcases List.mem_cons.mp he with rfl | he
    · exact hid ha
    · exact hold (hC.allocated e (List.mem_filter.mp he).1 ha)
  keys k hk := by
    rcases eq_or_ne k id with rfl | hne
    · exact List.mem_cons_self
    · have hkey := hC.keys k ((hnew k hk).resolve_left hne)
      exact List.mem_cons_of_mem _ (mem_keys_delete.mpr ⟨hkey, hne⟩)
  cmds e he := by
    rcases List.mem_cons.mp he with rfl | he
    · exact hcmd
    · exact hC.cmds e (List.mem_filter.mp he).1

theorem Covers.hashAfter (hC : Covers h held) (l : List Char) :
    Covers (hashAfter h l) (heldAfter held l) := by
  rw [TraceBalancing.hashAfter, heldAfter]
  split
  · rename_i hr
    rw [hr, if_neg (by decide), if_neg (by decide)]
    exact hC
  · rename_i hr
    split
    · rename_i hf
      rw [hf, if_neg (by decide)]
      exact hC.delete _
    · split
      · exact hC.set hr (fun _ => Finset.mem_insert_self _ _) (Finset.subset_insert _ _)
          fun k hk => Finset.mem_insert.mp hk
      · rename_i ha
        exact hC.set hr (fun heq => absurd heq ha) subset_rfl fun k hk => .inr hk

theorem heldAfter_of_ignored (hl : ignored l = true) : heldAfter held l = held := by
  rw [ignored, Bool.or_eq_true, decide_eq_true_eq, decide_eq_true_eq] at hl
  rcases hl with hl | hl
  · rw [heldAfter, hl, if_neg (by decide), if_neg (by decide)]
  · rw [heldAfter, hl, if_neg (by decide), if_neg (by decide)]

theorem Covers.checkRequests (hC : Covers h held) (hok : checkRequests n h ls = .ok (kept, h')) :
    Covers h' (ls.foldl heldAfter held) := by
  induction ls generalizing n h held kept with
  | nil =>
      obtain ⟨-, rfl⟩ := Prod.mk.inj (Except.ok.inj hok)
      exact hC
  | cons l ls ih =>
      rw [List.foldl_cons]
      cases hl : ignored l with
      | true =>
          rw [TraceScripts.checkRequests, if_pos hl] at hok
          rw [heldAfter_of_ignored hl]
          exact ih hC hok
      | false =>
          obtain ⟨h₁, kept', hfirst, hrest, -⟩ := checkRequests_cons_eq_ok hl hok
          obtain ⟨-, rfl⟩ := checkRequest_ok hfirst
          exact ih (hC.hashAfter l) hrest

/-- Where all that is left in `%HASH` can be freed, that is what is outstanding. -/
theorem Covers.mem_keys_iff (hC : Covers h held)
    (hcmds : ∀ k ∈ TraceBalancing.keys h, h.lookup k = some ['a'] ∨ h.lookup k = some ['r'])
    (k : List Char) : k ∈ TraceBalancing.keys h ↔ k ∈ held := by
  refine ⟨fun hk => ?_, hC.keys k⟩
  rcases hcmds k hk with hcmd | hcmd
  · exact hC.allocated _ (mem_of_lookup hcmd) rfl
  · exact absurd rfl (hC.cmds _ (mem_of_lookup hcmd))

end Outstanding

section Balancing

variable {t : List Char} {r : Option (List Char)} {v : Int}

theorem spells_toString (v : Int) : Spells (toString v).toList v := by
  cases v with
  | ofNat n =>
      have hdigits : (toString (Int.ofNat n)).toList = decimalOf n := by
        change (Nat.repr n).toList = _
        simp [Nat.repr, decimalOf]
      rw [hdigits]
      exact spells_decimalOf n
  | negSucc n =>
      have hdigits : (toString (Int.negSucc n)).toList = '-' :: decimalOf (n + 1) := by
        change ("-" ++ Nat.repr (n + 1)).toList = _
        simp [Nat.repr, decimalOf]
      rw [hdigits]
      refine ⟨['-'], true, decimalOf (n + 1), .inr (.inr ⟨rfl, rfl⟩), Nat.toDigits_ne_nil, ?_, rfl, ?_⟩
      · exact fun c hc => Nat.isDigit_of_mem_toDigits (by decide) (by decide) hc
      · rw [digitsValue_decimalOf]
        rfl

theorem exactly_eq_some {n : Int} : exactly n = some v ↔ fitsInteger v = true ∧ n = v := by
  constructor
  · intro hn
    rw [exactly] at hn
    split at hn
    · rename_i hfits
      obtain rfl := Option.some.inj hn
      exact ⟨hfits, rfl⟩
    · cases hn
  · rintro ⟨hfits, rfl⟩
    exact if_pos hfits

theorem fitsInteger_iff : fitsInteger v = true ↔ -2 ^ 63 ≤ v ∧ v < 2 ^ 63 := by
  rw [fitsInteger, Bool.and_eq_true, decide_eq_true_eq, decide_eq_true_eq]
  omega

theorem numberIn_of_spells {w : List Char} (hw : Spells w v) (hv : fitsInteger v = true) :
    numberIn w = some v := by
  have hskip : skipSpace (w ++ []) = w ++ [] := skipSpace_append hw
  have hscan : scanNumeral (w ++ []) = .number v [] := scanNumeral_of_spells hw hskip nofun
  rw [List.append_nil] at hscan
  rw [numberIn, hscan]
  exact exactly_eq_some.mpr ⟨hv, rfl⟩

theorem fitsInteger_of_numberIn {w : List Char} (hw : numberIn w = some v) :
    fitsInteger v = true := by
  rw [numberIn] at hw
  split at hw
  · obtain rfl := Option.some.inj hw
    rfl
  · cases hw
  · split at hw
    · exact (exactly_eq_some.mp hw).1
    · cases hw

/-- The count is exact as long as it is below `2 ^ 63`. -/
theorem newNumOps_eq_some {w : List Char} {k : Nat} (hw : numberIn w = some v)
    (hmax : v + k < 2 ^ 63) : newNumOps w k = some (v + k) ∧ fitsInteger (v + k) = true := by
  have hmin := (fitsInteger_iff.mp (fitsInteger_of_numberIn hw)).1
  have hfits : fitsInteger (v + k) = true := fitsInteger_iff.mpr ⟨by omega, hmax⟩
  rw [newNumOps, hw]
  exact ⟨exactly_eq_some.mpr ⟨hfits, rfl⟩, hfits⟩

/-- The line of the header with that number. -/
def headerLine (t : List Char) (i : Nat) : List Char := (lines t).getD i []

theorem newline_not_mem_headerLine (t : List Char) (i : Nat) : '\n' ∉ headerLine t i := by
  rw [headerLine, List.getD_eq_getElem?_getD]
  cases hl : (lines t)[i]? with
  | none => exact List.not_mem_nil
  | some l => exact newline_not_mem_linesOf _ t l (List.mem_of_getElem? hl)

theorem newline_not_mem_of_spells {w : List Char} (hw : Spells w v) : '\n' ∉ w := by
  intro hmem
  have hspace := hw.not_isSpace _ hmem
  cases hspace

theorem newline_not_mem_freeLine {k : List Char} (hk : ∀ c ∈ k, isSpace c = false) :
    '\n' ∉ freeLine k := by
  intro hmem
  rcases List.mem_cons.mp hmem with heq | hmem
  · cases heq
  · rcases List.mem_cons.mp hmem with heq | hmem
    · cases heq
    · cases hk _ hmem

/-- The lines that `checktrace.pl` prints. -/
def balancedLines (t : List Char) (h : Hash) (newNumOps : Int) : List (List Char) :=
  [headerLine t 0, headerLine t 1, (toString newNumOps).toList, headerLine t 3] ++
    ((lines t).drop 4).filter (fun l => !ignored l) ++ (sortedKeys h).map freeLine

theorem lines_balancedLines {h : Hash} (hT : Tidy h) :
    lines ((balancedLines t h v).flatMap endLine) = balancedLines t h v := by
  apply lines_endLines
  intro l hl
  rcases List.mem_append.mp hl with hl | hl
  · rcases List.mem_append.mp hl with hl | hl
    · simp only [List.mem_cons, List.not_mem_nil, or_false] at hl
      rcases hl with rfl | rfl | rfl | rfl
      · exact newline_not_mem_headerLine t 0
      · exact newline_not_mem_headerLine t 1
      · exact newline_not_mem_of_spells (spells_toString _)
      · exact newline_not_mem_headerLine t 3
    · exact newline_not_mem_linesOf _ t l (List.mem_of_mem_drop (List.mem_filter.mp hl).1)
  · obtain ⟨k, hk, rfl⟩ := List.mem_map.mp hl
    exact newline_not_mem_freeLine (hT.blank k (mem_sortedKeys.mp hk))

/-- What `checktrace.pl` does with a trace that it accepts. -/
theorem checktrace_eq_ok (hok : checktrace t = .ok r) :
    ∃ h, checkRequests 5 [] ((lines t).drop 4) =
        .ok (((lines t).drop 4).filter (fun l => !ignored l), h) ∧
      (∀ k ∈ keys h, h.lookup k = some ['a'] ∨ h.lookup k = some ['r']) ∧
      r = (newNumOps (headerLine t 2) (sortedKeys h).length).map fun n =>
        (balancedLines t h n).flatMap endLine := by
  rw [checktrace, readChecked] at hok
  change (checkRequests 5 [] ((lines t).drop 4) >>= fun p => _) >>= _ = _ at hok
  cases hrequests : checkRequests 5 [] ((lines t).drop 4) with
  | error e =>
      rw [hrequests] at hok
      cases hok
  | ok p =>
      obtain ⟨kept, h⟩ := p
      obtain ⟨rfl, -⟩ := checkRequests_ok hrequests
      rw [hrequests] at hok
      change (residue h (sortedKeys h) >>= fun frees => _) = _ at hok
      cases hresidue : residue h (sortedKeys h) with
      | error e =>
          rw [hresidue] at hok
          cases hok
      | ok frees =>
          obtain ⟨rfl, hcmds⟩ := residue_eq_ok hresidue
          have hcount : (sortedKeys h).length = h.length := by
            rw [sortedKeys, List.length_insertionSort, List.length_map]
          rw [hresidue] at hok
          refine ⟨h, rfl, fun k hk => hcmds k (mem_sortedKeys.mpr hk), ?_⟩
          rw [hcount]
          exact (Except.ok.inj hok).symm

/-- On the lines of a trace that has nothing outstanding, `checktrace.pl` changes nothing. -/
theorem checktrace_of_lines {l₀ l₁ l₃ : List Char} {ls : List (List Char)}
    (hv : fitsInteger v = true) (ht : t = (lines t).flatMap endLine)
    (hlines : lines t = [l₀, l₁, (toString v).toList, l₃] ++ ls)
    (hls : checkRequests 5 [] ls = .ok (ls, [])) :
    checktrace t = .ok (some t) ∧ checktraceSummary t = .ok "Balanced trace.\n" := by
  have hread : readChecked t = .ok ⟨l₀, l₁, (toString v).toList, l₃, ls, []⟩ := by
    rw [readChecked]
    change (checkRequests 5 [] ((lines t).drop 4) >>= fun p => .ok (Checked.mk ((lines t).getD 0 [])
      ((lines t).getD 1 []) ((lines t).getD 2 []) ((lines t).getD 3 []) p.1 p.2)) = _
    rw [hlines]
    change (checkRequests 5 [] ls >>= _) = _
    rw [hls]
    rfl
  constructor
  · have hcount : newNumOps (toString v).toList 0 = some v := by
      have hmax : v + (0 : Nat) < 2 ^ 63 := by simpa using (fitsInteger_iff.mp hv).2
      simpa using (newNumOps_eq_some (numberIn_of_spells (spells_toString v) hv) hmax).1
    have hkeys : sortedKeys [] = [] := rfl
    rw [checktrace, hread]
    change (residue [] (sortedKeys []) >>= fun frees => _) = _
    rw [hkeys]
    change Except.ok ((newNumOps (toString v).toList 0).map fun n =>
      ([l₀, l₁, (toString n).toList, l₃] ++ ls ++ []).flatMap endLine) = _
    rw [hcount, Option.map_some, List.append_nil, ← hlines, ← ht]
  · rw [checktraceSummary, hread]
    rfl

/-- `checktrace.pl` balances a trace that it accepts, if the number of requests stays below
`2 ^ 63`: it keeps the header but for that number, keeps the lines of the requests in their order,
and appends a free request for each of the ids that are outstanding, with as many more requests in
the header.  The result is balanced: the script accepts it as such, and prints it as it is. -/
theorem checktrace_balances (hops : numberIn (headerLine t 2) = some v)
    (hmax : v + (outstandingIds ((lines t).drop 4)).card < 2 ^ 63) (hok : checktrace t = .ok r) :
    ∃ out, r = some out ∧
      (∃ ids : List (List Char), ids.Nodup ∧
        (∀ id, id ∈ ids ↔ id ∈ outstandingIds ((lines t).drop 4)) ∧
        lines out = [headerLine t 0, headerLine t 1, (toString (v + ids.length)).toList,
          headerLine t 3] ++ ((lines t).drop 4).filter (fun l => !ignored l) ++ ids.map freeLine) ∧
      checktrace out = .ok (some out) ∧ checktraceSummary out = .ok "Balanced trace.\n" := by
  obtain ⟨h, hrequests, hcmds, rfl⟩ := checktrace_eq_ok hok
  obtain ⟨-, hagain, htidy⟩ := checkRequests_ok hrequests
  have hT := htidy tidy_nil
  have hids : ∀ id, id ∈ sortedKeys h ↔ id ∈ outstandingIds ((lines t).drop 4) := by
    intro id
    rw [mem_sortedKeys]
    exact (covers_nil.checkRequests hrequests).mem_keys_iff hcmds id
  rw [card_held (nodup_sortedKeys hT) hids] at hmax
  obtain ⟨hcount, hfits⟩ := newNumOps_eq_some hops hmax
  have hlines := lines_balancedLines (t := t) (v := v + (sortedKeys h).length) hT
  have hkeep : ∀ l ∈ ((lines t).drop 4).filter (fun l => !ignored l), ignored l = false := by
    intro l hl
    simpa using (List.mem_filter.mp hl).2
  have hls := checkRequests_append (n := 5) hkeep (hagain 5)
    (checkRequests_frees hT (nodup_sortedKeys hT) fun k => mem_sortedKeys)
  refine ⟨(balancedLines t h (v + (sortedKeys h).length)).flatMap endLine, ?_, ?_, ?_⟩
  · rw [hcount]
    rfl
  · exact ⟨sortedKeys h, nodup_sortedKeys hT, hids, hlines⟩
  · exact checktrace_of_lines hfits (congrArg (List.flatMap endLine) hlines.symm)
      (hlines.trans (List.append_assoc ..)) hls

/-- Two ids are outstanding, and sorted as strings. -/
theorem checktrace_balances_sample :
    checktrace "48\n3\n6\n1\na 2 9\na 10 17 x\nf 2\na 9 3\nf 10\nf 9\n".toList =
        .ok (some "48\n3\n6\n1\na 2 9\na 10 17 x\nf 2\na 9 3\nf 10\nf 9\n".toList) ∧
      checktraceSummary "48\n3\n6\n1\na 2 9\na 10 17 x\nf 2\na 9 3\nf 10\nf 9\n".toList =
        .ok "Balanced trace.\n" := by
  obtain ⟨out, hout, -, hfixed⟩ :=
    checktrace_balances (t := "48\n3\n4\n1\na 2 9\n\na 10 17 x\nf 2\na 9 3".toList) (v := 4)
      rfl (by decide) rfl
  obtain rfl := Option.some.inj hout
  exact hfixed

end Balancing

end MallocLab.TraceBalancing
