import MallocLab.Mm

/-!
Symbolic execution of heap programs, and the frame relation between the heaps
before and after one.
-/

namespace MallocLab.HeapPrograms

open MallocLab.ByteMemory
open MallocLab.Machine

variable {α β : Type} {h h' h'' : Heap}

@[simp] theorem pure_eq_ok {ε : Type} (a : α) : (pure a : Except ε α) = .ok a := rfl

@[simp] theorem ok_bind {ε : Type} (a : α) (f : α → Except ε β) :
    (Except.ok a >>= f) = f a := rfl

@[simp] theorem run_throw (e : Fault) (h : Heap) :
    (throw e : HeapM α).run h = .error e := rfl

section Programs

variable {σ ε : Type} {s s' : σ} {x : StateT σ (Except ε) α} {f : α → StateT σ (Except ε) β}

theorem run_bind_of_ok {a : α} (hx : x.run s = .ok (a, s')) :
    (x >>= f).run s = (f a).run s' := by
  rw [StateT.run_bind, hx]
  rfl

theorem run_bind_eq_ok {b : β} {s'' : σ} (hrun : (x >>= f).run s = .ok (b, s'')) :
    ∃ a s', x.run s = .ok (a, s') ∧ (f a).run s' = .ok (b, s'') := by
  rcases hx : x.run s with e | ⟨a, s'⟩
  · rw [StateT.run_bind, hx] at hrun
    cases hrun
  · rw [run_bind_of_ok hx] at hrun
    exact ⟨a, s', rfl, hrun⟩

theorem run_bind_of_error {e : ε} (hx : x.run s = .error e) : (x >>= f).run s = .error e := by
  rw [StateT.run_bind, hx]
  rfl

theorem run_get (s : σ) : (get : StateT σ (Except ε) σ).run s = .ok (s, s) := rfl

end Programs

@[simp] theorem run_getFlistFirst (h : Heap) :
    getFlistFirst.run h = .ok (h.flistFirst, h) := rfl

@[simp] theorem run_setFlistFirst (p : Nat) (h : Heap) :
    (setFlistFirst p).run h = .ok ((), { h with flistFirst := p }) := rfl

theorem assertThat_run {p : Prop} [Decidable p] (hp : p) (h : Heap) :
    (assertThat p).run h = .ok ((), h) := by
  rw [assertThat, if_pos hp]
  rfl

theorem readWord_run {a : Nat} (ha : h.InHeap a 8) :
    (readWord a).run h = .ok (h.word a, h) := by
  simp [readWord, ha]

theorem writeWord_run {a : Nat} (ha : h.InHeap a 8) (w : Word) :
    (writeWord a w).run h = .ok ((), h.setWord a w) := by
  simp [writeWord, ha]

theorem writeWord_run_outOfHeap {a : Nat} (ha : ¬ h.InHeap a 8) (w : Word) :
    (writeWord a w).run h = .error (.outOfHeap a) := by
  unfold writeWord
  rw [run_bind_of_ok (run_get h), if_neg ha, run_throw]

theorem memmove_run (dst src : Nat) (n : Word)
    (hsrc : h.InHeap src n.toNat) (hdst : h.InHeap dst n.toNat) :
    (memmove dst src n).run h = .ok ((), h.move dst src n.toNat) := by
  simp [memmove, hsrc, hdst]

@[simp] theorem inHeap_setWord (a b : Nat) (w : Word) (n : Nat) :
    (h.setWord a w).InHeap b n ↔ h.InHeap b n := Iff.rfl

theorem word_setWord_self (a : Nat) (w : Word) : (h.setWord a w).word a = w :=
  load_store_self (n := 8) h.memory a w

theorem word_setWord_of_disjoint {a b : Nat} (w : Word) (hab : a + 8 ≤ b ∨ b + 8 ≤ a) :
    (h.setWord a w).word b = h.word b :=
  load_store_of_disjoint (n := 8) h.memory w hab

theorem setWord_setWord_self (a : Nat) (v w : Word) :
    (h.setWord a v).setWord a w = h.setWord a w := by
  unfold Heap.setWord
  rw [store_store_self]

theorem setWord_comm {a b : Nat} (v w : Word) (hab : a + 8 ≤ b ∨ b + 8 ≤ a) :
    (h.setWord a v).setWord b w = (h.setWord b w).setWord a v := by
  unfold Heap.setWord
  congr 1
  exact store_comm (n := 8) (k := 8) h.memory v w hab

/-- `h'` differs from `h` at most in `flist_first` and in the bytes of `A`. -/
structure SameExcept (h h' : Heap) (A : Set Nat) : Prop where
  arena : h'.arena = h.arena
  memBrk : h'.memBrk = h.memBrk
  prologue : h'.prologue = h.prologue
  epilogue : h'.epilogue = h.epilogue
  moves : h'.moves = h.moves
  memory : ∀ x, x ∉ A → h'.memory x = h.memory x

namespace SameExcept

variable {A B : Set Nat}

theorem refl (h : Heap) (A : Set Nat) : SameExcept h h A :=
  ⟨rfl, rfl, rfl, rfl, rfl, fun _ _ => rfl⟩

theorem trans (h₁ : SameExcept h h' A) (h₂ : SameExcept h' h'' B) :
    SameExcept h h'' (A ∪ B) where
  arena := h₂.arena.trans h₁.arena
  memBrk := h₂.memBrk.trans h₁.memBrk
  prologue := h₂.prologue.trans h₁.prologue
  epilogue := h₂.epilogue.trans h₁.epilogue
  moves := h₂.moves.trans h₁.moves
  memory x hx := by
    rw [Set.mem_union, not_or] at hx
    exact (h₂.memory x hx.2).trans (h₁.memory x hx.1)

theorem mono (hAB : A ⊆ B) (h₁ : SameExcept h h' A) : SameExcept h h' B :=
  { h₁ with memory := fun x hx => h₁.memory x fun hxA => hx (hAB hxA) }

theorem memStartBrk (h₁ : SameExcept h h' A) : h'.memStartBrk = h.memStartBrk := by
  simp only [Heap.memStartBrk, h₁.arena]

theorem memMaxAddr (h₁ : SameExcept h h' A) : h'.memMaxAddr = h.memMaxAddr := by
  simp only [Heap.memMaxAddr, h₁.arena]

theorem inHeap_iff (h₁ : SameExcept h h' A) (a n : Nat) :
    h'.InHeap a n ↔ h.InHeap a n := by
  simp only [Heap.InHeap, h₁.memStartBrk, h₁.memBrk]

theorem word_eq (h₁ : SameExcept h h' A) {a : Nat}
    (ha : ∀ x, a ≤ x → x < a + 8 → x ∉ A) : h'.word a = h.word a :=
  load_congr fun x hlo hhi => h₁.memory x (ha x hlo hhi)

end SameExcept

theorem sameExcept_setWord (h : Heap) (a : Nat) (w : Word) :
    SameExcept h (h.setWord a w) (Set.Ico a (a + 8)) where
  arena := rfl
  memBrk := rfl
  prologue := rfl
  epilogue := rfl
  moves := rfl
  memory x hx := by
    refine store_apply_of_not_mem (n := 8) h.memory w ?_
    rw [Set.mem_Ico] at hx
    omega

theorem sameExcept_flistFirst (h : Heap) (p : Nat) :
    SameExcept h { h with flistFirst := p } ∅ :=
  ⟨rfl, rfl, rfl, rfl, rfl, fun _ _ => rfl⟩

end MallocLab.HeapPrograms
