import Mathlib.Data.List.Basic
import Mathlib.Logic.Function.Basic

/-!
Stores of objects.  An object has a handle and a length, and knows the values last stored
into it; of a position that nothing was stored into, nothing is known.  An image gives each
handle its values, and agrees with a store where that knows something.
-/

namespace MallocLab.ObjectStore

structure Object (ι ν : Type*) where
  handle : ι
  length : Nat
  contents : Nat → Option ν
  bounded : ∀ j, length ≤ j → contents j = none

namespace Object

variable {ι ν : Type*}

def fresh (handle : ι) (length : Nat) : Object ι ν := ⟨handle, length, fun _ => none, fun _ _ => rfl⟩

/-- Store a value; positions behind the end are left alone. -/
def put (o : Object ι ν) (j : Nat) (v : ν) : Object ι ν where
  handle := o.handle
  length := o.length
  contents := fun k => if k = j ∧ k < o.length then some v else o.contents k
  bounded := by
    intro k hk
    rw [if_neg (fun h => Nat.not_lt.mpr hk h.2)]
    exact o.bounded k hk

/-- Another handle and length, and what is known of the positions that both lengths have. -/
def resize (o : Object ι ν) (handle : ι) (length : Nat) : Object ι ν where
  handle := handle
  length := length
  contents := fun j => if j < length then o.contents j else none
  bounded := fun _ hj => if_neg (Nat.not_lt.mpr hj)

theorem lt_length {o : Object ι ν} {j : Nat} {v : ν} (hv : o.contents j = some v) :
    j < o.length := by
  apply Nat.lt_of_not_le
  intro hle
  rw [o.bounded j hle] at hv
  cases hv

end Object

abbrev Store (ι ν : Type*) := List (Object ι ν)

namespace Store

variable {ι ν : Type*} [DecidableEq ι]

def alloc (s : Store ι ν) (p : ι) (n : Nat) : Store ι ν := Object.fresh p n :: s

def release (s : Store ι ν) (p : ι) : Store ι ν := s.filter fun o => o.handle ≠ p

def put (s : Store ι ν) (p : ι) (j : Nat) (v : ν) : Store ι ν :=
  s.map fun o => if o.handle = p then o.put j v else o

def lookup (s : Store ι ν) (p : ι) : Option (Object ι ν) := s.find? fun o => o.handle = p

/-- The object of `p` moves to the handle `q`. -/
def resize (s : Store ι ν) (p q : ι) (n : Nat) : Store ι ν :=
  match s.lookup p with
  | some o => o.resize q n :: s.release p
  | none => s.release p

/-- Handles and lengths. -/
def shape (s : Store ι ν) : List (ι × Nat) := s.map fun o => (o.handle, o.length)

variable {s : Store ι ν} {p : ι}

theorem mem_of_lookup {o : Object ι ν} (h : s.lookup p = some o) : o ∈ s ∧ o.handle = p := by
  rw [lookup] at h
  refine ⟨List.mem_of_find?_eq_some h, ?_⟩
  simpa using List.find?_some h

theorem exists_lookup (hp : p ∈ s.shape.map Prod.fst) : ∃ o, s.lookup p = some o := by
  obtain ⟨e, he, hpe⟩ := List.mem_map.mp hp
  obtain ⟨o, ho, hoe⟩ := List.mem_map.mp he
  rw [← Option.isSome_iff_exists, lookup, List.find?_isSome]
  refine ⟨o, ho, ?_⟩
  rw [← hoe] at hpe
  exact decide_eq_true hpe

omit [DecidableEq ι] in
theorem shape_alloc (s : Store ι ν) (p : ι) (n : Nat) :
    (s.alloc p n).shape = (p, n) :: s.shape := rfl

theorem shape_release (s : Store ι ν) (p : ι) :
    (s.release p).shape = s.shape.filter fun e => e.1 ≠ p := by
  rw [shape, release, shape, List.filter_map]
  rfl

theorem shape_put (s : Store ι ν) (p : ι) (j : Nat) (v : ν) : (s.put p j v).shape = s.shape := by
  rw [shape, put, List.map_map, shape]
  apply List.map_congr_left
  intro o _
  simp only [Function.comp_apply]
  split
  · rfl
  · rfl

theorem shape_resize (hp : p ∈ s.shape.map Prod.fst) (q : ι) (n : Nat) :
    (s.resize p q n).shape = (q, n) :: s.shape.filter fun e => e.1 ≠ p := by
  have ⟨o, ho⟩ := exists_lookup hp
  rw [← shape_release, resize, ho]
  rfl

end Store

/-- What the store knows is what the image has. -/
def Agrees {ι ν : Type*} (image : ι → Nat → ν) (s : Store ι ν) : Prop :=
  ∀ o ∈ s, ∀ j v, o.contents j = some v → image o.handle j = v

namespace Agrees

variable {ι ν : Type*} [DecidableEq ι] {image image' : ι → Nat → ν} {s : Store ι ν} {p q : ι}
  {n j : Nat} {v : ν}

omit [DecidableEq ι] in
theorem alloc (h : Agrees image s)
    (hsame : ∀ o ∈ s, ∀ j < o.length, image' o.handle j = image o.handle j) (p : ι) (n : Nat) :
    Agrees image' (s.alloc p n) := by
  intro o ho j v hv
  rcases List.mem_cons.mp ho with rfl | ho
  · cases hv
  · rw [hsame o ho j (Object.lt_length hv)]
    exact h o ho j v hv

theorem release (h : Agrees image s)
    (hsame : ∀ o ∈ s, o.handle ≠ p → ∀ j < o.length, image' o.handle j = image o.handle j) :
    Agrees image' (s.release p) := by
  intro o ho j v hv
  obtain ⟨ho, hne⟩ := List.mem_filter.mp ho
  rw [hsame o ho (of_decide_eq_true hne) j (Object.lt_length hv)]
  exact h o ho j v hv

theorem put (h : Agrees image s) (hnew : image' p j = v)
    (hsame : ∀ o ∈ s, ∀ k < o.length, o.handle ≠ p ∨ k ≠ j → image' o.handle k = image o.handle k) :
    Agrees image' (s.put p j v) := by
  intro o ho k w hw
  obtain ⟨x, hx, rfl⟩ := List.mem_map.mp ho
  by_cases hp : x.handle = p
  · rw [if_pos hp] at hw ⊢
    change (if k = j ∧ k < x.length then some v else x.contents k) = some w at hw
    split at hw
    · rename_i hk
      cases hw
      rw [← hnew, hk.1, ← hp]
      rfl
    · rename_i hk
      have hlt := Object.lt_length hw
      change image' x.handle k = w
      rw [hsame x hx k hlt (.inr fun heq => hk ⟨heq, hlt⟩)]
      exact h x hx k w hw
  · rw [if_neg hp] at hw ⊢
    rw [hsame x hx k (Object.lt_length hw) (.inl hp)]
    exact h x hx k w hw

theorem resize (h : Agrees image s)
    (hmoved : ∀ o ∈ s, o.handle = p → ∀ j < o.length, j < n → image' q j = image p j)
    (hsame : ∀ o ∈ s, o.handle ≠ p → ∀ j < o.length, image' o.handle j = image o.handle j) :
    Agrees image' (s.resize p q n) := by
  have hrest : Agrees image' (s.release p) := h.release hsame
  rw [Store.resize]
  rcases hfind : s.lookup p with _ | x
  · exact hrest
  · have ⟨hx, hp⟩ := Store.mem_of_lookup hfind
    intro o ho j v hv
    rcases List.mem_cons.mp ho with rfl | ho
    · change (if j < n then x.contents j else none) = some v at hv
      split at hv
      · rename_i hj
        change image' q j = v
        rw [hmoved x hx hp j (Object.lt_length hv) hj, ← hp]
        exact h x hx j v hv
      · cases hv
    · exact hrest o ho j v hv

end Agrees

end MallocLab.ObjectStore
