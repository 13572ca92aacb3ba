import Mathlib.Algebra.Order.Ring.Nat
import Mathlib.Order.Interval.Finset.Nat

/-!
Intervals that do not meet: how much of them fits between two ends.
-/

namespace MallocLab.Packing

variable {ι : Type*} {lo len : ι → Nat} {l : List ι} {a b : Nat}

/-- The points of an interval. -/
def points (lo len : ι → Nat) (i : ι) : Finset Nat := Finset.Ico (lo i) (lo i + len i)

/-- The points of all intervals of the list. -/
def covered (lo len : ι → Nat) (l : List ι) : Finset Nat :=
  l.foldr (fun i s => points lo len i ∪ s) ∅

/-- Neither of the two reaches into the other. -/
def Aside (lo len : ι → Nat) (i j : ι) : Prop := lo i + len i ≤ lo j ∨ lo j + len j ≤ lo i

theorem card_points (lo len : ι → Nat) (i : ι) : (points lo len i).card = len i := by
  rw [points, Nat.card_Ico, Nat.add_sub_cancel_left]

theorem disjoint_points {i j : ι} (haside : Aside lo len i j) :
    Disjoint (points lo len i) (points lo len j) := by
  apply Finset.disjoint_left.mpr
  intro x hi hj
  rw [points, Finset.mem_Ico] at hi hj
  rcases haside with h | h
  · omega
  · omega

theorem covered_cons (i : ι) (l : List ι) :
    covered lo len (i :: l) = points lo len i ∪ covered lo len l := rfl

theorem mem_covered {x : Nat} : x ∈ covered lo len l ↔ ∃ i ∈ l, x ∈ points lo len i := by
  induction l with
  | nil => simp [covered]
  | cons i l ih => rw [covered_cons, Finset.mem_union, ih, List.exists_mem_cons_iff]

theorem card_covered (haside : l.Pairwise (Aside lo len)) :
    (covered lo len l).card = (l.map len).sum := by
  induction l with
  | nil => rfl
  | cons i l ih =>
      obtain ⟨hi, hl⟩ := List.pairwise_cons.mp haside
      have hdisjoint : Disjoint (points lo len i) (covered lo len l) := by
        apply Finset.disjoint_left.mpr
        intro x hx hmem
        obtain ⟨j, hj, hxj⟩ := mem_covered.mp hmem
        exact Finset.disjoint_left.mp (disjoint_points (hi j hj)) hx hxj
      rw [covered_cons, Finset.card_union_of_disjoint hdisjoint, card_points, ih hl,
        List.map_cons, List.sum_cons]

/-- Intervals between `a` and `b` that do not meet have no more than `b - a` points. -/
theorem sum_le_of_aside (haside : l.Pairwise (Aside lo len))
    (hinside : ∀ i ∈ l, a ≤ lo i ∧ lo i + len i ≤ b) : (l.map len).sum ≤ b - a := by
  rw [← card_covered haside, ← Nat.card_Ico a b]
  apply Finset.card_le_card
  intro x hx
  obtain ⟨i, hi, hxi⟩ := mem_covered.mp hx
  obtain ⟨hlo, hhi⟩ := hinside i hi
  rw [points, Finset.mem_Ico] at hxi
  exact Finset.mem_Ico.mpr ⟨hlo.trans hxi.1, hxi.2.trans_le hhi⟩

end MallocLab.Packing
