import Mathlib.Data.List.Cycle

/-!
Circular doubly linked lists.  A ring is described by the successor and the
predecessor of each of its nodes; the lemmas below say how linking a node in
and unlinking a node act on the sequence of nodes.
-/

namespace MallocLab.LinkRing

variable {α : Type*} {next prev next' prev' : α → α}

/-- `y` follows `x`, and both nodes agree on it. -/
def Linked (next prev : α → α) (x y : α) : Prop :=
  next x = y ∧ prev y = x

/-- The nodes of `l` form one closed ring in the order of `l`. -/
def Ring (next prev : α → α) (l : List α) : Prop :=
  Cycle.Chain (Linked next prev) (l : Cycle α)

theorem ring_nil : Ring next prev [] :=
  Cycle.Chain.nil _

theorem ring_cons_iff {a : α} {l : List α} :
    Ring next prev (a :: l) ↔
      List.IsChain (Linked next prev) (a :: l ++ [a]) :=
  Cycle.chain_coe_cons _ _ _

theorem ring_singleton_iff {a : α} :
    Ring next prev [a] ↔ next a = a ∧ prev a = a :=
  Cycle.chain_singleton _ _

/-- A ring may be read from any of its nodes. -/
theorem ring_append_comm {s t : List α} :
    Ring next prev (s ++ t) ↔ Ring next prev (t ++ s) := by
  unfold Ring
  rw [Cycle.coe_eq_coe.mpr List.isRotated_append]

theorem ring_rotate_iff {s t : List α} {x : α} :
    Ring next prev (s ++ x :: t) ↔ Ring next prev (x :: (t ++ s)) :=
  ring_append_comm

theorem Ring.congr {l : List α} (h : Ring next prev l)
    (hnext : ∀ x ∈ l, next' x = next x) (hprev : ∀ x ∈ l, prev' x = prev x) :
    Ring next' prev' l := by
  cases l with
  | nil => exact ring_nil
  | cons a l =>
      rw [ring_cons_iff] at h ⊢
      refine h.imp_of_mem_imp ?_
      rintro x y hx hy ⟨hxy, hyx⟩
      have hx' : x ∈ a :: l := by
        simp only [List.mem_append, List.mem_cons, List.not_mem_nil] at hx ⊢
        tauto
      have hy' : y ∈ a :: l := by
        simp only [List.mem_append, List.mem_cons, List.not_mem_nil] at hy ⊢
        tauto
      exact ⟨(hnext x hx').trans hxy, (hprev y hy').trans hyx⟩

theorem Ring.next_cons_cons {a b : α} {l : List α} (h : Ring next prev (a :: b :: l)) :
    next a = b ∧ prev b = a :=
  (List.isChain_cons_cons.mp (ring_cons_iff.mp h)).1

/-- The node following `x` in a ring is the next one of the list, or its head. -/
theorem Ring.next_eq {s t : List α} {x : α} (h : Ring next prev (s ++ x :: t)) :
    next x = (t ++ s).headD x := by
  rw [ring_rotate_iff] at h
  rcases hrest : t ++ s with _ | ⟨y, rest⟩
  · rw [hrest] at h
    exact (ring_singleton_iff.mp h).1
  · rw [hrest] at h
    exact h.next_cons_cons.1

theorem Ring.prev_head {a z : α} {l : List α} (h : Ring next prev (a :: l))
    (hz : z ∈ (a :: l).getLast?) : next z = a ∧ prev a = z := by
  rw [ring_cons_iff, List.isChain_append] at h
  exact h.2.2 z hz a rfl

theorem Ring.prev_eq {s t : List α} {x : α} (h : Ring next prev (s ++ x :: t)) :
    prev x = (x :: (t ++ s)).getLast (List.cons_ne_nil _ _) := by
  rw [ring_rotate_iff] at h
  exact (h.prev_head (List.getLast?_eq_some_getLast (List.cons_ne_nil _ _))).2

/-- The sequence of nodes determines the links. -/
theorem Ring.links_unique {l : List α} {x : α} (h : Ring next prev l) (h' : Ring next' prev' l)
    (hx : x ∈ l) : next' x = next x ∧ prev' x = prev x := by
  obtain ⟨s, t, rfl⟩ := List.append_of_mem hx
  exact ⟨h'.next_eq.trans h.next_eq.symm, h'.prev_eq.trans h.prev_eq.symm⟩

theorem Ring.next_mem {l : List α} {x : α} (h : Ring next prev l) (hx : x ∈ l) :
    next x ∈ l := by
  obtain ⟨s, t, rfl⟩ := List.append_of_mem hx
  rw [h.next_eq]
  rcases hrest : t ++ s with _ | ⟨y, rest⟩
  · exact hx
  · have hy : y ∈ t ++ s := by simp [hrest]
    simp only [List.headD_cons, List.mem_append, List.mem_cons] at hy ⊢
    tauto

theorem Ring.exists_prev {l : List α} {x : α} (h : Ring next prev l) (hx : x ∈ l) :
    ∃ z ∈ l, next z = x ∧ prev x = z := by
  obtain ⟨s, t, rfl⟩ := List.append_of_mem hx
  rw [ring_rotate_iff] at h
  have hz := List.getLast?_eq_some_getLast (List.cons_ne_nil x (t ++ s))
  refine ⟨_, ?_, h.prev_head hz⟩
  have hmem := List.getLast_mem (List.cons_ne_nil x (t ++ s))
  simp only [List.mem_cons, List.mem_append] at hmem ⊢
  tauto

theorem Ring.prev_mem {l : List α} {x : α} (h : Ring next prev l) (hx : x ∈ l) :
    prev x ∈ l := by
  obtain ⟨z, hz, -, hprev⟩ := h.exists_prev hx
  rwa [hprev]

theorem Ring.next_prev {l : List α} {x : α} (h : Ring next prev l) (hx : x ∈ l) :
    next (prev x) = x := by
  obtain ⟨z, -, hnext, hprev⟩ := h.exists_prev hx
  rw [hprev, hnext]

/-- A node is its own successor only in a ring of one node. -/
theorem Ring.next_self_iff {s t : List α} {x : α} (h : Ring next prev (s ++ x :: t))
    (hnodup : (s ++ x :: t).Nodup) : next x = x ↔ s = [] ∧ t = [] := by
  have hx : x ∉ t ++ s := by
    simp only [List.nodup_append, List.nodup_cons, List.mem_append] at hnodup ⊢
    rintro (ht | hs)
    · exact hnodup.2.1.1 ht
    · exact hnodup.2.2 x hs x (by simp) rfl
  rw [h.next_eq]
  rcases hrest : t ++ s with _ | ⟨y, rest⟩
  · have := List.append_eq_nil_iff.mp hrest
    simp [this]
  · have hyx : y ≠ x := by
      rintro rfl
      exact hx (by simp [hrest])
    simp only [List.headD_cons, hyx, false_iff]
    rintro ⟨rfl, rfl⟩
    simp at hrest

/-- Links inside `a :: l` survive a change of the links that leave or enter it. -/
theorem isChain_relink {a : α} {l : List α}
    (h : List.IsChain (Linked next prev) (a :: l))
    (hnext : ∀ x ∈ a :: l, next x ∈ l → next' x = next x)
    (hprev : ∀ y ∈ l, prev' y = prev y) :
    List.IsChain (Linked next' prev') (a :: l) := by
  refine h.imp_of_mem_tail_imp ?_
  rintro x y hx hy ⟨hxy, hyx⟩
  have hy' : y ∈ l := by simpa using hy
  exact ⟨(hnext x hx (hxy ▸ hy')).trans hxy, (hprev y hy').trans hyx⟩

/-- Linking `x` in between the last node and the head makes it the new head. -/
theorem Ring.link {a x : α} {l : List α} (h : Ring next prev (a :: l))
    (hnodup : (a :: l).Nodup)
    (hx : next' x = a ∧ prev' x = prev a)
    (hlast : next' (prev a) = x) (hhead : prev' a = x)
    (hnext : ∀ y ∈ a :: l, y ≠ prev a → next' y = next y)
    (hprev : ∀ y ∈ a :: l, y ≠ a → prev' y = prev y) :
    Ring next' prev' (x :: a :: l) := by
  have ha : a ∉ l := (List.nodup_cons.mp hnodup).1
  have hchain := ring_cons_iff.mp h
  have hinner : List.IsChain (Linked next' prev') (a :: l) := by
    refine isChain_relink hchain.left_of_append ?_ ?_
    · intro y hy hyl
      refine hnext y hy ?_
      rintro rfl
      rw [h.next_prev (by simp)] at hyl
      exact ha hyl
    · intro y hy
      refine hprev y (List.mem_cons_of_mem a hy) ?_
      rintro rfl
      exact ha hy
  rw [ring_cons_iff]
  refine List.isChain_cons_cons.mpr ⟨⟨hx.1, hhead⟩, ?_⟩
  refine hinner.append (List.isChain_singleton x) ?_
  intro z hz y hy
  obtain rfl : x = y := by simpa using hy
  have hza := (h.prev_head hz).2
  exact ⟨hza ▸ hlast, hx.2.trans hza⟩

/-- Unlinking the head of a ring of at least two nodes. -/
theorem Ring.unlink_head {a x : α} {l : List α} (h : Ring next prev (x :: a :: l))
    (hnodup : (x :: a :: l).Nodup)
    (hlast : next' (prev x) = a) (hhead : prev' a = prev x)
    (hnext : ∀ y ∈ a :: l, y ≠ prev x → next' y = next y)
    (hprev : ∀ y ∈ a :: l, y ≠ a → prev' y = prev y) :
    Ring next' prev' (a :: l) := by
  obtain ⟨hx, ha⟩ := List.nodup_cons.mp hnodup
  have hal : a ∉ l := (List.nodup_cons.mp ha).1
  have hchain := (List.isChain_cons_cons.mp (ring_cons_iff.mp h)).2
  have hinner : List.IsChain (Linked next' prev') (a :: l) := by
    refine isChain_relink hchain.left_of_append ?_ ?_
    · intro y hy hyl
      refine hnext y hy ?_
      rintro rfl
      rw [h.next_prev (by simp)] at hyl
      exact hx (List.mem_cons_of_mem a hyl)
    · intro y hy
      refine hprev y (List.mem_cons_of_mem a hy) ?_
      rintro rfl
      exact hal hy
  rw [ring_cons_iff]
  refine hinner.append (List.isChain_singleton a) ?_
  intro z hz y hy
  obtain rfl : a = y := by simpa using hy
  have hzx : prev x = z := (h.prev_head (by simpa using hz)).2
  exact ⟨hzx ▸ hlast, hhead.trans hzx⟩

/-- Unlinking a node at any position of a ring of at least two nodes. -/
theorem Ring.unlink {s t : List α} {x : α} (h : Ring next prev (s ++ x :: t))
    (hnodup : (s ++ x :: t).Nodup)
    (hlast : next' (prev x) = next x) (hhead : prev' (next x) = prev x)
    (hnext : ∀ y ∈ s ++ t, y ≠ prev x → next' y = next y)
    (hprev : ∀ y ∈ s ++ t, y ≠ next x → prev' y = prev y) :
    Ring next' prev' (s ++ t) := by
  have hnodup' : (x :: (t ++ s)).Nodup :=
    (List.isRotated_append : s ++ x :: t ~r x :: t ++ s).nodup_iff.mp hnodup
  rw [ring_rotate_iff] at h
  rw [ring_append_comm]
  have hmem : ∀ y, y ∈ t ++ s ↔ y ∈ s ++ t := fun y => by
    simp only [List.mem_append, or_comm]
  rcases hrest : t ++ s with _ | ⟨a, l⟩
  · exact ring_nil
  · simp only [← hmem, hrest] at hnext hprev
    rw [hrest] at h hnodup'
    have hxa := h.next_cons_cons.1
    rw [hxa] at hlast hhead hprev
    exact h.unlink_head hnodup' hlast hhead hnext hprev

end MallocLab.LinkRing
