import Mathlib.Algebra.BigOperators.Group.List.Basic
import Mathlib.Algebra.Order.Ring.Nat
import Mathlib.Order.Lattice
import Mathlib.Data.List.Basic

/-!
Lists of items that tile an interval: each item starts where its predecessor
stops.  `splice` replaces the items that lie in a given part of the interval.
-/

namespace MallocLab.Tiling

variable {α β : Type*} {lo hi : α → β}

/-- The items of the list cover the interval from the first to the second
bound, without gap and overlap. -/
def Tiles (lo hi : α → β) : β → List α → β → Prop
  | a, [], b => a = b
  | a, x :: xs, b => lo x = a ∧ Tiles lo hi (hi x) xs b

/-- Replace the items starting in `[s, e)` by `new`. -/
def splice [LinearOrder β] (lo : α → β) (s e : β) (new xs : List α) : List α :=
  xs.takeWhile (fun x => lo x < s) ++ new ++ xs.dropWhile (fun x => lo x < e)

@[simp] theorem tiles_nil {a b : β} : Tiles lo hi a [] b ↔ a = b := Iff.rfl

@[simp] theorem tiles_cons {a b : β} {x : α} {xs : List α} :
    Tiles lo hi a (x :: xs) b ↔ lo x = a ∧ Tiles lo hi (hi x) xs b := Iff.rfl

theorem tiles_append {a b : β} {xs ys : List α} :
    Tiles lo hi a (xs ++ ys) b ↔ ∃ m, Tiles lo hi a xs m ∧ Tiles lo hi m ys b := by
  induction xs generalizing a with
  | nil => simp
  | cons x xs ih => simp [ih, and_assoc]

theorem Tiles.stop_unique {a b b' : β} {xs : List α} (h : Tiles lo hi a xs b)
    (h' : Tiles lo hi a xs b') : b = b' := by
  induction xs generalizing a with
  | nil => exact h.symm.trans h'
  | cons x xs ih => exact ih h.2 h'.2

/-- Where a part of the list starts and stops. -/
theorem Tiles.middle {a b s e : β} {pre mid post : List α}
    (h : Tiles lo hi a (pre ++ mid ++ post) b) (hmid : Tiles lo hi s mid e) (hne : mid ≠ []) :
    Tiles lo hi a pre s ∧ Tiles lo hi e post b := by
  obtain ⟨m, hpremid, hpost⟩ := tiles_append.mp h
  obtain ⟨k, hpre, hmid'⟩ := tiles_append.mp hpremid
  obtain ⟨x, xs, rfl⟩ := List.exists_cons_of_ne_nil hne
  have hks : k = s := hmid'.1.symm.trans hmid.1
  subst hks
  have hme := hmid'.stop_unique hmid
  exact ⟨hpre, hme ▸ hpost⟩

theorem Tiles.replace {a b s e : β} {pre mid post new : List α}
    (h : Tiles lo hi a (pre ++ mid ++ post) b) (hmid : Tiles lo hi s mid e) (hne : mid ≠ [])
    (hnew : Tiles lo hi s new e) : Tiles lo hi a (pre ++ new ++ post) b := by
  obtain ⟨hpre, hpost⟩ := h.middle hmid hne
  exact tiles_append.mpr ⟨e, tiles_append.mpr ⟨s, hpre, hnew⟩, hpost⟩

/-- A view of the items that keeps their bounds. -/
theorem Tiles.map {γ : Type*} {lo' hi' : γ → β} {f : α → γ} {a b : β} {xs : List α}
    (h : Tiles lo hi a xs b) (hf : ∀ x ∈ xs, lo' (f x) = lo x ∧ hi' (f x) = hi x) :
    Tiles lo' hi' a (xs.map f) b := by
  induction xs generalizing a with
  | nil => exact h
  | cons x xs ih =>
      obtain ⟨hlo, hhi⟩ := hf x List.mem_cons_self
      obtain ⟨hx, hrest⟩ := h
      refine ⟨hlo.trans hx, ?_⟩
      rw [hhi]
      exact ih hrest fun y hy => hf y (List.mem_cons_of_mem x hy)

/-- What passes from bound to bound of each item holds of all bounds. -/
theorem Tiles.forall_lo {P : β → Prop} {a b : β} {xs : List α} (h : Tiles lo hi a xs b) (ha : P a)
    (hstep : ∀ x ∈ xs, P (lo x) → P (hi x)) : ∀ x ∈ xs, P (lo x) := by
  induction xs generalizing a with
  | nil =>
      intro x hx
      cases hx
  | cons x xs ih =>
      obtain ⟨rfl, hrest⟩ := h
      have hnext := ih hrest (hstep x List.mem_cons_self ha) fun y hy =>
        hstep y (List.mem_cons_of_mem x hy)
      intro y hy
      rcases List.mem_cons.mp hy with rfl | hy
      · exact ha
      · exact hnext y hy

section Proper

variable [LinearOrder β] (hproper : ∀ x, lo x < hi x)
include hproper

theorem Tiles.le {a b : β} {xs : List α} (h : Tiles lo hi a xs b) : a ≤ b := by
  induction xs generalizing a with
  | nil => exact le_of_eq h
  | cons x xs ih =>
      obtain ⟨rfl, hrest⟩ := h
      exact (hproper x).le.trans (ih hrest)

theorem Tiles.bounds {a b : β} {xs : List α} (h : Tiles lo hi a xs b) {x : α} (hx : x ∈ xs) :
    a ≤ lo x ∧ hi x ≤ b := by
  obtain ⟨s, t, rfl⟩ := List.append_of_mem hx
  obtain ⟨m, hs, hm, ht⟩ := tiles_append.mp h
  exact ⟨hm ▸ hs.le hproper, ht.le hproper⟩

theorem Tiles.pairwise {a b : β} {xs : List α} (h : Tiles lo hi a xs b) :
    xs.Pairwise fun x y => hi x ≤ lo y := by
  induction xs generalizing a with
  | nil => exact List.Pairwise.nil
  | cons x xs ih =>
      exact List.pairwise_cons.mpr ⟨fun y hy => (h.2.bounds hproper hy).1, ih h.2⟩

theorem Tiles.eq_or_disjoint {a b : β} {xs : List α} (h : Tiles lo hi a xs b) {x y : α}
    (hx : x ∈ xs) (hy : y ∈ xs) : x = y ∨ hi x ≤ lo y ∨ hi y ≤ lo x := by
  induction xs generalizing a with
  | nil => simp at hx
  | cons z zs ih =>
      rcases List.mem_cons.mp hx with rfl | hxz <;> rcases List.mem_cons.mp hy with rfl | hyz
      · exact .inl rfl
      · exact .inr (.inl (h.2.bounds hproper hyz).1)
      · exact .inr (.inr (h.2.bounds hproper hxz).1)
      · exact ih h.2 hxz hyz

theorem Tiles.eq_of_lo_eq {a b : β} {xs : List α} (h : Tiles lo hi a xs b) {x y : α}
    (hx : x ∈ xs) (hy : y ∈ xs) (hxy : lo x = lo y) : x = y := by
  rcases h.eq_or_disjoint hproper hx hy with heq | hle | hle
  · exact heq
  · exact absurd (hxy ▸ hproper x) (not_lt.mpr hle)
  · exact absurd (hxy ▸ hproper y) (not_lt.mpr hle)

theorem Tiles.eq_of_hi_eq {a b : β} {xs : List α} (h : Tiles lo hi a xs b) {x y : α}
    (hx : x ∈ xs) (hy : y ∈ xs) (hxy : hi x = hi y) : x = y := by
  rcases h.eq_or_disjoint hproper hx hy with heq | hle | hle
  · exact heq
  · exact absurd (hxy ▸ hproper y) (not_lt.mpr hle)
  · exact absurd (hxy.symm ▸ hproper x) (not_lt.mpr hle)

theorem Tiles.splice_eq {a b s e : β} {pre mid post : List α} (new : List α)
    (h : Tiles lo hi a (pre ++ mid ++ post) b) (hmid : Tiles lo hi s mid e) (hne : mid ≠ []) :
    splice lo s e new (pre ++ mid ++ post) = pre ++ new ++ post := by
  obtain ⟨hpre, hpost⟩ := h.middle hmid hne
  have hbefore : ∀ x ∈ pre, lo x < s := fun x hx =>
    (hproper x).trans_le (hpre.bounds hproper hx).2
  have hinside : ∀ x ∈ mid, s ≤ lo x ∧ lo x < e := fun x hx =>
    ⟨(hmid.bounds hproper hx).1, (hproper x).trans_le (hmid.bounds hproper hx).2⟩
  have hafter : ∀ x ∈ post, e ≤ lo x := fun x hx => (hpost.bounds hproper hx).1
  have hse := hmid.le hproper
  have htake : (pre ++ mid ++ post).takeWhile (fun x => lo x < s) = pre := by
    rw [List.append_assoc, List.takeWhile_append_of_pos (by simpa using hbefore)]
    have hstop : (mid ++ post).takeWhile (fun x => lo x < s) = [] := by
      obtain ⟨x, xs, rfl⟩ := List.exists_cons_of_ne_nil hne
      simp [(hinside x (by simp)).1]
    rw [hstop, List.append_nil]
  have hdrop : (pre ++ mid ++ post).dropWhile (fun x => lo x < e) = post := by
    rw [List.dropWhile_append_of_pos]
    · cases post with
      | nil => rfl
      | cons y ys => simp [hafter y (by simp)]
    · intro x hx
      rcases List.mem_append.mp hx with hx | hx
      · simpa using (hbefore x hx).trans_le hse
      · simpa using (hinside x hx).2
  rw [splice, htake, hdrop]

/-- An unfixed item does not stop inside an item of another tiling with the
same fixed items. -/
theorem Tiles.not_hi_lt {P : α → Prop} {a b : β} {x y : α} {xs ys : List α}
    (hx : Tiles lo hi a (x :: xs) b) (hy : Tiles lo hi a (y :: ys) b)
    (hchain : (x :: xs).IsChain fun u v => P u ∨ P v) (hfree : ¬ P x)
    (hfixed : ∀ z ∈ x :: xs, P z → z ∈ y :: ys) : ¬ hi x < hi y := by
  intro hlt
  have hyb := (hy.bounds hproper List.mem_cons_self).2
  have hxy : lo y = lo x := hy.1.trans hx.1.symm
  obtain ⟨-, hrest⟩ := hx
  rcases xs with _ | ⟨z, zs⟩
  · exact absurd (hlt.trans_le hyb) (not_lt.mpr (le_of_eq hrest.symm))
  · obtain ⟨hxz, -⟩ := List.isChain_cons_cons.mp hchain
    have hz := hfixed z (by simp) (hxz.resolve_left hfree)
    have hlo : lo z = hi x := hrest.1
    have hbefore : lo y < lo z := by
      rw [hxy, hlo]
      exact hproper x
    rcases hy.eq_or_disjoint hproper hz List.mem_cons_self with rfl | hd | hd
    · exact absurd hbefore (lt_irrefl _)
    · exact absurd (hbefore.trans (hproper z)) (not_lt.mpr hd)
    · exact absurd (hlo ▸ hlt) (not_lt.mpr hd)

/-- A tiling in which no two unfixed items are neighbours is determined by its
fixed items. -/
theorem Tiles.unique {P : α → Prop} (hext : ∀ x y, ¬ P x → ¬ P y → lo x = lo y → hi x = hi y → x = y)
    {a b : β} {xs ys : List α} (hxs : Tiles lo hi a xs b) (hys : Tiles lo hi a ys b)
    (hxchain : xs.IsChain fun u v => P u ∨ P v) (hychain : ys.IsChain fun u v => P u ∨ P v)
    (hfixed : ∀ z, P z → (z ∈ xs ↔ z ∈ ys)) : xs = ys := by
  induction xs generalizing a ys with
  | nil =>
      rcases ys with _ | ⟨y, ys⟩
      · rfl
      · obtain rfl : a = b := hxs
        have hbounds := hys.bounds hproper (x := y) List.mem_cons_self
        exact absurd (hproper y) (not_lt.mpr (hbounds.2.trans hbounds.1))
  | cons x xs ih =>
      rcases ys with _ | ⟨y, ys⟩
      · obtain rfl : a = b := hys
        have hbounds := hxs.bounds hproper (x := x) List.mem_cons_self
        exact absurd (hproper x) (not_lt.mpr (hbounds.2.trans hbounds.1))
      · have hlo : lo x = lo y := hxs.1.trans hys.1.symm
        have hhead : x = y := by
          rcases Classical.em (P x) with hx | hx
          · exact hys.eq_of_lo_eq hproper ((hfixed x hx).mp List.mem_cons_self) List.mem_cons_self hlo
          · rcases Classical.em (P y) with hy | hy
            · exact hxs.eq_of_lo_eq hproper List.mem_cons_self ((hfixed y hy).mpr List.mem_cons_self) hlo
            · have hle := not_lt.mp (hxs.not_hi_lt hproper hys hxchain hx fun z hz hP =>
                (hfixed z hP).mp hz)
              have hge := not_lt.mp (hys.not_hi_lt hproper hxs hychain hy fun z hz hP =>
                (hfixed z hP).mpr hz)
              exact hext x y hx hy hlo (le_antisymm hge hle)
        subst hhead
        have hnotMem : ∀ {zs : List α}, Tiles lo hi (hi x) zs b → x ∉ zs := fun hzs hmem =>
          absurd (hproper x) (not_lt.mpr (hzs.bounds hproper hmem).1)
        refine congrArg (x :: ·) (ih hxs.2 hys.2 hxchain.of_cons hychain.of_cons fun z hz => ?_)
        have hiff := hfixed z hz
        simp only [List.mem_cons] at hiff
        constructor
        · intro hmem
          refine (hiff.mp (.inr hmem)).resolve_left ?_
          rintro rfl
          exact hnotMem hxs.2 hmem
        · intro hmem
          refine (hiff.mpr (.inr hmem)).resolve_left ?_
          rintro rfl
          exact hnotMem hys.2 hmem

end Proper

/-- An interval of numbers has room for no more items than it is long. -/
theorem Tiles.add_length_le {lo hi : α → Nat} (hproper : ∀ x, lo x < hi x) {a b : Nat}
    {xs : List α} (h : Tiles lo hi a xs b) : a + xs.length ≤ b := by
  induction xs generalizing a with
  | nil => exact le_of_eq h
  | cons x xs ih =>
      obtain ⟨rfl, hrest⟩ := h
      have hlen := ih hrest
      have hpos := hproper x
      rw [List.length_cons]
      omega

/-- The items are as long together as the interval. -/
theorem Tiles.sum_length {lo hi : α → Nat} (hproper : ∀ x, lo x < hi x) {a b : Nat}
    {xs : List α} (h : Tiles lo hi a xs b) : a + (xs.map fun x => hi x - lo x).sum = b := by
  induction xs generalizing a with
  | nil => exact h
  | cons x xs ih =>
      obtain ⟨rfl, hrest⟩ := h
      have hsum := ih hrest
      have hpos := hproper x
      rw [List.map_cons, List.sum_cons]
      omega

section Spans

variable {P : α → Prop} [DecidablePred P] {len : α → Nat} {c : Nat} {xs : List α}

/-- Between any two short items there is a fixed one: how much the short items add to the
fixed ones, for a list that starts with a fixed item and for any list. -/
theorem sum_le_of_isChain_aux (hchain : xs.IsChain fun u v => P u ∨ P v)
    (hshort : ∀ x ∈ xs, ¬ P x → len x ≤ c) :
    ((∀ x ∈ xs.head?, P x) →
      (xs.map len).sum ≤ ((xs.filter P).map len).sum + (xs.filter P).length * c) ∧
    (xs.map len).sum ≤ ((xs.filter P).map len).sum + ((xs.filter P).length + 1) * c := by
  induction xs with
  | nil => simp
  | cons x xs ih =>
      obtain ⟨hhead, hany⟩ := ih hchain.of_cons fun y hy => hshort y (List.mem_cons_of_mem x hy)
      by_cases hx : P x
      · have hfixed : ((x :: xs).map len).sum ≤
            (((x :: xs).filter P).map len).sum + ((x :: xs).filter P).length * c := by
          rw [List.filter_cons_of_pos (by simpa using hx), List.map_cons, List.sum_cons,
            List.map_cons, List.sum_cons, List.length_cons, Nat.add_assoc]
          exact Nat.add_le_add_left hany (len x)
        refine ⟨fun _ => hfixed, hfixed.trans ?_⟩
        exact Nat.add_le_add_left (Nat.mul_le_mul_right c (Nat.le_succ _)) _
      · have hnext : ∀ y ∈ xs.head?, P y := by
          intro y hy
          obtain ⟨ys, rfl⟩ : ∃ ys, xs = y :: ys := by
            rcases xs with _ | ⟨z, zs⟩
            · cases hy
            · exact ⟨zs, by rw [Option.mem_some_iff.mp hy]⟩
          exact (List.isChain_cons_cons.mp hchain).1.resolve_left hx
        refine ⟨fun hfirst => absurd (hfirst x rfl) hx, ?_⟩
        have hlen := hshort x List.mem_cons_self hx
        have hrest := hhead hnext
        rw [List.filter_cons_of_neg (by simpa using hx), List.map_cons, List.sum_cons, Nat.add_mul,
          Nat.one_mul]
        omega

theorem sum_le_of_isChain (hchain : xs.IsChain fun u v => P u ∨ P v)
    (hshort : ∀ x ∈ xs, ¬ P x → len x ≤ c) :
    (xs.map len).sum ≤ ((xs.filter P).map len).sum + ((xs.filter P).length + 1) * c :=
  (sum_le_of_isChain_aux hchain hshort).2

end Spans

end MallocLab.Tiling
