import Mathlib.Data.BitVec

/-!
Byte-addressed memory with little-endian access to fields of any byte width.
Addresses are natural numbers; a field of `n` bytes occupies `[a, a + n)`.
-/

namespace MallocLab.ByteMemory

/-- A memory assigns a byte to every address. -/
abbrev Memory := Nat → BitVec 8

/-- The `n`-byte little-endian field at address `a`. -/
def load (m : Memory) (a : Nat) : (n : Nat) → BitVec (8 * n)
  | 0 => 0#0
  | n + 1 => load m (a + 1) n ++ m a

/-- Overwrite the `n`-byte field at address `a`. -/
def store {n : Nat} (m : Memory) (a : Nat) (w : BitVec (8 * n)) : Memory :=
  fun x => if a ≤ x ∧ x < a + n then w.extractLsb' (8 * (x - a)) 8 else m x

/-- Copy `n` bytes from `src` to `dst`.  All bytes are read before any is
written, so the two ranges may overlap. -/
def copy (m : Memory) (dst src n : Nat) : Memory :=
  fun x => if dst ≤ x ∧ x < dst + n then m (src + (x - dst)) else m x

/-- Overwrite `n` bytes from `a` on with `c`. -/
def fill (m : Memory) (a : Nat) (c : BitVec 8) (n : Nat) : Memory :=
  fun x => if a ≤ x ∧ x < a + n then c else m x

theorem store_apply_of_mem {n : Nat} (m : Memory) {a x : Nat} (w : BitVec (8 * n))
    (hx : a ≤ x ∧ x < a + n) :
    store m a w x = w.extractLsb' (8 * (x - a)) 8 :=
  if_pos hx

theorem store_apply_of_not_mem {n : Nat} (m : Memory) {a x : Nat} (w : BitVec (8 * n))
    (hx : x < a ∨ a + n ≤ x) :
    store m a w x = m x :=
  if_neg (by omega)

theorem copy_apply_of_mem (m : Memory) {dst src n x : Nat}
    (hx : dst ≤ x ∧ x < dst + n) :
    copy m dst src n x = m (src + (x - dst)) :=
  if_pos hx

theorem copy_apply_of_not_mem (m : Memory) {dst src n x : Nat}
    (hx : x < dst ∨ dst + n ≤ x) :
    copy m dst src n x = m x :=
  if_neg (by omega)

theorem fill_apply_of_mem (m : Memory) {a x n : Nat} (c : BitVec 8)
    (hx : a ≤ x ∧ x < a + n) :
    fill m a c n x = c :=
  if_pos hx

theorem fill_apply_of_not_mem (m : Memory) {a x n : Nat} (c : BitVec 8)
    (hx : x < a ∨ a + n ≤ x) :
    fill m a c n x = m x :=
  if_neg (by omega)

theorem load_congr {m m' : Memory} {a n : Nat}
    (h : ∀ x, a ≤ x → x < a + n → m x = m' x) : load m a n = load m' a n := by
  induction n generalizing a with
  | zero => rfl
  | succ n ih =>
      have htail : load m (a + 1) n = load m' (a + 1) n :=
        ih fun x hlo hhi => h x (by omega) (by omega)
      simp only [load]
      rw [htail, h a (by omega) (by omega)]

theorem getLsbD_load (m : Memory) (a n i : Nat) (hi : i < 8 * n) :
    (load m a n).getLsbD i = (m (a + i / 8)).getLsbD (i % 8) := by
  induction n generalizing a i with
  | zero => omega
  | succ n ih =>
      simp only [load]
      rw [BitVec.getLsbD_append]
      by_cases hlow : i < 8
      · simp [hlow, Nat.div_eq_of_lt hlow, Nat.mod_eq_of_lt hlow]
      · have hdiv : a + 1 + (i - 8) / 8 = a + i / 8 := by omega
        have hmod : (i - 8) % 8 = i % 8 := by omega
        rw [ih (a + 1) (i - 8) (by omega), hdiv, hmod]
        simp [hlow]

/-- A field read back after it was written. -/
theorem load_store_self {n : Nat} (m : Memory) (a : Nat) (w : BitVec (8 * n)) :
    load (store m a w) a n = w := by
  apply BitVec.eq_of_getLsbD_eq
  intro i hi
  have hbyte : a ≤ a + i / 8 ∧ a + i / 8 < a + n := by omega
  have hoffset : 8 * (a + i / 8 - a) + i % 8 = i := by omega
  rw [getLsbD_load _ _ _ _ hi, store_apply_of_mem m w hbyte,
    BitVec.getLsbD_extractLsb', hoffset]
  simp [Nat.mod_lt]

/-- Writing one field leaves every disjoint field alone. -/
theorem load_store_of_disjoint {n k : Nat} (m : Memory) {a b : Nat} (w : BitVec (8 * n))
    (h : a + n ≤ b ∨ b + k ≤ a) :
    load (store m a w) b k = load m b k :=
  load_congr fun _ _ _ => store_apply_of_not_mem m w (by omega)

theorem store_store_self {n : Nat} (m : Memory) (a : Nat) (v w : BitVec (8 * n)) :
    store (store m a v) a w = store m a w := by
  funext x
  by_cases hx : a ≤ x ∧ x < a + n
  · rw [store_apply_of_mem _ _ hx, store_apply_of_mem _ _ hx]
  · rw [store_apply_of_not_mem _ _ (by omega), store_apply_of_not_mem _ _ (by omega),
      store_apply_of_not_mem _ _ (by omega)]

theorem store_comm {n k : Nat} (m : Memory) {a b : Nat}
    (v : BitVec (8 * n)) (w : BitVec (8 * k)) (h : a + n ≤ b ∨ b + k ≤ a) :
    store (store m a v) b w = store (store m b w) a v := by
  funext x
  by_cases ha : a ≤ x ∧ x < a + n
  · rw [store_apply_of_not_mem _ _ (by omega), store_apply_of_mem _ _ ha,
      store_apply_of_mem _ _ ha]
  · rw [store_apply_of_not_mem (store m b w) _ (by omega)]
    by_cases hb : b ≤ x ∧ x < b + k
    · rw [store_apply_of_mem _ _ hb, store_apply_of_mem _ _ hb]
    · rw [store_apply_of_not_mem _ _ (by omega), store_apply_of_not_mem _ _ (by omega),
        store_apply_of_not_mem _ _ (by omega)]

end MallocLab.ByteMemory
