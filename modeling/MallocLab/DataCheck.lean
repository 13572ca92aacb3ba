import MallocLab.DriverPrograms

/-!
The data check after `mm_realloc`.  `memset` stores the low byte of the index as an
unsigned character, and the comparison reads it back as a signed one.
-/

namespace MallocLab.DataCheck

open MallocLab.ByteMemory
open MallocLab.WordBits
open MallocLab.Machine
open MallocLab.HeapPrograms
open MallocLab.Runs
open MallocLab.MallocPackage
open MallocLab.Mdriver

/-- A character that the comparison lets pass. -/
def Passes (index : Nat) (c : BitVec 8) : Prop := c.toInt = ((index &&& 0xFF : Nat) : Int)

instance (index : Nat) (c : BitVec 8) : Decidable (Passes index c) :=
  inferInstanceAs (Decidable (_ = _))

section Bytes

variable {index : Nat} {c : BitVec 8}

theorem lowByte_lt (index : Nat) : index &&& 0xFF < 256 := Nat.lt_succ_of_le Nat.and_le_right

theorem toNat_fillByte (index : Nat) : (fillByte index).toNat = index &&& 0xFF := by
  rw [fillByte, BitVec.toNat_ofNat]
  exact Nat.mod_eq_of_lt (lowByte_lt index)

/-- A signed character is never 128 or more. -/
theorem not_passes (hlarge : 128 ≤ index &&& 0xFF) (c : BitVec 8) : ¬ Passes index c := by
  have hlt := BitVec.toInt_lt (x := c)
  rw [Passes]
  omega

theorem passes_iff (hsmall : index &&& 0xFF < 128) : Passes index c ↔ c = fillByte index := by
  rw [Passes, BitVec.toInt_eq_toNat_cond]
  have hc := c.isLt
  constructor
  · intro heq
    apply BitVec.eq_of_toNat_eq
    rw [toNat_fillByte]
    split at heq
    · omega
    · omega
  · rintro rfl
    rw [toNat_fillByte, if_pos (by omega)]

end Bytes

section Loop

variable {σ : Type} {P : Package σ} {s : σ} {m : Memory} {newp index : Nat}

/-- The comparison of `n` readable bytes is the conjunction of its tests. -/
theorem compareLoop_run {j n : Nat}
    (hread : ∀ k, j ≤ k → k < j + n → P.readByte s (newp + k) = .ok (m (newp + k))) :
    compareLoop P s newp index j n =
      .ok (decide (∀ k, j ≤ k → k < j + n → Passes index (m (newp + k)))) := by
  induction n generalizing j with
  | zero =>
      have hall : ∀ k, j ≤ k → k < j + 0 → Passes index (m (newp + k)) := by
        intro k hlo hhi
        omega
      rw [decide_eq_true hall]
      rfl
  | succ n ih =>
      have hfirst := hread j le_rfl (by omega)
      have hrest := ih (j := j + 1) fun k hlo hhi => hread k (by omega) (by omega)
      rw [compareLoop, hfirst, ok_bind]
      rcases Decidable.em (Passes index (m (newp + j))) with hpass | hfail
      · have hequal : ¬ (m (newp + j)).toInt ≠ ((index &&& 0xFF : Nat) : Int) := not_not.mpr hpass
        rw [if_neg hequal, hrest]
        congr 2
        apply propext
        constructor
        · intro hall k hlo hhi
          rcases Nat.eq_or_lt_of_le hlo with rfl | hlt
          · exact hpass
          · exact hall k hlt (by omega)
        · intro hall k hlo hhi
          exact hall k (by omega) (by omega)
      · have hnot : ¬ ∀ k, j ≤ k → k < j + (n + 1) → Passes index (m (newp + k)) :=
          fun hall => hfail (hall j le_rfl (by omega))
        have hdiffers : (m (newp + j)).toInt ≠ ((index &&& 0xFF : Nat) : Int) := hfail
        rw [if_pos hdiffers, decide_eq_false hnot]
        rfl

/-- The number of bytes `compareData` looks at. -/
def checkedBytes (oldsize size : BitVec 32) : Nat := (min oldsize.toInt size.toInt).toNat

theorem compareBound_signExtend (oldsize size : BitVec 32) :
    (compareBound (oldsize.signExtend 64) size).toInt.toNat = checkedBytes oldsize size := by
  rw [compareBound, setWidth_signExtend (by decide), checkedBytes]
  split
  · rw [min_eq_right (by omega)]
  · rw [min_eq_left (by omega)]

theorem compareData_run {oldsize size : BitVec 32}
    (hread : ∀ k < checkedBytes oldsize size, P.readByte s (newp + k) = .ok (m (newp + k))) :
    compareData P s newp index (oldsize.signExtend 64) size =
      .ok (decide (∀ k < checkedBytes oldsize size, Passes index (m (newp + k)))) := by
  rw [compareData, compareBound_signExtend,
    compareLoop_run (m := m) fun k _ hlt => hread k (by omega)]
  congr 2
  apply propext
  constructor
  · intro hall k hlt
    exact hall k (Nat.zero_le k) (by omega)
  · intro hall k _ hlt
    exact hall k (by omega)

end Loop

section Heap

variable {h h₁ : Heap} {p newp index n : Nat}

theorem memset_eq_ok {c : BitVec 8} (hrun : (memset p c n).run h = .ok ((), h₁)) :
    h.InHeap p n ∧ h₁ = { h with memory := fill h.memory p c n } := by
  rcases Decidable.em (h.InHeap p n) with hin | hout
  · rw [memset_run hin] at hrun
    cases hrun
    exact ⟨hin, rfl⟩
  · rw [memset, run_bind_of_ok (run_get h), if_neg hout] at hrun
    cases hrun

theorem inHeap_byte (hin : h.InHeap newp n) {k : Nat} (hk : k < n) : h.InHeap (newp + k) 1 := by
  obtain ⟨hlo, hhi⟩ := hin
  constructor
  · omega
  · omega

theorem compareData_heap {oldsize size : BitVec 32}
    (hin : h.InHeap newp (checkedBytes oldsize size)) :
    compareData mmPackage h newp index (oldsize.signExtend 64) size =
      .ok (decide (∀ k < checkedBytes oldsize size, Passes index (h.memory (newp + k)))) :=
  compareData_run fun _ hk => readByte_of_inHeap (inHeap_byte hin hk)

end Heap

/-- The old payload at `p` was filled, and the new one is at `newp`: the comparison
reports no error if the bytes were preserved, and one if they were not. -/
def ChecksExactly (index : Nat) (oldsize size : BitVec 32) : Prop :=
  ∀ (h h₁ h₂ : Heap) (p newp : Nat),
    (memset p (fillByte index) (oldsize.signExtend 64).toNat).run h = .ok ((), h₁) →
    h₂.InHeap newp (checkedBytes oldsize size) →
    ((∀ k < checkedBytes oldsize size, h₂.memory (newp + k) = h₁.memory (p + k)) →
      compareData mmPackage h₂ newp index (oldsize.signExtend 64) size = .ok true) ∧
    ((∃ k < checkedBytes oldsize size, h₂.memory (newp + k) ≠ h₁.memory (p + k)) →
      compareData mmPackage h₂ newp index (oldsize.signExtend 64) size = .ok false)

section Exactness

variable {index : Nat} {oldsize size : BitVec 32}

theorem checkedBytes_le (oldsize size : BitVec 32) :
    checkedBytes oldsize size ≤ (oldsize.signExtend 64).toNat := by
  have hextend : (oldsize.signExtend 64).toInt = oldsize.toInt :=
    BitVec.toInt_signExtend_of_le (by decide)
  have hnat := BitVec.toInt_eq_toNat_cond (oldsize.signExtend 64)
  rw [hextend] at hnat
  have hle : min oldsize.toInt size.toInt ≤ oldsize.toInt := min_le_left _ _
  unfold checkedBytes
  split at hnat
  · omega
  · omega

/-- A heap, reachable or not, with room for `n` bytes. -/
def roomyHeap (n : Nat) : Heap :=
  { memInit sampleArena (fun _ => 0) with memBrk := sampleArena.start + n }

theorem roomyHeap_inHeap (n : Nat) : (roomyHeap n).InHeap sampleArena.start n := ⟨le_rfl, le_rfl⟩

/-- The bytes of the filled payload. -/
theorem filled_byte {h h₁ : Heap} {p n k : Nat} {c : BitVec 8}
    (hfill : (memset p c n).run h = .ok ((), h₁)) (hk : k < n) : h₁.memory (p + k) = c := by
  obtain ⟨-, rfl⟩ := memset_eq_ok hfill
  exact fill_apply_of_mem h.memory c (by omega)

theorem checksExactly_of_small (hsmall : index &&& 0xFF < 128) :
    ChecksExactly index oldsize size := by
  intro h h₁ h₂ p newp hfill hin
  have hle := checkedBytes_le oldsize size
  have hbyte : ∀ k < checkedBytes oldsize size, h₁.memory (p + k) = fillByte index :=
    fun k hk => filled_byte hfill (by omega)
  rw [compareData_heap hin]
  constructor
  · intro hkept
    have hall : ∀ k < checkedBytes oldsize size, Passes index (h₂.memory (newp + k)) := by
      intro k hk
      rw [passes_iff hsmall, hkept k hk, hbyte k hk]
    rw [decide_eq_true hall]
  · rintro ⟨k, hk, hne⟩
    have hnot : ¬ ∀ k < checkedBytes oldsize size, Passes index (h₂.memory (newp + k)) := by
      intro hall
      have hpass := hall k hk
      rw [passes_iff hsmall] at hpass
      exact hne (hpass.trans (hbyte k hk).symm)
    rw [decide_eq_false hnot]

theorem checksExactly_of_none (hnone : checkedBytes oldsize size = 0) :
    ChecksExactly index oldsize size := by
  intro h h₁ h₂ p newp hfill hin
  rw [compareData_heap hin, hnone]
  constructor
  · intro _
    rfl
  · rintro ⟨k, hk, -⟩
    omega

/-- An exact data check needs a byte that is read back as it was written. -/
theorem small_of_checksExactly (hexact : ChecksExactly index oldsize size)
    (hsome : 0 < checkedBytes oldsize size) : index &&& 0xFF < 128 := by
  have hle := checkedBytes_le oldsize size
  have hroom := roomyHeap_inHeap (oldsize.signExtend 64).toNat
  have hfill := memset_run hroom (fillByte index)
  have hin : ({ roomyHeap (oldsize.signExtend 64).toNat with
      memory := fill (roomyHeap (oldsize.signExtend 64).toNat).memory sampleArena.start
        (fillByte index) (oldsize.signExtend 64).toNat } : Heap).InHeap sampleArena.start
        (checkedBytes oldsize size) := by
    obtain ⟨hlo, hhi⟩ := hroom
    exact ⟨hlo, le_trans (Nat.add_le_add_left hle _) hhi⟩
  have hpass := (hexact _ _ _ sampleArena.start sampleArena.start hfill hin).1 fun _ _ => rfl
  rw [compareData_heap hin] at hpass
  have hall := of_decide_eq_true (Except.ok.inj hpass)
  by_contra hlarge
  exact not_passes (by omega) _ (hall 0 hsome)

end Exactness

/-- The data check is exact exactly for the indices whose low byte is below 128,
apart from payloads of which there is nothing to compare. -/
theorem data_check_exact_iff (index : Nat) (oldsize size : BitVec 32) :
    ChecksExactly index oldsize size ↔
      index &&& 0xFF < 128 ∨ oldsize.toInt ≤ 0 ∨ size.toInt ≤ 0 := by
  have hzero : checkedBytes oldsize size = 0 ↔ oldsize.toInt ≤ 0 ∨ size.toInt ≤ 0 := by
    rw [checkedBytes, Int.toNat_eq_zero, min_le_iff]
  constructor
  · intro hexact
    rcases Nat.eq_zero_or_pos (checkedBytes oldsize size) with hnone | hsome
    · exact .inr (hzero.mp hnone)
    · exact .inl (small_of_checksExactly hexact hsome)
  · rintro (hsmall | hnone)
    · exact checksExactly_of_small hsmall
    · exact checksExactly_of_none (hzero.mpr hnone)

/-- The index 200 with eight bytes preserved is reported. -/
theorem data_check_rejects_high_byte : ¬ ChecksExactly 200 8 8 := by
  intro hexact
  have hsmall := small_of_checksExactly hexact (by decide)
  exact absurd hsmall (by decide)

end MallocLab.DataCheck
