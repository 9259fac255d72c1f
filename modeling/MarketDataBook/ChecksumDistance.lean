import MarketDataBook.Library.ErrorPatterns
import MarketDataBook.Library.PackedLanes
import MarketDataBook.WriteAheadLog

/-! The Hamming distance of the frame checksum. An odd number of flipped bits shows in the
parity of the register; two or four of them would have to cancel among the first 511 shifts of a
single bit, which the kernel rules out by computation. -/
namespace MarketDataBook
open ByteMemory ShiftRegister

def shiftNat (c : Nat) : Nat := c / 2 ^^^ c % 2 * 0x82F63B78

theorem toNat_shift (c : BitVec 32) : (shift crcPolynomial c).toNat = shiftNat c.toNat := by
  have hpoly : crcPolynomial.toNat = 0x82F63B78 := by decide +kernel
  rw [shift, shiftNat, BitVec.toNat_xor, BitVec.toNat_ushiftRight, Nat.shiftRight_eq_div_pow,
    Nat.pow_one, BitVec.getLsbD, Nat.testBit_zero]
  obtain h0 | h1 := Nat.mod_two_eq_zero_or_one c.toNat
  · rw [h0]
    rfl
  · rw [h1]
    simp [hpoly]

theorem toNat_iterate_shift (n : Nat) (c : BitVec 32) :
    ((shift crcPolynomial)^[n] c).toNat = shiftNat^[n] c.toNat := by
  induction n generalizing c with
  | zero => rfl
  | succ n ih => rw [Function.iterate_succ_apply, Function.iterate_succ_apply, ih, toNat_shift]

/-- The shifts of a single bit up to the 511th, each against all differences of two of them. -/
theorem shiftNat_noCancellation : PackedLanes.noCancellation shiftNat 32 1 511 256 = true := by
  decide +kernel

theorem shifted_bit_lt (n : Nat) : shiftNat^[n] 1 < 2 ^ 32 := by
  have h := (((shift crcPolynomial)^[n] 1#32)).isLt
  rw [toNat_iterate_shift] at h
  exact h

/-- Any two shifts of the bit are at most half of the 511 apart, one way round or the other. -/
theorem shiftNat_ne {a b c : Nat} (ha : 1 ≤ a ∧ a ≤ 511) (hb : 1 ≤ b) (hbc : b ≤ c)
    (hc : c ≤ 511) : shiftNat^[b] 1 ^^^ shiftNat^[c] 1 ≠ 1 ^^^ shiftNat^[a] 1 := by
  obtain ⟨a, rfl⟩ : ∃ k, a = k + 1 := ⟨a - 1, by omega⟩
  obtain ⟨b, rfl⟩ : ∃ k, b = k + 1 := ⟨b - 1, by omega⟩
  obtain ⟨c, rfl⟩ : ∃ k, c = k + 1 := ⟨c - 1, by omega⟩
  obtain hnear | hfar := Nat.lt_or_ge (c - b) 256
  · have hpos : (b + (c - b)) % 511 = c := by omega
    have hne := PackedLanes.xor_ne_of_noCancellation shifted_bit_lt (by decide)
      shiftNat_noCancellation (a := a) (b := b) (r := c - b) (by omega) (by omega) hnear
    rw [hpos] at hne
    exact hne
  · have hpos : (c + (511 - (c - b))) % 511 = b := by omega
    have hne := PackedLanes.xor_ne_of_noCancellation shifted_bit_lt (by decide)
      shiftNat_noCancellation (a := a) (b := c) (r := 511 - (c - b)) (by omega) (by omega)
      (by omega)
    rw [hpos, Nat.xor_comm] at hne
    exact hne

theorem shifted_bits_ne {a b c : Nat} (ha : 1 ≤ a ∧ a ≤ 511) (hb : 1 ≤ b) (hbc : b ≤ c)
    (hc : c ≤ 511) : (shift crcPolynomial)^[b] 1#32 ^^^ (shift crcPolynomial)^[c] 1#32 ≠
      1#32 ^^^ (shift crcPolynomial)^[a] 1#32 := by
  intro h
  have hnat := congrArg BitVec.toNat h
  simp only [BitVec.toNat_xor, toNat_iterate_shift] at hnat
  exact shiftNat_ne ha hb hbc hc hnat

theorem superpose_two_ne_zero {d : Nat} (hd : 1 ≤ d ∧ d ≤ 511) :
    superpose crcPolynomial [d, 0] ≠ 0#32 := by
  intro h
  have hd1 : (shift crcPolynomial)^[d] 1#32 = 1#32 := by
    simpa [superpose] using h
  apply shifted_bits_ne hd (Nat.le_refl 1) (Nat.le_refl 1) (by decide)
  rw [hd1, BitVec.xor_self, BitVec.xor_self]

theorem superpose_four_ne_zero {a b c : Nat} (ha : 1 ≤ a) (hab : a < b) (hbc : b < c)
    (hc : c ≤ 511) : superpose crcPolynomial [c, b, a, 0] ≠ 0#32 := by
  intro h
  have hlast : (shift crcPolynomial)^[c] 1#32 =
      (shift crcPolynomial)^[b] 1#32 ^^^ ((shift crcPolynomial)^[a] 1#32 ^^^ 1#32) := by
    simpa [superpose] using BitVec.xor_eq_zero_iff.mp h
  apply shifted_bits_ne ⟨ha, by omega⟩ (show 1 ≤ b by omega) (Nat.le_of_lt hbc) hc
  rw [hlast, ← BitVec.xor_assoc, BitVec.xor_self, BitVec.zero_xor, BitVec.xor_comm]

theorem crcPolynomial_parity : parity crcPolynomial = true := by decide +kernel

/-- The least number of shifts is common to all errors of a pattern. -/
theorem superpose_pair_ne_zero {p m : Nat} (hpm : m < p) (hp : p ≤ 512) (hm : 1 ≤ m) :
    superpose crcPolynomial [p, m] ≠ 0#32 := by
  have hks : [p, m] = [p - m, 0].map (· + m) := by
    simp only [List.map_cons, List.map_nil, Nat.zero_add, List.cons.injEq, and_true]
    omega
  rw [hks, superpose_add]
  intro hz
  exact superpose_two_ne_zero ⟨by omega, by omega⟩ (iterate_shift_eq_zero crcPolynomial_top hz)

theorem superpose_quad_ne_zero {p q r m : Nat} (hpq : q < p) (hqr : r < q) (hrm : m < r)
    (hp : p ≤ 512) (hm : 1 ≤ m) : superpose crcPolynomial [p, q, r, m] ≠ 0#32 := by
  have hks : [p, q, r, m] = [p - m, q - m, r - m, 0].map (· + m) := by
    simp only [List.map_cons, List.map_nil, Nat.zero_add, List.cons.injEq, and_true]
    omega
  rw [hks, superpose_add]
  intro hz
  exact superpose_four_ne_zero (by omega) (by omega) (by omega) (by omega)
    (iterate_shift_eq_zero crcPolynomial_top hz)

/-- No pattern of one to five errors among 512 bits leaves the register at zero. -/
theorem superpose_ne_zero {ks : List Nat} (hs : ks.Pairwise (· > ·))
    (hb : ∀ k ∈ ks, 1 ≤ k ∧ k ≤ 512) (h1 : 1 ≤ ks.length) (h5 : ks.length ≤ 5) :
    superpose crcPolynomial ks ≠ 0#32 := by
  have hodd : ks.length % 2 = 1 → superpose crcPolynomial ks ≠ 0#32 :=
    superpose_ne_zero_of_odd crcPolynomial_parity (by decide)
  match ks, h1, h5 with
  | [_], _, _ => exact hodd (by simp)
  | [_, _, _], _, _ => exact hodd (by simp)
  | [_, _, _, _, _], _, _ => exact hodd (by simp)
  | [p, m], _, _ =>
    have hpm : p > m := by simpa using hs
    exact superpose_pair_ne_zero hpm (hb p (by simp)).2 (hb m (by simp)).1
  | [p, q, r, m], _, _ =>
    obtain ⟨⟨hpq, -, -⟩, ⟨hqr, -⟩, hrm⟩ : (p > q ∧ p > r ∧ p > m) ∧ (q > r ∧ q > m) ∧ r > m := by
      simpa [and_assoc] using hs
    exact superpose_quad_ne_zero hpq hqr hrm (hb p (by simp)).2 (hb m (by simp)).1

theorem count_mem {positions : Finset Nat} {n : Nat} (h : ∀ i ∈ positions, i < n) :
    ((List.range n).map fun i => decide (i ∈ positions)).count true = positions.card := by
  have hfilter : ((List.range n).filter fun i => decide (i ∈ positions)).toFinset = positions := by
    ext i
    simpa using h i
  rw [← hfilter, List.toFinset_card_of_nodup (List.nodup_range.filter _), hfilter, List.count,
    List.countP_map, List.countP_eq_length_filter]
  congr 2
  funext i
  simp

/-- One to five flipped bits of a valid frame, the stored checksum included, are detected. -/
theorem flips_detected {data : Memory} {positions : Finset Nat} (hv : validChecksum data = true)
    (hmem : ∀ i ∈ positions, i < 512) (h1 : 1 ≤ positions.card) (h5 : positions.card ≤ 5) :
    validChecksum (flipBits data positions) = false := by
  rw [Bool.eq_false_iff, ne_eq, validChecksum_iff]
  have hx := absorb_xor crcPolynomial 0#32 0#32 (bit data) (fun i => decide (i ∈ positions))
    (List.range 512)
  rw [BitVec.xor_self, (validChecksum_iff data).mp hv, BitVec.zero_xor] at hx
  have hmap : (List.range 512).map (bit (flipBits data positions)) =
      (List.range 512).map fun i => xor (bit data i) (decide (i ∈ positions)) :=
    List.map_congr_left fun i _ => bit_flipBits data positions i
  rw [hmap, hx, absorb_eq_superpose]
  have hlen := (length_shifts _).trans (count_mem hmem)
  refine superpose_ne_zero (shifts_pairwise _) ?_ (by omega) (by omega)
  intro k hk
  have hk' := shifts_bounds hk
  rw [List.length_map, List.length_range] at hk'
  exact hk'

/-- The frame of a logged add order with five bits flipped, from the marker to the checksum. -/
theorem add_frame_flips_detected :
    validChecksum (frameAt (orderAndCancel.foldl logPayload .new).logger.mem 0) = true ∧
      validChecksum (flipBits (frameAt (orderAndCancel.foldl logPayload .new).logger.mem 0)
        {0, 130, 333, 479, 511}) = false := by
  have hv := ((written_logAll orderAndCancel).frames 0 _ rfl).checksum
  exact ⟨hv, flips_detected hv (by decide) (by decide) (by decide)⟩

end MarketDataBook
