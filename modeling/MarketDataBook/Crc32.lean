import MarketDataBook.Library.ByteMemory
import MarketDataBook.Library.ShiftRegister
import Mathlib.Data.Finset.Card

/-! `utils/crc32.h` over CRC-32C as a bit register. The eight chained steps read the 480
bits before the stored checksum in memory order, so a frame is valid exactly when its 512
bits leave the register at zero. -/
namespace MarketDataBook
open ByteMemory ShiftRegister

/-- The Castagnoli polynomial, bit reversed as `crc32` computes with it. -/
def crcPolynomial : BitVec 32 := (0x1EDC6F41#32).reverse

example : crcPolynomial = 0x82F63B78#32 := by decide +kernel

def wordBits {w : Nat} (v : BitVec w) : List Bool := (List.range w).map v.getLsbD

def mmCrc32U64 (crc v : BitVec 64) : BitVec 64 :=
  (absorb crcPolynomial (crc.setWidth 32) (wordBits v)).setWidth 64

def mmCrc32U32 (crc v : BitVec 32) : BitVec 32 := absorb crcPolynomial crc (wordBits v)

def calculateCrc32 (data : Memory) : BitVec 32 :=
  let crc : BitVec 64 := 0#64
  let crc := mmCrc32U64 crc (load data 0 8)
  let crc := mmCrc32U64 crc (load data 8 8)
  let crc := mmCrc32U64 crc (load data 16 8)
  let crc := mmCrc32U64 crc (load data 24 8)
  let crc := mmCrc32U64 crc (load data 32 8)
  let crc := mmCrc32U64 crc (load data 40 8)
  let crc := mmCrc32U64 crc (load data 48 8)
  mmCrc32U32 (crc.setWidth 32) (load data 56 4)

theorem crcPolynomial_top : crcPolynomial.getLsbD (32-1) = true := by decide +kernel

theorem setWidth_setWidth_of_le (c : BitVec 32) : (c.setWidth 64).setWidth 32 = c := by
  rw [BitVec.setWidth_setWidth_of_le c (by decide), BitVec.setWidth_eq]

theorem wordBits_load (data : Memory) (addr n : Nat) :
    wordBits (load data addr n) = (List.range' (8 * addr) (8 * n)).map (bit data) := by
  rw [wordBits, List.range'_eq_map_range, List.map_map]
  apply List.map_congr_left
  intro i hi
  exact getLsbD_load data addr n (List.mem_range.mp hi)

/-- The checksum absorbs the first 480 bits in memory order. -/
theorem calculateCrc32_eq (data : Memory) :
    calculateCrc32 data = absorb crcPolynomial 0#32 ((List.range 480).map (bit data)) := by
  have hsplit : List.range 480 = List.range' 0 64 ++ List.range' 64 64 ++ List.range' 128 64 ++
      List.range' 192 64 ++ List.range' 256 64 ++ List.range' 320 64 ++ List.range' 384 64 ++
      List.range' 448 32 := by decide +kernel
  simp only [calculateCrc32, mmCrc32U64, mmCrc32U32, setWidth_setWidth_of_le, wordBits_load, hsplit,
    List.map_append, absorb_append]
  rfl

theorem calculateCrc32_congr {data data' : Memory} (h : ∀ i < 60, data' i = data i) :
    calculateCrc32 data' = calculateCrc32 data := by
  rw [calculateCrc32_eq, calculateCrc32_eq]
  congr 1
  apply List.map_congr_left
  intro i hi
  have hlt : i < 480 := List.mem_range.mp hi
  rw [bit, bit, h (i / 8) (by omega)]

def validChecksum (data : Memory) : Bool := calculateCrc32 data = load data 60 4

theorem validChecksum_congr {data data' : Memory} (h : ∀ i < 64, data' i = data i) :
    validChecksum data' = validChecksum data := by
  have hl : load data' 60 4 = load data 60 4 := load_congr fun i hi => h (60 + i) (by omega)
  rw [validChecksum, validChecksum, calculateCrc32_congr fun i hi => h i (by omega), hl]

theorem ofBits_load (data : Memory) (addr : Nat) :
    ofBits ((List.range' (8 * addr) 32).map (bit data)) = load data addr 4 := by
  apply BitVec.eq_of_getLsbD_eq
  intro i hi
  rw [getLsbD_ofBits _ hi, getLsbD_load data addr 4 hi]
  simp [List.getD, hi]

theorem validChecksum_iff (data : Memory) : validChecksum data = true ↔
    absorb crcPolynomial 0#32 ((List.range 512).map (bit data)) = 0#32 := by
  have hsplit : List.range 512 = List.range 480 ++ List.range' (8 * 60) 32 := by decide +kernel
  rw [validChecksum, decide_eq_true_iff, hsplit, List.map_append, absorb_append,
    ← calculateCrc32_eq, absorb_word_eq_zero_iff crcPolynomial_top _ (by simp), ofBits_load]

/-- Any burst of at most 32 bits, the stored checksum included, is detected. -/
theorem burst_detected {data data' : Memory} {e : Nat → Bool} {start : Nat}
    (hv : validChecksum data = true)
    (hbits : ∀ i < 512, bit data' i = xor (bit data i) (e i))
    (hburst : ∀ i, e i = true → start ≤ i ∧ i < start + 32) (hne : ∃ i < 512, e i = true) :
    validChecksum data' = false := by
  rw [Bool.eq_false_iff, ne_eq, validChecksum_iff]
  have hmap : (List.range 512).map (bit data') =
      (List.range 512).map fun i => xor (bit data i) (e i) := by
    apply List.map_congr_left
    intro i hi
    exact hbits i (List.mem_range.mp hi)
  have hx := absorb_xor crcPolynomial 0#32 0#32 (bit data) e (List.range 512)
  rw [BitVec.xor_self, (validChecksum_iff data).mp hv, BitVec.zero_xor] at hx
  rw [hmap, hx]
  exact absorb_burst_ne_zero crcPolynomial_top hburst hne

def flipBits (data : Memory) (positions : Finset Nat) : Memory := fun a =>
  data a ^^^ ofBits ((List.range 8).map fun j => decide (8 * a + j ∈ positions))

theorem bit_flipBits (data : Memory) (positions : Finset Nat) (i : Nat) :
    bit (flipBits data positions) i = xor (bit data i) (decide (i ∈ positions)) := by
  have hlt : i % 8 < 8 := Nat.mod_lt i (by decide)
  have hpos : 8 * (i / 8) + i % 8 = i := by omega
  rw [bit, flipBits, BitVec.getLsbD_xor, getLsbD_ofBits _ hlt, bit]
  simp [List.getD, hlt, hpos]

theorem flipBits_of_lt {data : Memory} {positions : Finset Nat} {n a : Nat}
    (h : ∀ i ∈ positions, 8 * n ≤ i) (ha : a < n) : flipBits data positions a = data a := by
  apply BitVec.eq_of_getLsbD_eq
  intro j hj
  have hbit := bit_flipBits data positions (8 * a + j)
  have hnot : 8 * a + j ∉ positions := fun hmem => by
    have hle := h _ hmem
    omega
  have hdiv : (8 * a + j) / 8 = a := by omega
  have hmod : (8 * a + j) % 8 = j := by omega
  rw [bit, bit, hdiv, hmod, decide_eq_false hnot, Bool.xor_false] at hbit
  exact hbit

end MarketDataBook
