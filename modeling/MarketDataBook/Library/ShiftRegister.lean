import Mathlib.Data.BitVec
import Mathlib.Logic.Function.Iterate

/-! Reflected linear feedback shift registers of any width. The register is linear over
exclusive or, loses nothing when its polynomial has the top bit set, and therefore tells
apart any two inputs that differ in a burst no longer than the register. -/
namespace ShiftRegister
variable {w : Nat}

def ofBit (b : Bool) : BitVec w := if b then 1#w else 0#w

def shift (poly c : BitVec w) : BitVec w := (c >>> 1) ^^^ (if c.getLsbD 0 then poly else 0#w)

def feed (poly c : BitVec w) (b : Bool) : BitVec w := shift poly (c ^^^ ofBit b)

def absorb (poly c : BitVec w) (bits : List Bool) : BitVec w := bits.foldl (feed poly) c

/-- The first bit of the list is the lowest of the word. -/
def ofBits : List Bool → BitVec w
  | [] => 0#w
  | b::bs => ofBit b ^^^ (ofBits bs <<< 1)

theorem ofBit_xor (a b : Bool) : (ofBit (xor a b) : BitVec w) = ofBit a ^^^ ofBit b := by
  cases a <;> cases b <;> simp [ofBit]

theorem shift_zero (poly : BitVec w) : shift poly 0#w = 0#w := by
  simp [shift]

theorem shift_xor (poly a b : BitVec w) : shift poly (a ^^^ b) = shift poly a ^^^ shift poly b := by
  have hs : (a ^^^ b) >>> 1 = (a >>> 1) ^^^ (b >>> 1) := BitVec.ushiftRight_xor_distrib ..
  apply BitVec.eq_of_getLsbD_eq
  intro i _
  simp only [shift, hs, BitVec.getLsbD_xor]
  cases a.getLsbD 0 <;> cases b.getLsbD 0 <;>
    cases (a >>> 1).getLsbD i <;> cases (b >>> 1).getLsbD i <;> cases hp : poly.getLsbD i <;>
    simp [hp]

/-- With the top bit of the polynomial set the shift loses nothing. -/
theorem shift_eq_zero {poly : BitVec w} (hp : poly.getLsbD (w-1) = true) {c : BitVec w}
    (h : shift poly c = 0#w) : c = 0#w := by
  have hw : 0 < w := by
    by_contra hw
    have hw0 : w - 1 ≥ w := by omega
    rw [BitVec.getLsbD_of_ge _ _ hw0] at hp
    cases hp
  have hlow : c.getLsbD 0 = false := by
    by_contra hl
    have htop := congrArg (fun x => x.getLsbD (w-1)) h
    have hout : (c >>> 1).getLsbD (w-1) = false := by
      rw [BitVec.getLsbD_ushiftRight]
      exact BitVec.getLsbD_of_ge _ _ (by omega)
    have hl' : c.getLsbD 0 = true := by simpa using hl
    simp only [shift, hl', if_true, BitVec.getLsbD_xor, hout, hp] at htop
    simp at htop
  apply BitVec.eq_of_getLsbD_eq
  intro i hi
  cases i with
  | zero => simpa using hlow
  | succ i =>
    have hbit := congrArg (fun x => x.getLsbD i) h
    simp only [shift, hlow, BitVec.getLsbD_xor, BitVec.getLsbD_ushiftRight] at hbit
    simpa [Nat.add_comm] using hbit

theorem iterate_shift_zero (poly : BitVec w) (n : Nat) : (shift poly)^[n] 0#w = 0#w := by
  induction n with
  | zero => rfl
  | succ n ih => rw [Function.iterate_succ_apply, shift_zero, ih]

theorem iterate_shift_eq_zero {poly : BitVec w} (hp : poly.getLsbD (w-1) = true) {n : Nat}
    {c : BitVec w} (h : (shift poly)^[n] c = 0#w) : c = 0#w := by
  induction n generalizing c with
  | zero => exact h
  | succ n ih => exact shift_eq_zero hp (ih h)

theorem absorb_append (poly c : BitVec w) (l m : List Bool) :
    absorb poly c (l ++ m) = absorb poly (absorb poly c l) m := List.foldl_append

/-- The register is linear in its content and its input together. -/
theorem absorb_xor {ι : Type*} (poly a b : BitVec w) (f g : ι → Bool) (l : List ι) :
    absorb poly (a ^^^ b) (l.map fun i => xor (f i) (g i)) =
      absorb poly a (l.map f) ^^^ absorb poly b (l.map g) := by
  induction l generalizing a b with
  | nil => rfl
  | cons i l ih =>
    have hf : feed poly (a ^^^ b) (xor (f i) (g i)) = feed poly a (f i) ^^^ feed poly b (g i) := by
      rw [feed, feed, feed, ← shift_xor, ofBit_xor]
      congr 1
      ac_rfl
    simp only [absorb, List.map_cons, List.foldl_cons] at ih ⊢
    rw [hf]
    exact ih _ _

theorem absorb_false (poly c : BitVec w) (n : Nat) :
    absorb poly c (List.replicate n false) = (shift poly)^[n] c := by
  induction n generalizing c with
  | zero => rfl
  | succ n ih =>
    have hf : feed poly c false = shift poly c := by simp [feed, ofBit]
    rw [List.replicate_succ, Function.iterate_succ_apply, ← ih, ← hf]
    rfl

theorem getLsbD_ofBits (bits : List Bool) {i : Nat} (hi : i < w) :
    (ofBits bits : BitVec w).getLsbD i = bits.getD i false := by
  induction bits generalizing i with
  | nil => simp [ofBits]
  | cons b bs ih =>
    rw [ofBits, BitVec.getLsbD_xor, BitVec.getLsbD_shiftLeft]
    cases i with
    | zero => cases b <;> simp [ofBit, hi]
    | succ i =>
      have hbit : (ofBit b : BitVec w).getLsbD (i+1) = false := by
        cases b <;> simp [ofBit]
      rw [hbit, Nat.add_sub_cancel, ih (by omega)]
      simp [hi]

theorem shift_ofBits (poly : BitVec w) {bits : List Bool} (h : bits.length < w) :
    shift poly (ofBits bits <<< 1) = ofBits bits := by
  have hlow : (ofBits bits <<< 1 : BitVec w).getLsbD 0 = false := by simp
  rw [shift, hlow]
  apply BitVec.eq_of_getLsbD_eq
  intro i hi
  simp only [Bool.false_eq_true, if_false, BitVec.xor_zero, BitVec.getLsbD_ushiftRight,
    BitVec.getLsbD_shiftLeft]
  by_cases hlast : 1 + i < w
  · simp [hlast, hi]
  · have hout : bits.length ≤ i := by omega
    rw [getLsbD_ofBits bits hi]
    simp [hlast, List.getD, hout]

/-- Up to `w` bits can be added to the register at once. -/
theorem absorb_eq_iterate (poly c : BitVec w) {bits : List Bool} (h : bits.length ≤ w) :
    absorb poly c bits = (shift poly)^[bits.length] (c ^^^ ofBits bits) := by
  induction bits generalizing c with
  | nil => simp [absorb, ofBits]
  | cons b bs ih =>
    have hlen : bs.length < w := h
    have hsplit : shift poly (c ^^^ ofBits (b::bs)) = feed poly c b ^^^ ofBits bs := by
      rw [ofBits, ← BitVec.xor_assoc, shift_xor, shift_ofBits poly hlen, feed]
    rw [List.length_cons, Function.iterate_succ_apply, hsplit, ← ih _ (by omega)]
    rfl

theorem absorb_word_eq_zero_iff {poly : BitVec w} (hp : poly.getLsbD (w-1) = true)
    (c : BitVec w) {bits : List Bool} (h : bits.length ≤ w) :
    absorb poly c bits = 0#w ↔ c = ofBits bits := by
  rw [absorb_eq_iterate poly c h]
  constructor
  · intro hz
    exact BitVec.xor_eq_zero_iff.mp (iterate_shift_eq_zero hp hz)
  · intro hc
    rw [hc, BitVec.xor_self, iterate_shift_zero]

/-- A burst no longer than the register never leaves it at zero. -/
theorem absorb_burst_ne_zero {poly : BitVec w} (hp : poly.getLsbD (w-1) = true) {e : Nat → Bool}
    {start len : Nat} (hburst : ∀ i, e i = true → start ≤ i ∧ i < start + w)
    (hne : ∃ i < len, e i = true) : absorb poly 0#w ((List.range len).map e) ≠ 0#w := by
  obtain ⟨k, hk, hek⟩ := hne
  obtain ⟨hsk, hkw⟩ := hburst k hek
  have hzero : ∀ a n, (∀ i, a ≤ i → i < a + n → e i = false) →
      (List.range' a n).map e = List.replicate n false := by
    intro a n h
    rw [List.eq_replicate_iff, List.length_map, List.length_range']
    refine ⟨rfl, ?_⟩
    intro b hb
    obtain ⟨i, hi, rfl⟩ := List.mem_map.mp hb
    rw [List.mem_range'_1] at hi
    exact h i hi.1 hi.2
  obtain ⟨m, hm⟩ : ∃ m, m = min w (len - start) := ⟨_, rfl⟩
  have hsplit : List.range len = List.range' 0 start ++ (List.range' start m ++
      List.range' (start + m) (len - (start + m))) := by
    have hlen : start + (m + (len - (start + m))) = len := by omega
    have h1 := List.range'_append_1 (s := start) (m := m) (n := len - (start + m))
    have h2 := List.range'_append_1 (s := 0) (m := start) (n := m + (len - (start + m)))
    rw [Nat.zero_add, hlen] at h2
    rw [List.range_eq_range', ← h2, ← h1]
  have hpre : ∀ i, 0 ≤ i → i < 0 + start → e i = false := by
    intro i _ hi
    by_contra h
    have := hburst i (by simpa using h)
    omega
  have hpost : ∀ i, start + m ≤ i → i < start + m + (len - (start + m)) → e i = false := by
    intro i hi hl
    by_contra h
    have := hburst i (by simpa using h)
    omega
  intro hz
  rw [hsplit, List.map_append, List.map_append, absorb_append, absorb_append, hzero 0 start hpre,
    hzero _ _ hpost, absorb_false, absorb_false, iterate_shift_zero] at hz
  have hmid := iterate_shift_eq_zero hp hz
  rw [absorb_word_eq_zero_iff hp 0#w (by simp; omega)] at hmid
  have hbit := getLsbD_ofBits ((List.range' start m).map e) (w := w) (i := k - start) (by omega)
  have hget : ((List.range' start m).map e).getD (k - start) false = true := by
    have hlt : k - start < m := by omega
    have hks : start + (k - start) = k := by omega
    simp [List.getD, hlt, hks, hek]
  rw [← hmid, hget] at hbit
  simp at hbit

end ShiftRegister
