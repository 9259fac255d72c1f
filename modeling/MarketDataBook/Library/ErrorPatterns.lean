import MarketDataBook.Library.ShiftRegister

/-! Error patterns in the input of a shift register. A pattern leaves the superposition of one
shifted bit for each of its errors; when the polynomial has an odd number of bits the register
keeps the parity of the number of errors. -/
namespace ShiftRegister
variable {w : Nat} {poly : BitVec w}

theorem iterate_shift_xor (poly a b : BitVec w) (n : Nat) :
    (shift poly)^[n] (a ^^^ b) = (shift poly)^[n] a ^^^ (shift poly)^[n] b := by
  induction n generalizing a b with
  | zero => rfl
  | succ n ih => simp only [Function.iterate_succ_apply, shift_xor, ih]

/-- What a register of content `c` adds to the effect of the input alone. -/
theorem absorb_eq_xor (poly c : BitVec w) (bits : List Bool) :
    absorb poly c bits = (shift poly)^[bits.length] c ^^^ absorb poly 0#w bits := by
  have h := absorb_xor poly c 0#w (fun _ => false) id bits
  simp only [BitVec.xor_zero, Bool.false_xor, id, List.map_id', List.map_id, List.map_const', absorb_false] at h
  exact h

/-- How many shifts each error of a pattern goes through, the first one first. -/
def shifts : List Bool → List Nat
  | [] => []
  | b::bs => if b then (bs.length + 1) :: shifts bs else shifts bs

theorem length_shifts (bits : List Bool) : (shifts bits).length = bits.count true := by
  induction bits with
  | nil => rfl
  | cons b bs ih => cases b <;> simp [shifts, ih]

theorem shifts_bounds {bits : List Bool} {k : Nat} (h : k ∈ shifts bits) :
    1 ≤ k ∧ k ≤ bits.length := by
  induction bits with
  | nil => cases h
  | cons b bs ih =>
    rw [List.length_cons]
    cases b with
    | false =>
      have hk := ih h
      omega
    | true =>
      obtain rfl | hk := List.mem_cons.mp h
      · omega
      · have hk := ih hk
        omega

theorem shifts_pairwise (bits : List Bool) : (shifts bits).Pairwise (· > ·) := by
  induction bits with
  | nil => exact List.Pairwise.nil
  | cons b bs ih =>
    cases b with
    | false => exact ih
    | true =>
      refine List.Pairwise.cons ?_ ih
      intro k hk
      exact Nat.lt_succ_of_le (shifts_bounds hk).2

def superpose (poly : BitVec w) (ks : List Nat) : BitVec w :=
  ks.foldr (fun k acc => (shift poly)^[k] 1#w ^^^ acc) 0#w

theorem superpose_cons (k : Nat) (ks : List Nat) :
    superpose poly (k::ks) = (shift poly)^[k] 1#w ^^^ superpose poly ks := rfl

theorem absorb_eq_superpose (poly : BitVec w) (bits : List Bool) :
    absorb poly 0#w bits = superpose poly (shifts bits) := by
  induction bits with
  | nil => rfl
  | cons b bs ih =>
    have hcons : absorb poly 0#w (b::bs) = absorb poly (feed poly 0#w b) bs := rfl
    rw [hcons, absorb_eq_xor, ih]
    cases b with
    | false => simp [feed, ofBit, shift_zero, iterate_shift_zero, shifts]
    | true => simp [feed, ofBit, shifts, superpose_cons]

theorem superpose_add (ks : List Nat) (m : Nat) :
    superpose poly (ks.map (· + m)) = (shift poly)^[m] (superpose poly ks) := by
  induction ks with
  | nil => exact (iterate_shift_zero poly m).symm
  | cons k ks ih =>
    rw [List.map_cons, superpose_cons, superpose_cons, ih, iterate_shift_xor,
      ← Function.iterate_add_apply, Nat.add_comm]

def parityBelow (c : BitVec w) : Nat → Bool
  | 0 => false
  | n+1 => xor (c.getLsbD n) (parityBelow c n)

def parity (c : BitVec w) : Bool := parityBelow c w

theorem parity_xor (a b : BitVec w) : parity (a ^^^ b) = xor (parity a) (parity b) := by
  have hbelow : ∀ n, parityBelow (a ^^^ b) n = xor (parityBelow a n) (parityBelow b n) := by
    intro n
    induction n with
    | zero => rfl
    | succ n ih =>
      rw [parityBelow, parityBelow, parityBelow, ih, BitVec.getLsbD_xor]
      cases a.getLsbD n <;> cases b.getLsbD n <;> cases parityBelow a n <;> simp
  exact hbelow w

theorem parity_zero : parity 0#w = false := by
  have h := parity_xor 0#w 0#w
  rw [BitVec.xor_self, Bool.xor_self] at h
  exact h

theorem parity_ushiftRight (c : BitVec w) : parity (c >>> 1) = xor (c.getLsbD 0) (parity c) := by
  have hbelow : ∀ n, parityBelow (c >>> 1) n = xor (c.getLsbD 0) (parityBelow c (n+1)) := by
    intro n
    induction n with
    | zero => simp [parityBelow]
    | succ n ih =>
      rw [parityBelow, ih, parityBelow, parityBelow, BitVec.getLsbD_ushiftRight, Nat.add_comm 1 n]
      cases c.getLsbD 0 <;> cases c.getLsbD (n+1) <;> simp [parityBelow]
  have htop : parityBelow c (w+1) = parityBelow c w := by
    rw [parityBelow, BitVec.getLsbD_of_ge c w (Nat.le_refl w), Bool.false_xor]
  rw [parity, hbelow w, htop, parity]

/-- A polynomial with an odd number of bits puts back the bit that is shifted out. -/
theorem parity_shift (hp : parity poly = true) (c : BitVec w) :
    parity (shift poly c) = parity c := by
  rw [shift, parity_xor, parity_ushiftRight]
  cases hc : c.getLsbD 0 with
  | false => simp [parity_zero]
  | true => simp [hp]

theorem parity_iterate_shift (hp : parity poly = true) (n : Nat) (c : BitVec w) :
    parity ((shift poly)^[n] c) = parity c := by
  induction n generalizing c with
  | zero => rfl
  | succ n ih => rw [Function.iterate_succ_apply, ih, parity_shift hp]

theorem parity_superpose (hp : parity poly = true) (h1 : parity 1#w = true) (ks : List Nat) :
    parity (superpose poly ks) = decide (ks.length % 2 = 1) := by
  induction ks with
  | nil => exact parity_zero
  | cons k ks ih =>
    rw [superpose_cons, parity_xor, parity_iterate_shift hp, h1, ih, List.length_cons]
    obtain h | h := Nat.mod_two_eq_zero_or_one ks.length
    · simp [Nat.add_mod, h]
    · simp [Nat.add_mod, h]

/-- An odd number of errors never goes unnoticed. -/
theorem superpose_ne_zero_of_odd (hp : parity poly = true) (h1 : parity 1#w = true) {ks : List Nat}
    (hodd : ks.length % 2 = 1) : superpose poly ks ≠ 0#w := by
  intro hz
  have hpar := parity_superpose hp h1 ks
  rw [hz, parity_zero, decide_eq_true hodd] at hpar
  cases hpar

end ShiftRegister
