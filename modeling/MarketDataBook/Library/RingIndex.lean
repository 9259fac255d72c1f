import Mathlib.Data.Nat.ModEq

/-! Positions of a ring of `n` cells. A cell is the residue of a running counter, and two
counters less than one lap apart share a cell only if they are equal. -/
namespace RingIndex

theorem mod_eq_mod_iff {a b n : Nat} (h : a ≤ b) (hb : b < a + n) : a % n = b % n ↔ a = b := by
  constructor
  · intro he
    have hd : n ∣ b - a := (Nat.modEq_iff_dvd' h).mp he
    have hz : b - a = 0 := Nat.eq_zero_of_dvd_of_lt hd (by omega)
    omega
  · intro he
    rw [he]

/-- The next cell is that of `a` exactly when the ring is full. -/
theorem succ_mod_eq_iff {a b n : Nat} (h : a ≤ b) (hb : b < a + n) :
    (b+1) % n = a % n ↔ b + 1 = a + n := by
  constructor
  · intro he
    obtain hlt | hge := Nat.lt_or_ge (b+1) (a+n)
    · have hab := (mod_eq_mod_iff (by omega) hlt).mp he.symm
      omega
    · omega
  · intro he
    rw [he, Nat.add_mod_right]

theorem succ_lt_of_mod_ne {a b n : Nat} (h : a ≤ b) (hb : b < a + n) (hne : (b+1) % n ≠ a % n) :
    b + 1 < a + n := by
  have hfull := mt (succ_mod_eq_iff h hb).mpr hne
  omega

/-- Less than a lap on, one subtraction wraps a cell. -/
theorem wrap_eq_mod {a k n : Nat} (hk : k < n) :
    (if n ≤ a % n + k then a % n + k - n else a % n + k) = (a + k) % n := by
  rw [Nat.add_mod_eq_ite, Nat.mod_eq_of_lt hk]

theorem mod_succ_mod (a n : Nat) : (a % n + 1) % n = (a+1) % n := Nat.mod_add_mod a n 1

end RingIndex
