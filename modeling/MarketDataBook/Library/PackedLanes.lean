import Mathlib.Algebra.Order.Ring.GeomSum
import Mathlib.Data.Nat.Bitwise
import Mathlib.Logic.Function.Iterate
import Mathlib.Tactic.Ring

/-! Many numbers packed into one, each in a lane of `w` bits whose top bit is kept free. One
addition and one mask then tell whether any lane is zero, so that a number can be compared
with all lanes at once by a few operations on large numbers. -/
namespace PackedLanes
variable {w : Nat}

def lane (w x i : Nat) : Nat := x / 2 ^ (w * i) % 2 ^ w

def ones (w n : Nat) : Nat := (2 ^ (w * n) - 1) / (2 ^ w - 1)

theorem lane_zero (x : Nat) : lane w x 0 = x % 2 ^ w := by
  rw [lane, Nat.mul_zero, Nat.pow_zero, Nat.div_one]

theorem lane_succ (x i : Nat) : lane w x (i+1) = lane w (x / 2 ^ w) i := by
  rw [lane, lane, Nat.div_div_eq_div_mul, ← Nat.pow_add, Nat.mul_succ, Nat.add_comm]

theorem lane_add (x i j : Nat) : lane w x (i + j) = lane w (x / 2 ^ (w * i)) j := by
  rw [lane, lane, Nat.div_div_eq_div_mul, ← Nat.pow_add, Nat.mul_add]

theorem lane_xor (x y i : Nat) : lane w (x ^^^ y) i = lane w x i ^^^ lane w y i := by
  rw [lane, Nat.xor_div_two_pow, Nat.xor_mod_two_pow, lane, lane]

theorem lane_mod {m i : Nat} (x : Nat) (h : i < m) : lane w (x % 2 ^ (w * m)) i = lane w x i := by
  obtain ⟨k, rfl⟩ : ∃ k, m = i + 1 + k := ⟨m - (i + 1), by omega⟩
  have hpow : 2 ^ (w * (i + 1 + k)) = 2 ^ (w * i) * (2 ^ w * 2 ^ (w * k)) := by
    rw [← Nat.pow_add, ← Nat.pow_add]
    congr 1
    ring
  rw [lane, lane, hpow, Nat.mod_mul_right_div_self, Nat.mod_mul_right_mod]

theorem append_div {a : Nat} (c : Nat) (ha : a < 2 ^ w) : (a + 2 ^ w * c) / 2 ^ w = c := by
  rw [Nat.add_mul_div_left _ _ (Nat.two_pow_pos w), Nat.div_eq_of_lt ha, Nat.zero_add]

theorem append_mod {a : Nat} (c : Nat) (ha : a < 2 ^ w) : (a + 2 ^ w * c) % 2 ^ w = a := by
  rw [Nat.add_mul_mod_self_left, Nat.mod_eq_of_lt ha]

/-- Lanes put behind others. -/
theorem lane_append_left {m i x : Nat} (y : Nat) (hx : x < 2 ^ (w * m)) (hi : i < m) :
    lane w (x + 2 ^ (w * m) * y) i = lane w x i := by
  rw [← lane_mod _ hi, append_mod y hx]

theorem lane_append_right {m x : Nat} (y i : Nat) (hx : x < 2 ^ (w * m)) :
    lane w (x + 2 ^ (w * m) * y) (m + i) = lane w y i := by
  rw [lane_add, append_div y hx]

theorem append_lt {m k x y : Nat} (hx : x < 2 ^ (w * m)) (hy : y < 2 ^ (w * k)) :
    x + 2 ^ (w * m) * y < 2 ^ (w * (m + k)) := by
  rw [Nat.mul_add, Nat.pow_add]
  calc
    x + 2 ^ (w * m) * y < 2 ^ (w * m) + 2 ^ (w * m) * y := Nat.add_lt_add_right hx _
    _ = 2 ^ (w * m) * (y + 1) := by ring
    _ ≤ 2 ^ (w * m) * 2 ^ (w * k) := Nat.mul_le_mul_left _ hy

theorem ones_succ (hw : 0 < w) (n : Nat) : ones w (n+1) = 1 + 2 ^ w * ones w n := by
  have hbase : 2 ≤ 2 ^ w := Nat.le_self_pow (by omega) 2
  rw [ones, ones, Nat.pow_mul, Nat.pow_mul, ← Nat.geomSum_eq hbase, ← Nat.geomSum_eq hbase,
    geom_sum_succ, Nat.add_comm]

theorem mul_ones_succ (hw : 0 < w) (y n : Nat) :
    y * ones w (n+1) = y + 2 ^ w * (y * ones w n) := by
  rw [ones_succ hw]
  ring

/-- A number in each lane. -/
theorem lane_mul_ones (hw : 0 < w) {y n i : Nat} (hy : y < 2 ^ w) (hi : i < n) :
    lane w (y * ones w n) i = y := by
  induction n generalizing i with
  | zero => omega
  | succ n ih =>
    rw [mul_ones_succ hw]
    cases i with
    | zero => rw [lane_zero, append_mod _ hy]
    | succ i => rw [lane_succ, append_div _ hy, ih (by omega)]

theorem append_inj {a b c d : Nat} (hb : b < 2 ^ w) (ha : a < 2 ^ w)
    (h : a + 2 ^ w * c = b + 2 ^ w * d) : a = b ∧ c = d := by
  constructor
  · rw [← append_mod c ha, h, append_mod d hb]
  · rw [← append_div c ha, h, append_div d hb]

theorem land_append {a b : Nat} (c d : Nat) (ha : a < 2 ^ w) (hb : b < 2 ^ w) :
    (a + 2 ^ w * c) &&& (b + 2 ^ w * d) = (a &&& b) + 2 ^ w * (c &&& d) := by
  rw [← Nat.mod_add_div ((a + 2 ^ w * c) &&& (b + 2 ^ w * d)) (2 ^ w), Nat.and_mod_two_pow,
    Nat.and_div_two_pow, append_mod c ha, append_mod d hb, append_div c ha, append_div d hb]

/-- With the top bits free, adding all ones below each of them sets it unless the lane is
zero. -/
theorem lane_ne_zero {v n x : Nat} (hx : ∀ i < n, lane (v+1) x i < 2 ^ v)
    (h : (x + (2 ^ v - 1) * ones (v+1) n) &&& (2 ^ v * ones (v+1) n) = 2 ^ v * ones (v+1) n)
    {i : Nat} (hi : i < n) : lane (v+1) x i ≠ 0 := by
  induction n generalizing x i with
  | zero => omega
  | succ n ih =>
    have htwo : 2 ^ (v+1) = 2 ^ v + 2 ^ v := by rw [Nat.pow_succ]; ring
    have hpos : 0 < 2 ^ v := Nat.two_pow_pos v
    have hlow : x % 2 ^ (v+1) < 2 ^ v := by
      rw [← lane_zero]
      exact hx 0 (Nat.succ_pos n)
    have hsum : x + (2 ^ v - 1) * ones (v+1) (n+1) = (x % 2 ^ (v+1) + (2 ^ v - 1)) +
        2 ^ (v+1) * (x / 2 ^ (v+1) + (2 ^ v - 1) * ones (v+1) n) := by
      rw [mul_ones_succ (Nat.succ_pos v), Nat.mul_add]
      nth_rewrite 1 [← Nat.mod_add_div x (2 ^ (v+1))]
      ac_rfl
    rw [hsum, mul_ones_succ (Nat.succ_pos v), land_append _ _ (by omega) (by omega)] at h
    obtain ⟨hguard, hrest⟩ := append_inj (by omega)
      (Nat.lt_of_le_of_lt Nat.and_le_right (by omega)) h
    cases i with
    | zero =>
      rw [lane_zero]
      intro hz
      rw [hz, Nat.zero_add, Nat.land_comm, Nat.and_two_pow_sub_one_eq_mod, Nat.mod_self] at hguard
      omega
    | succ i =>
      rw [lane_succ]
      refine ih ?_ hrest (by omega)
      intro k hk
      rw [← lane_succ]
      exact hx (k+1) (by omega)

def avoids (v n x y : Nat) : Bool :=
  ((x ^^^ y * ones (v+1) n) + (2 ^ v - 1) * ones (v+1) n) &&& (2 ^ v * ones (v+1) n) ==
    2 ^ v * ones (v+1) n

theorem lane_ne_of_avoids {v n x y : Nat} (hx : ∀ i < n, lane (v+1) x i < 2 ^ v)
    (hy : y < 2 ^ v) (h : avoids v n x y = true) {i : Nat} (hi : i < n) :
    lane (v+1) x i ≠ y := by
  have hy' : y < 2 ^ (v+1) := Nat.lt_of_lt_of_le hy (Nat.pow_le_pow_right (by decide) (by omega))
  have hlane : ∀ k < n, lane (v+1) (x ^^^ y * ones (v+1) n) k = lane (v+1) x k ^^^ y := by
    intro k hk
    rw [lane_xor, lane_mul_ones (Nat.succ_pos v) hy' hk]
  have hne := lane_ne_zero (x := x ^^^ y * ones (v+1) n) (fun k hk => by
    rw [hlane k hk]
    exact Nat.xor_lt_two_pow (hx k hk) hy) (eq_of_beq h) hi
  rw [hlane i hi] at hne
  intro he
  exact hne (by rw [he, Nat.xor_self])

section Orbit
variable {f : Nat → Nat} {t : Nat}

def packOrbit (f : Nat → Nat) (w t : Nat) : Nat → Nat
  | 0 => 0
  | n+1 => f t + 2 ^ w * packOrbit f w (f t) n

theorem packOrbit_lt (h : ∀ i, f^[i+1] t < 2 ^ w) (n : Nat) : packOrbit f w t n < 2 ^ (w * n) := by
  induction n generalizing t with
  | zero => exact Nat.two_pow_pos _
  | succ n ih =>
    have hrest : packOrbit f w (f t) n < 2 ^ (w * n) := ih fun i => h (i+1)
    have hfirst : f t < 2 ^ (w * 1) := by rw [Nat.mul_one]; exact h 0
    have hlt := append_lt hfirst hrest
    rw [Nat.mul_one, Nat.add_comm 1 n] at hlt
    exact hlt

theorem lane_packOrbit (h : ∀ i, f^[i+1] t < 2 ^ w) {n i : Nat} (hi : i < n) :
    lane w (packOrbit f w t n) i = f^[i+1] t := by
  induction n generalizing t i with
  | zero => omega
  | succ n ih =>
    have hfirst : f t < 2 ^ w := h 0
    rw [packOrbit]
    cases i with
    | zero => exact (lane_zero _).trans (append_mod _ hfirst)
    | succ i =>
      rw [lane_succ, append_div _ hfirst, ih (fun i => h (i+1)) (by omega)]
      rfl

def rotate (w n x r : Nat) : Nat := x / 2 ^ (w * r) + 2 ^ (w * (n - r)) * (x % 2 ^ (w * r))

theorem div_lt_of_lanes {n x r : Nat} (hx : x < 2 ^ (w * n)) (hr : r ≤ n) :
    x / 2 ^ (w * r) < 2 ^ (w * (n - r)) := by
  apply Nat.div_lt_of_lt_mul
  rw [← Nat.pow_add, ← Nat.mul_add, Nat.add_sub_cancel' hr]
  exact hx

theorem rotate_lt {n x r : Nat} (hx : x < 2 ^ (w * n)) (hr : r ≤ n) :
    rotate w n x r < 2 ^ (w * n) := by
  have hlt := append_lt (div_lt_of_lanes hx hr) (Nat.mod_lt x (Nat.two_pow_pos (w * r)))
  rw [Nat.sub_add_cancel hr] at hlt
  exact hlt

theorem lane_rotate {n x r i : Nat} (hx : x < 2 ^ (w * n)) (hr : r ≤ n) (hi : i < n) :
    lane w (rotate w n x r) i = lane w x ((i + r) % n) := by
  obtain hlt | hge := Nat.lt_or_ge i (n - r)
  · rw [rotate, lane_append_left _ (div_lt_of_lanes hx hr) hlt, ← lane_add,
      Nat.mod_eq_of_lt (by omega), Nat.add_comm]
  · obtain ⟨k, rfl⟩ : ∃ k, i = n - r + k := ⟨i - (n - r), by omega⟩
    have hk : n - r + k + r = k + n := by omega
    rw [rotate, lane_append_right _ _ (div_lt_of_lanes hx hr), lane_mod _ (by omega), hk,
      Nat.add_mod_right, Nat.mod_eq_of_lt (by omega)]

/-- For each of the first `m` rotations `n` lanes with the differences from the lanes of
`x`. -/
def packRotations (w n x : Nat) : Nat → Nat
  | 0 => 0
  | m+1 => packRotations w n x m + 2 ^ (w * (n * m)) * (x ^^^ rotate w n x m)

theorem packRotations_lt {n x m : Nat} (hx : x < 2 ^ (w * n)) (hm : m ≤ n + 1) :
    packRotations w n x m < 2 ^ (w * (n * m)) := by
  induction m with
  | zero => exact Nat.two_pow_pos _
  | succ m ih =>
    exact append_lt (ih (by omega)) (Nat.xor_lt_two_pow hx (rotate_lt hx (by omega)))

theorem row_lt {n m r i : Nat} (hi : i < n) (hr : r < m) : n * r + i < n * m := by
  calc
    n * r + i < n * r + n := Nat.add_lt_add_left hi _
    _ = n * (r + 1) := (Nat.mul_succ n r).symm
    _ ≤ n * m := Nat.mul_le_mul_left n hr

theorem lane_packRotations {n x m r i : Nat} (hx : x < 2 ^ (w * n)) (hm : m ≤ n + 1) (hr : r < m)
    (hi : i < n) :
    lane w (packRotations w n x m) (n * r + i) = lane w x i ^^^ lane w x ((i + r) % n) := by
  induction m with
  | zero => omega
  | succ m ih =>
    rw [packRotations]
    have hlt : packRotations w n x m < 2 ^ (w * (n * m)) := packRotations_lt hx (by omega)
    obtain hlast | rfl := Nat.lt_succ_iff_lt_or_eq.mp hr
    · rw [lane_append_left _ hlt (row_lt hi hlast), ih (by omega) hlast]
    · rw [lane_append_right _ _ hlt, lane_xor, lane_rotate hx (by omega) hi]

def orbitAvoids (f : Nat → Nat) (v k x s t : Nat) : Nat → Bool
  | 0 => true
  | n+1 => avoids v k x (s ^^^ f t) && orbitAvoids f v k x s (f t) n

theorem avoids_of_orbitAvoids {v k x s n a : Nat} (h : orbitAvoids f v k x s t n = true)
    (ha : a < n) : avoids v k x (s ^^^ f^[a+1] t) = true := by
  induction n generalizing t a with
  | zero => omega
  | succ n ih =>
    rw [orbitAvoids, Bool.and_eq_true] at h
    cases a with
    | zero => exact h.1
    | succ a => exact ih (t := f t) (a := a) h.2 (by omega)

/-- The start of the orbit and three elements of it never cancel: one comparison with all the
differences for each element. -/
def noCancellation (f : Nat → Nat) (v t n m : Nat) : Bool :=
  orbitAvoids f v (n * m) (packRotations (v+1) n (packOrbit f (v+1) t n) m) t t n

theorem xor_ne_of_noCancellation {v n m a b r : Nat} (hlt : ∀ i, f^[i] t < 2 ^ v) (hm : m ≤ n + 1)
    (h : noCancellation f v t n m = true) (ha : a < n) (hb : b < n) (hr : r < m) :
    f^[b+1] t ^^^ f^[(b + r) % n + 1] t ≠ t ^^^ f^[a+1] t := by
  have hwide : ∀ i, f^[i+1] t < 2 ^ (v+1) := fun i =>
    Nat.lt_of_lt_of_le (hlt (i+1)) (Nat.pow_le_pow_right (by decide) (by omega))
  have hx := packOrbit_lt hwide n
  have hlane : ∀ r < m, ∀ i < n,
      lane (v+1) (packRotations (v+1) n (packOrbit f (v+1) t n) m) (n * r + i) =
        f^[i+1] t ^^^ f^[(i + r) % n + 1] t := by
    intro r hr i hi
    rw [lane_packRotations hx hm hr hi, lane_packOrbit hwide hi,
      lane_packOrbit hwide (Nat.mod_lt _ (by omega))]
  have hfree : ∀ j < n * m,
      lane (v+1) (packRotations (v+1) n (packOrbit f (v+1) t n) m) j < 2 ^ v := by
    intro j hj
    have hn : 0 < n := by omega
    have hlast := hlane (j / n) (Nat.div_lt_of_lt_mul hj) (j % n) (Nat.mod_lt j hn)
    rw [Nat.div_add_mod] at hlast
    rw [hlast]
    exact Nat.xor_lt_two_pow (hlt _) (hlt _)
  have hne := lane_ne_of_avoids hfree (Nat.xor_lt_two_pow (hlt 0) (hlt (a+1)))
    (avoids_of_orbitAvoids h ha) (row_lt hb hr)
  rw [hlane r hr b hb] at hne
  exact hne

end Orbit
end PackedLanes
