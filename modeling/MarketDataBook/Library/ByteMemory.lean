import Mathlib.Data.BitVec

/-! Byte-addressed memory with little-endian words. Bit `i` of memory is bit `i % 8` of
byte `i / 8`, so that a word's bits are consecutive bits of memory. -/
namespace ByteMemory

abbrev Memory := Nat → BitVec 8

def store (m : Memory) (addr : Nat) (bytes : List (BitVec 8)) : Memory :=
  fun a => if addr ≤ a then (bytes[a - addr]?).getD (m a) else m a

def slice (m : Memory) (addr n : Nat) : List (BitVec 8) :=
  (List.range n).map fun i => m (addr + i)

def bit (m : Memory) (i : Nat) : Bool := (m (i / 8)).getLsbD (i % 8)

def load (m : Memory) (addr : Nat) : (n : Nat) → BitVec (8 * n)
  | 0 => 0#0
  | n+1 => (m (addr + n) ++ load m addr n).cast (by omega)

def leBytes (n : Nat) (v : BitVec (8 * n)) : List (BitVec 8) :=
  (List.range n).map fun i => v.extractLsb' (8 * i) 8

theorem store_of_lt {m : Memory} {addr a : Nat} {bytes : List (BitVec 8)} (h : a < addr) :
    store m addr bytes a = m a := by
  have hn : ¬ addr ≤ a := by omega
  rw [store, if_neg hn]

theorem store_of_ge {m : Memory} {addr a : Nat} {bytes : List (BitVec 8)}
    (h : addr + bytes.length ≤ a) : store m addr bytes a = m a := by
  have hl : addr ≤ a := by omega
  have hout : bytes.length ≤ a - addr := by omega
  rw [store, if_pos hl, List.getElem?_eq_none hout]
  rfl

theorem store_of_mem {m : Memory} {addr i : Nat} {bytes : List (BitVec 8)} {b : BitVec 8}
    (h : bytes[i]? = some b) : store m addr bytes (addr + i) = b := by
  rw [store, if_pos (Nat.le_add_right addr i), Nat.add_sub_cancel_left, h]
  rfl

theorem store_congr {m : Memory} {addr a : Nat} {bytes bytes' : List (BitVec 8)}
    (h : addr ≤ a → bytes'[a - addr]? = bytes[a - addr]?) :
    store m addr bytes' a = store m addr bytes a := by
  by_cases hle : addr ≤ a
  · rw [store, store, h hle]
  · rw [store, store, if_neg hle, if_neg hle]

theorem store_nil (m : Memory) (addr : Nat) : store m addr [] = m := by
  funext a
  simp [store]

/-- Bytes stored one behind the other. -/
theorem store_append (m : Memory) (addr : Nat) (bytes more : List (BitVec 8)) :
    store m addr (bytes ++ more) = store (store m addr bytes) (addr + bytes.length) more := by
  funext a
  obtain hlt | hge := Nat.lt_or_ge a (addr + bytes.length)
  · rw [store_of_lt hlt]
    apply store_congr
    intro hle
    exact List.getElem?_append_left (by omega)
  · have hle : addr ≤ a := by omega
    have hsub : a - addr - bytes.length = a - (addr + bytes.length) := by omega
    rw [store, if_pos hle, List.getElem?_append_right (by omega), hsub, store, if_pos hge,
      store_of_ge hge]

theorem store_singleton (m : Memory) (addr : Nat) (b : BitVec 8) : store m addr [b] addr = b := by
  simp [store]

theorem length_slice (m : Memory) (addr n : Nat) : (slice m addr n).length = n := by
  rw [slice, List.length_map, List.length_range]

theorem getElem?_slice {m : Memory} {addr n i : Nat} (h : i < n) :
    (slice m addr n)[i]? = some (m (addr + i)) := by
  simp [slice, h]

theorem slice_congr {m m' : Memory} {addr addr' n : Nat}
    (h : ∀ i < n, m' (addr' + i) = m (addr + i)) : slice m' addr' n = slice m addr n := by
  apply List.map_congr_left
  intro i hi
  exact h i (List.mem_range.mp hi)

theorem slice_add (m : Memory) (addr n k : Nat) :
    slice m addr (n + k) = slice m addr n ++ slice m (addr + n) k := by
  rw [slice, slice, slice, List.range_add, List.map_append, List.map_map]
  congr 1
  apply List.map_congr_left
  intro i _
  rw [Function.comp_apply, Nat.add_assoc]

theorem slice_split (m : Memory) (addr : Nat) {n len : Nat} (h : n ≤ len) :
    slice m addr len = slice m addr n ++ slice m (addr + n) (len - n) := by
  rw [← slice_add, Nat.add_sub_cancel' h]

theorem take_slice (m : Memory) (addr : Nat) {n len : Nat} (h : n ≤ len) :
    (slice m addr len).take n = slice m addr n := by
  rw [slice_split m addr h, List.take_left' (length_slice m addr n)]

theorem drop_slice (m : Memory) (addr : Nat) {n len : Nat} (h : n ≤ len) :
    (slice m addr len).drop n = slice m (addr + n) (len - n) := by
  rw [slice_split m addr h, List.drop_left' (length_slice m addr n)]

/-- A slice of a list laid out in memory. -/
theorem slice_getD {m : List (BitVec 8)} {offset n : Nat} (h : offset + n ≤ m.length) :
    slice (fun i => m.getD i 0#8) offset n = (m.drop offset).take n := by
  apply List.ext_getElem?
  intro i
  obtain hi | hi := Nat.lt_or_ge i n
  · have hm := List.getElem?_eq_getElem (l := m) (i := offset + i) (by omega)
    rw [getElem?_slice hi, List.getElem?_take_of_lt hi, List.getElem?_drop, List.getD, hm]
    rfl
  · rw [List.getElem?_eq_none (by rw [length_slice]; exact hi),
      List.getElem?_eq_none (by rw [List.length_take]; omega)]

theorem getLsbD_load (m : Memory) (addr n : Nat) {i : Nat} (h : i < 8 * n) :
    (load m addr n).getLsbD i = bit m (8 * addr + i) := by
  induction n with
  | zero => omega
  | succ n ih =>
    rw [load, BitVec.getLsbD_cast, BitVec.getLsbD_append]
    by_cases hi : i < 8 * n
    · rw [if_pos hi, ih hi]
    · have hdiv : (8 * addr + i) / 8 = addr + n := by omega
      have hmod : (8 * addr + i) % 8 = i - 8 * n := by omega
      rw [if_neg hi, bit, hdiv, hmod]

theorem load_eq_iff {m : Memory} {addr n : Nat} {v : BitVec (8 * n)} :
    load m addr n = v ↔ ∀ i < 8 * n, bit m (8 * addr + i) = v.getLsbD i := by
  constructor
  · intro h i hi
    rw [← h, getLsbD_load m addr n hi]
  · intro h
    apply BitVec.eq_of_getLsbD_eq
    intro i hi
    rw [getLsbD_load m addr n hi, h i hi]

theorem load_congr {m m' : Memory} {addr addr' n : Nat}
    (h : ∀ i < n, m' (addr' + i) = m (addr + i)) : load m' addr' n = load m addr n := by
  induction n with
  | zero => rfl
  | succ n ih =>
    rw [load, load, h n (Nat.lt_succ_self n), ih (fun i hi => h i (Nat.lt_succ_of_lt hi))]

theorem extractLsb'_load {m : Memory} {addr n i : Nat} (h : i < n) :
    (load m addr n).extractLsb' (8 * i) 8 = m (addr + i) := by
  apply BitVec.eq_of_getLsbD_eq
  intro j hj
  have hlt : 8 * i + j < 8 * n := by omega
  have hdiv : (8 * addr + (8 * i + j)) / 8 = addr + i := by omega
  have hmod : (8 * addr + (8 * i + j)) % 8 = j := by omega
  rw [BitVec.getLsbD_extractLsb', getLsbD_load m addr n hlt, bit, hdiv, hmod]
  simp [hj]

theorem length_leBytes (n : Nat) (v : BitVec (8 * n)) : (leBytes n v).length = n := by
  rw [leBytes, List.length_map, List.length_range]

theorem getElem?_leBytes {n i : Nat} (v : BitVec (8 * n)) (h : i < n) :
    (leBytes n v)[i]? = some (v.extractLsb' (8 * i) 8) := by
  simp [leBytes, h]

/-- Memory that holds the bytes of a word loads the word. -/
theorem load_of_bytes {m : Memory} {addr n : Nat} {v : BitVec (8 * n)}
    (h : ∀ i < n, m (addr + i) = v.extractLsb' (8 * i) 8) : load m addr n = v := by
  rw [load_eq_iff]
  intro i hi
  have hdiv : (8 * addr + i) / 8 = addr + i / 8 := by omega
  have hmod : (8 * addr + i) % 8 = i % 8 := by omega
  have hlt : i % 8 < 8 := Nat.mod_lt i (by decide)
  have hsum : 8 * (i / 8) + i % 8 = i := by omega
  rw [bit, hdiv, hmod, h (i / 8) (by omega), BitVec.getLsbD_extractLsb', hsum]
  simp [hlt]

theorem load_store_self (m : Memory) (addr n : Nat) (v : BitVec (8 * n)) :
    load (store m addr (leBytes n v)) addr n = v := by
  apply load_of_bytes
  intro i hi
  exact store_of_mem (getElem?_leBytes v hi)

theorem load_store_of_disjoint {m : Memory} {addr addr' n : Nat} {bytes : List (BitVec 8)}
    (h : addr' + n ≤ addr ∨ addr + bytes.length ≤ addr') :
    load (store m addr bytes) addr' n = load m addr' n := by
  apply load_congr
  intro i hi
  obtain h | h := h
  · exact store_of_lt (by omega)
  · exact store_of_ge (by omega)

theorem slice_store_self (m : Memory) (addr : Nat) (bytes : List (BitVec 8)) :
    slice (store m addr bytes) addr bytes.length = bytes := by
  apply List.ext_getElem?
  intro i
  obtain hi | hi := Nat.lt_or_ge i bytes.length
  · have hb := List.getElem?_eq_getElem hi
    rw [getElem?_slice hi, store_of_mem hb, hb]
  · rw [List.getElem?_eq_none (by rw [length_slice]; exact hi), List.getElem?_eq_none hi]

def bigEndian (bytes : List (BitVec 8)) : Nat := bytes.foldl (fun v b => 256 * v + b.toNat) 0

theorem foldl_bigEndian (bytes : List (BitVec 8)) (v : Nat) :
    bytes.foldl (fun v b => 256 * v + b.toNat) v = v * 256 ^ bytes.length + bigEndian bytes := by
  induction bytes generalizing v with
  | nil => simp [bigEndian]
  | cons b bs ih =>
    rw [bigEndian, List.foldl_cons, List.foldl_cons, ih, ih, List.length_cons, Nat.pow_succ,
      Nat.add_mul, Nat.mul_zero, Nat.zero_add, ← Nat.add_assoc]
    congr 2
    rw [Nat.mul_comm 256 v, Nat.mul_assoc, Nat.mul_comm 256]

theorem bigEndian_cons (b : BitVec 8) (bytes : List (BitVec 8)) :
    bigEndian (b::bytes) = b.toNat * 256 ^ bytes.length + bigEndian bytes := by
  rw [bigEndian, List.foldl_cons, foldl_bigEndian, Nat.mul_zero, Nat.zero_add]

theorem bigEndian_append (as bs : List (BitVec 8)) :
    bigEndian (as ++ bs) = bigEndian as * 256 ^ bs.length + bigEndian bs := by
  rw [bigEndian, List.foldl_append, foldl_bigEndian]
  rfl

theorem toNat_load_succ (m : Memory) (addr n : Nat) :
    (load m addr (n+1)).toNat = (m (addr + n)).toNat * 256 ^ n + (load m addr n).toNat := by
  rw [load, BitVec.toNat_cast, BitVec.toNat_append,
    ← Nat.shiftLeft_add_eq_or_of_lt (load m addr n).isLt, Nat.shiftLeft_eq, Nat.pow_mul]

theorem slice_succ (m : Memory) (addr n : Nat) :
    slice m addr (n+1) = m addr :: slice m (addr + 1) n := by
  rw [Nat.add_comm n 1, slice_add]
  rfl

/-- Bytes loaded in reverse order are a big-endian value. -/
theorem toNat_load_reverse (m : Memory) (addr n : Nat) :
    (load (fun i => m (addr + (n - 1 - i))) 0 n).toNat = bigEndian (slice m addr n) := by
  induction n generalizing addr with
  | zero => rfl
  | succ n ih =>
    have hrest : load (fun i => m (addr + (n + 1 - 1 - i))) 0 n =
        load (fun i => m (addr + 1 + (n - 1 - i))) 0 n := by
      apply load_congr
      intro i hi
      congr 1
      omega
    rw [toNat_load_succ, hrest, ih, slice_succ, bigEndian_cons, length_slice]
    simp

def beBytes (n : Nat) (v : BitVec (8 * n)) : List (BitVec 8) := (leBytes n v).reverse

theorem length_beBytes (n : Nat) (v : BitVec (8 * n)) : (beBytes n v).length = n := by
  rw [beBytes, List.length_reverse, length_leBytes]

theorem bigEndian_beBytes (n : Nat) (v : BitVec (8 * n)) : bigEndian (beBytes n v) = v.toNat := by
  let m : Memory := fun i => v.extractLsb' (8 * (n - 1 - i)) 8
  have hslice : slice m 0 n = beBytes n v := by
    apply List.ext_getElem?
    intro i
    obtain hi | hi := Nat.lt_or_ge i n
    · have hlt : i < (leBytes n v).length := by rw [length_leBytes]; exact hi
      rw [getElem?_slice hi, beBytes, List.getElem?_reverse hlt, length_leBytes,
        getElem?_leBytes v (by omega), Nat.zero_add]
    · rw [List.getElem?_eq_none (by rw [length_slice]; exact hi),
        List.getElem?_eq_none (by rw [length_beBytes]; exact hi)]
  have hload : load (fun i => m (0 + (n - 1 - i))) 0 n = v := by
    apply load_of_bytes
    intro i hi
    have hpos : n - 1 - (0 + (n - 1 - (0 + i))) = i := by omega
    dsimp only [m]
    rw [hpos]
  rw [← hslice, ← toNat_load_reverse, hload]

/-- Zeros above a word are zero bytes behind it. -/
theorem setWidth_load (m : Memory) (addr n k : Nat) :
    (load m addr n).setWidth (8 * (n + k)) =
      load (fun i => if i < n then m (addr + i) else 0#8) 0 (n + k) := by
  symm
  rw [load_eq_iff]
  intro i hi
  rw [BitVec.getLsbD_setWidth, decide_eq_true hi, Bool.true_and, Nat.mul_zero, Nat.zero_add, bit]
  obtain hlt | hge := Nat.lt_or_ge i (8 * n)
  · have hdiv : i / 8 < n := by omega
    have hpos : (8 * addr + i) / 8 = addr + i / 8 := by omega
    have hmod : (8 * addr + i) % 8 = i % 8 := by omega
    rw [if_pos hdiv, getLsbD_load m addr n hlt, bit, hpos, hmod]
  · have hdiv : ¬ i / 8 < n := by omega
    rw [if_neg hdiv, BitVec.getLsbD_of_ge _ _ hge, BitVec.getLsbD_zero]

end ByteMemory
