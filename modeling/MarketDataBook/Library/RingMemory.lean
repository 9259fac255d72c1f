import MarketDataBook.Library.ByteMemory
import MarketDataBook.Library.RingIndex

/-! A ring of `n` bytes of memory. Running positions count every byte that ever went through
the ring; unrolled, the ring is a memory over them, and a write of at most `n` bytes changes
nothing in the lap that ends with it but the bytes written. -/
namespace RingMemory
open ByteMemory
variable {page : Memory} {n pos : Nat} {bytes : List (BitVec 8)}

def unrolled (page : Memory) (n : Nat) : Memory := fun a => page (a % n)

def write (page : Memory) (n pos : Nat) : List (BitVec 8) → Memory
  | [] => page
  | b::bs => write (Function.update page (pos % n) b) n (pos+1) bs

theorem unrolled_update_self (b : BitVec 8) :
    unrolled (Function.update page (pos % n) b) n pos = b :=
  Function.update_self _ _ _

theorem unrolled_update_of_lt {a : Nat} (b : BitVec 8) (h : a < pos) (hn : pos < a + n) :
    unrolled (Function.update page (pos % n) b) n a = unrolled page n a := by
  apply Function.update_of_ne
  intro he
  have hpos := (RingIndex.mod_eq_mod_iff (Nat.le_of_lt h) hn).mp he
  omega

/-- In the lap that ends with the write the unrolled ring is stored to as plain memory is. -/
theorem unrolled_write {a : Nat} (hlo : pos + bytes.length ≤ a + n) (hhi : a < pos + bytes.length) :
    unrolled (write page n pos bytes) n a = store (unrolled page n) pos bytes a := by
  induction bytes generalizing page pos with
  | nil => exact (store_of_lt hhi).symm
  | cons b bs ih =>
    rw [List.length_cons] at hlo hhi
    rw [write, ih (by omega) (by omega)]
    obtain hlt | rfl | hgt := Nat.lt_trichotomy a pos
    · rw [store_of_lt (by omega), store_of_lt hlt, unrolled_update_of_lt b hlt (by omega)]
    · have hb : (b::bs)[0]? = some b := rfl
      have hself : store (unrolled page n) a (b::bs) (a + 0) = b := store_of_mem hb
      rw [Nat.add_zero] at hself
      rw [store_of_lt (Nat.lt_succ_self a), unrolled_update_self, hself]
    · obtain ⟨i, rfl⟩ : ∃ i, a = pos + 1 + i := ⟨a - (pos + 1), by omega⟩
      have hi : i < bs.length := by omega
      have hb := List.getElem?_eq_getElem hi
      rw [store_of_mem hb, Nat.add_assoc, Nat.add_comm 1 i]
      exact (store_of_mem (by rw [List.getElem?_cons_succ, hb])).symm

theorem slice_write_self (h : bytes.length ≤ n) :
    slice (unrolled (write page n pos bytes) n) pos bytes.length = bytes := by
  calc
    _ = slice (store (unrolled page n) pos bytes) pos bytes.length :=
      slice_congr fun i hi => unrolled_write (by omega) (by omega)
    _ = bytes := slice_store_self _ _ _

theorem slice_write_of_le {lo k : Nat} (hk : lo + k ≤ pos) (h : pos + bytes.length ≤ lo + n) :
    slice (unrolled (write page n pos bytes) n) lo k = slice (unrolled page n) lo k := by
  apply slice_congr
  intro i hi
  rw [unrolled_write (by omega) (by omega), store_of_lt (by omega)]

/-- What is written behind unread bytes is appended to them. -/
theorem slice_write {lo k : Nat} (h : k + bytes.length ≤ n) :
    slice (unrolled (write page n (lo + k) bytes) n) lo (k + bytes.length) =
      slice (unrolled page n) lo k ++ bytes := by
  rw [slice_add, slice_write_of_le (Nat.le_refl _) (by omega), slice_write_self (by omega)]

end RingMemory
