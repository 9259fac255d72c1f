import MarketDataBook.Library.RingIndex
import Mathlib.Logic.Function.Basic
import Mathlib.Tactic.SplitIfs

/-! A ring of `n` cells that two parties hand to each other. The producer fills free cells in
turn and the consumer frees filled cells in turn; each looks only at the cell it has come to. -/

structure FlagRing (α : Type*) where
  cells : Nat → Option α
  /-- The values filled in so far. -/
  filled : List α
  /-- How many of them have been freed again. -/
  freed : Nat

namespace FlagRing
variable {α : Type*} {n : Nat} {r : FlagRing α} {v : α}

def empty : FlagRing α := ⟨fun _ => none, [], 0⟩

def fill (n : Nat) (r : FlagRing α) (v : α) : FlagRing α :=
  { r with cells := Function.update r.cells (r.filled.length % n) (some v)
           filled := r.filled ++ [v] }

def free (n : Nat) (r : FlagRing α) : FlagRing α :=
  { r with cells := Function.update r.cells (r.freed % n) none
           freed := r.freed + 1 }

theorem fill_cells (j : Nat) :
    (r.fill n v).cells j = if j = r.filled.length % n then some v else r.cells j :=
  Function.update_apply _ _ _ _

theorem free_cells (j : Nat) :
    (r.free n).cells j = if j = r.freed % n then none else r.cells j :=
  Function.update_apply _ _ _ _

/-- The filled cells are those of the values not yet freed. -/
structure Inv (n : Nat) (r : FlagRing α) : Prop where
  le : r.freed ≤ r.filled.length
  room : r.filled.length ≤ r.freed + n
  cell : ∀ j < n, ∀ v, r.cells j = some v ↔
    ∃ i, r.freed ≤ i ∧ r.filled[i]? = some v ∧ i % n = j

theorem Inv.empty : Inv n (empty : FlagRing α) where
  le := Nat.le_refl 0
  room := Nat.zero_le _
  cell := by simp [FlagRing.empty]

/-- A value that has not been freed is in its cell. -/
theorem Inv.cell_mod (h : Inv n r) (hn : 0 < n) {i : Nat} (hi : r.freed ≤ i)
    (hv : r.filled[i]? = some v) : r.cells (i % n) = some v :=
  (h.cell (i % n) (Nat.mod_lt i hn) v).mpr ⟨i, hi, hv, rfl⟩

/-- The cell of the oldest value holds that value. -/
theorem Inv.oldest (h : Inv n r) (hn : 0 < n) (hc : r.cells (r.freed % n) = some v) :
    r.filled[r.freed]? = some v := by
  obtain ⟨i, hi, hv, hmod⟩ := (h.cell _ (Nat.mod_lt _ hn) v).mp hc
  have hlt := (List.getElem?_eq_some_iff.mp hv).1
  have hroom := h.room
  rw [(RingIndex.mod_eq_mod_iff hi (by omega)).mp hmod.symm]
  exact hv

/-- The producer finds its cell free only when the ring is not full. -/
theorem Inv.not_full (h : Inv n r) (hn : 0 < n) (hc : r.cells (r.filled.length % n) = none) :
    r.filled.length < r.freed + n := by
  obtain hlt | hge := Nat.lt_or_ge r.filled.length (r.freed + n)
  · exact hlt
  · have heq : r.filled.length = r.freed + n := Nat.le_antisymm h.room hge
    have hv := List.getElem?_eq_getElem (l := r.filled) (i := r.freed) (by omega)
    rw [heq, Nat.add_mod_right, h.cell_mod hn (Nat.le_refl _) hv] at hc
    cases hc

theorem Inv.fill (h : Inv n r) (hn : 0 < n) (hc : r.cells (r.filled.length % n) = none) (v : α) :
    Inv n (r.fill n v) := by
  have hlt := h.not_full hn hc
  have hle := h.le
  refine ⟨?_, ?_, ?_⟩
  · simp only [FlagRing.fill, List.length_append]
    omega
  · simp only [FlagRing.fill, List.length_append, List.length_singleton]
    omega
  · intro j hj w
    rw [fill_cells]
    dsimp only [FlagRing.fill]
    split_ifs with hjl
    · rw [hjl]
      constructor
      · intro hw
        cases hw
        exact ⟨r.filled.length, hle, by simp, rfl⟩
      · rintro ⟨i, hi, hw, hmod⟩
        have hil := (List.getElem?_eq_some_iff.mp hw).1
        rw [List.length_append, List.length_singleton] at hil
        rw [(RingIndex.mod_eq_mod_iff (by omega) (by omega)).mp hmod] at hw
        simpa using hw
    · rw [h.cell j hj w]
      apply exists_congr
      intro i
      apply and_congr_right
      intro _
      apply and_congr_left
      intro hmod
      have hne : i ≠ r.filled.length := fun he => hjl (he ▸ hmod.symm)
      obtain hi | hi := Nat.lt_or_ge i r.filled.length
      · rw [List.getElem?_append_left hi]
      · rw [List.getElem?_eq_none hi, List.getElem?_eq_none (by simp; omega)]

theorem Inv.free (h : Inv n r) (hn : 0 < n) (hc : r.cells (r.freed % n) = some v) :
    Inv n (r.free n) := by
  have hlt := (List.getElem?_eq_some_iff.mp (h.oldest hn hc)).1
  have hroom := h.room
  refine ⟨hlt, ?_, ?_⟩
  · dsimp only [FlagRing.free]
    omega
  · intro j hj w
    rw [free_cells]
    dsimp only [FlagRing.free]
    split_ifs with hjf
    · refine iff_of_false (by simp) ?_
      rintro ⟨i, hi, hw, hmod⟩
      have hil := (List.getElem?_eq_some_iff.mp hw).1
      have heq : r.freed = i :=
        (RingIndex.mod_eq_mod_iff (by omega) (by omega)).mp (hjf.symm.trans hmod.symm)
      omega
    · rw [h.cell j hj w]
      apply exists_congr
      intro i
      apply and_congr_left
      intro hi
      have hne : i ≠ r.freed := fun he => hjf (he ▸ hi.2.symm)
      omega

/-- With every cell free nothing is outstanding. -/
theorem Inv.all_free (h : Inv n r) (hn : 0 < n) (hc : ∀ j < n, r.cells j = none) :
    r.freed = r.filled.length := by
  obtain hlt | hge := Nat.lt_or_ge r.freed r.filled.length
  · have hv := h.cell_mod hn (Nat.le_refl _) (List.getElem?_eq_getElem hlt)
    rw [hc _ (Nat.mod_lt _ hn)] at hv
    cases hv
  · exact Nat.le_antisymm h.le hge

end FlagRing
