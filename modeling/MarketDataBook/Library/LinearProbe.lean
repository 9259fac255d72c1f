import Mathlib.Data.Nat.Basic
import Mathlib.Tactic.SplitIfs

/-! Linear probing over a cyclic array of `cap` cells: a scan from a home cell that
gives up at a `stop` cell and returns the first `hit` cell. What the cells hold and
how a home cell is chosen are left open. -/
namespace LinearProbe

def advance (cap loc : Nat) : Nat := if loc + 1 = cap then 0 else loc + 1

def probe (stop hit : Nat → Bool) (cap : Nat) : Nat → Nat → Option Nat
  | 0, _ => none
  | left+1, loc =>
    if stop loc then none
    else if hit loc then some loc
    else probe stop hit cap left (advance cap loc)

def passed (stop hit : Nat → Bool) (cap : Nat) : Nat → Nat → Nat
  | 0, _ => 0
  | left+1, loc =>
    if stop loc then 0
    else if hit loc then 0
    else passed stop hit cap left (advance cap loc) + 1

def cell (cap home j : Nat) : Nat := (home + j) % cap

theorem advance_lt {cap loc : Nat} (h : loc < cap) : advance cap loc < cap := by
  unfold advance
  split_ifs <;> omega

theorem cell_lt {cap home : Nat} (h : home < cap) (j : Nat) : cell cap home j < cap :=
  Nat.mod_lt _ (by omega)

theorem cell_zero {cap home : Nat} (h : home < cap) : cell cap home 0 = home :=
  Nat.mod_eq_of_lt h

theorem cell_advance (cap home j : Nat) :
    cell cap (advance cap home) j = cell cap home (j+1) := by
  unfold cell advance
  split_ifs with he
  · rw [show home + (j+1) = 0 + j + cap by omega, Nat.add_mod_right]
  · rw [show home + 1 + j = home + (j+1) by omega]

/-- Every cell is met within one round. -/
theorem exists_cell {cap home p : Nat} (h : home < cap) (hp : p < cap) :
    ∃ j < cap, cell cap home j = p := by
  by_cases hle : home ≤ p
  · refine ⟨p - home, by omega, ?_⟩
    rw [cell, show home + (p - home) = p by omega, Nat.mod_eq_of_lt hp]
  · refine ⟨p + cap - home, by omega, ?_⟩
    rw [cell, show home + (p + cap - home) = p + cap by omega, Nat.add_mod_right,
      Nat.mod_eq_of_lt hp]

structure FirstHit (stop hit : Nat → Bool) (cap home j : Nat) : Prop where
  here : hit (cell cap home j) = true
  passed : ∀ i ≤ j, stop (cell cap home i) = false
  missed : ∀ i < j, hit (cell cap home i) = false

section Scan
variable {stop hit : Nat → Bool} {cap home : Nat}

theorem firstHit_zero (h : home < cap) :
    FirstHit stop hit cap home 0 ↔ stop home = false ∧ hit home = true := by
  constructor
  · intro hf
    have hs := hf.passed 0 (Nat.le_refl 0)
    have hh := hf.here
    rw [cell_zero h] at hs hh
    exact ⟨hs, hh⟩
  · rintro ⟨hs, hh⟩
    refine ⟨by rw [cell_zero h]; exact hh, ?_, by omega⟩
    intro i hi
    rw [Nat.le_zero.mp hi, cell_zero h]
    exact hs

theorem firstHit_succ (h : home < cap) {j : Nat} :
    FirstHit stop hit cap home (j+1) ↔
      stop home = false ∧ hit home = false ∧ FirstHit stop hit cap (advance cap home) j := by
  constructor
  · intro hf
    have hs := hf.passed 0 (by omega)
    have hh := hf.missed 0 (by omega)
    rw [cell_zero h] at hs hh
    refine ⟨hs, hh, ⟨?_, ?_, ?_⟩⟩
    · rw [cell_advance]
      exact hf.here
    · intro i hi
      rw [cell_advance]
      exact hf.passed (i+1) (by omega)
    · intro i hi
      rw [cell_advance]
      exact hf.missed (i+1) (by omega)
  · rintro ⟨hs, hh, hf⟩
    have hhere := hf.here
    rw [cell_advance] at hhere
    refine ⟨hhere, ?_, ?_⟩
    · intro i hi
      cases i with
      | zero => rw [cell_zero h, hs]
      | succ i => rw [← cell_advance, hf.passed i (by omega)]
    · intro i hi
      cases i with
      | zero => rw [cell_zero h, hh]
      | succ i => rw [← cell_advance, hf.missed i (by omega)]

theorem probe_eq_some_iff {left q : Nat} (h : home < cap) :
    probe stop hit cap left home = some q ↔
      ∃ j < left, q = cell cap home j ∧ FirstHit stop hit cap home j := by
  induction left generalizing home with
  | zero => simp [probe]
  | succ left ih =>
    rw [Nat.exists_lt_succ_left, cell_zero h, firstHit_zero h, probe]
    simp only [firstHit_succ h, ← cell_advance]
    cases hs : stop home with
    | true => simp
    | false =>
      cases hh : hit home with
      | true => simp [eq_comm]
      | false => simp [ih (advance_lt h)]

/-- The scan fails exactly when every hit is shielded by a stop met no later. -/
theorem probe_eq_none_iff {left : Nat} (h : home < cap) :
    probe stop hit cap left home = none ↔
      ∀ j < left, hit (cell cap home j) = true → ∃ i ≤ j, stop (cell cap home i) = true := by
  constructor
  · intro hn j
    induction j using Nat.strong_induction_on with
    | _ j ih =>
      intro hj hhit
      by_contra hno
      have hst : ∀ i ≤ j, stop (cell cap home i) = false := by
        intro i hi
        by_contra hc
        exact hno ⟨i, hi, by simpa using hc⟩
      by_cases hfirst : ∀ i < j, hit (cell cap home i) = false
      · have hs : probe stop hit cap left home = some _ :=
          (probe_eq_some_iff h).mpr ⟨j, hj, rfl, ⟨hhit, hst, hfirst⟩⟩
        rw [hn] at hs
        cases hs
      · obtain ⟨i, hi⟩ := not_forall.mp hfirst
        obtain ⟨hij, hhi⟩ := Classical.not_imp.mp hi
        obtain ⟨m, hm, hsm⟩ := ih i hij (by omega) (by simpa using hhi)
        rw [hst m (by omega)] at hsm
        cases hsm
  · intro hall
    cases hp : probe stop hit cap left home with
    | none => rfl
    | some q =>
      obtain ⟨j, hj, _, hf⟩ := (probe_eq_some_iff h).mp hp
      obtain ⟨i, hi, hsi⟩ := hall j hj hf.here
      rw [hf.passed i hi] at hsi
      cases hsi

/-- A failing scan goes on where it is not stopped. -/
theorem probe_succ_eq_none {left loc : Nat} (h : probe stop hit cap (left+1) loc = none)
    (hs : stop loc = false) : hit loc = false ∧ probe stop hit cap left (advance cap loc) = none := by
  rw [probe, hs] at h
  cases hh : hit loc with
  | true =>
    rw [hh] at h
    cases h
  | false =>
    rw [hh] at h
    exact ⟨rfl, h⟩

/-- Of two failing scans the one with fewer stops passes more cells. -/
theorem passed_mono {stop' hit' : Nat → Bool} {left loc : Nat}
    (hstop : ∀ p, stop' p = true → stop p = true)
    (h : probe stop hit cap left loc = none) (h' : probe stop' hit' cap left loc = none) :
    passed stop hit cap left loc ≤ passed stop' hit' cap left loc := by
  induction left generalizing loc with
  | zero => exact Nat.le_refl 0
  | succ left ih =>
    cases hs : stop loc with
    | true =>
      rw [passed, hs]
      exact Nat.zero_le _
    | false =>
      have hs' : stop' loc = false := by
        rw [Bool.eq_false_iff]
        intro ht
        rw [hstop loc ht] at hs
        cases hs
      obtain ⟨hh, hrest⟩ := probe_succ_eq_none h hs
      obtain ⟨hh', hrest'⟩ := probe_succ_eq_none h' hs'
      rw [passed, passed, hs, hh, hs', hh']
      exact Nat.succ_le_succ (ih hrest hrest')

/-- A failing scan that nothing stops passes every cell. -/
theorem passed_eq_left {left loc : Nat} (hstop : ∀ p < cap, stop p = false) (hloc : loc < cap)
    (h : probe stop hit cap left loc = none) : passed stop hit cap left loc = left := by
  induction left generalizing loc with
  | zero => rfl
  | succ left ih =>
    obtain ⟨hh, hrest⟩ := probe_succ_eq_none h (hstop loc hloc)
    rw [passed, hstop loc hloc, hh]
    exact congrArg Nat.succ (ih (advance_lt hloc) hrest)

end Scan

end LinearProbe
