import MarketDataBook.Library.WordBits
import Mathlib.Logic.Function.Basic

/-! `utils/HierarchicalBitset.h`: three layers of 64-bit words over the price ticks.
Tick `t` is bit `t % 64` of word `t / 64`, counted from the most significant bit; a bit
of the upper layers says that a word of the layer below is nonzero. -/
namespace MarketDataBook
open WordBits

/-- The value of `static_cast<size_t>(-1)`. -/
def npos : Nat := 2^64 - 1

structure HierarchicalBitset (maxTicks : Nat) where
  firstLevel : Nat → BitVec 64
  secondLevel : Nat → BitVec 64
  thirdLevel : BitVec 64

namespace HierarchicalBitset
variable {maxTicks : Nat}

def new : HierarchicalBitset maxTicks := ⟨fun _ => 0, fun _ => 0, 0⟩

def getBestOffer (b : HierarchicalBitset maxTicks) : Nat :=
  if b.thirdLevel = 0 then npos
  else
    let secondLevelIdx := b.thirdLevel.clz.toNat
    let firstLevelIdx := (b.secondLevel secondLevelIdx).clz.toNat
    let actualIdx := (b.firstLevel (firstLevelIdx + (secondLevelIdx <<< 6))).clz.toNat
    actualIdx + (firstLevelIdx <<< 6) + (secondLevelIdx <<< 12)

def getBestBid (b : HierarchicalBitset maxTicks) : Nat :=
  if b.thirdLevel = 0 then npos
  else
    let secondLevelIdx := 63 - b.thirdLevel.ctz.toNat
    let firstLevelIdx := 63 - (b.secondLevel secondLevelIdx).ctz.toNat
    let actualIdx := 63 - (b.firstLevel (firstLevelIdx + (secondLevelIdx <<< 6))).ctz.toNat
    actualIdx + (firstLevelIdx <<< 6) + (secondLevelIdx <<< 12)

def mask (idx : Nat) : BitVec 64 := 1#64 <<< (63 - (idx &&& 63))

def setPriceLevel (b : HierarchicalBitset maxTicks) (tickIdx : Nat) :
    HierarchicalBitset maxTicks :=
  let firstLevelIdx := tickIdx >>> 6
  let secondLevelIdx := firstLevelIdx >>> 6
  { firstLevel := Function.update b.firstLevel firstLevelIdx
      (b.firstLevel firstLevelIdx ||| mask tickIdx)
    secondLevel := Function.update b.secondLevel secondLevelIdx
      (b.secondLevel secondLevelIdx ||| mask firstLevelIdx)
    thirdLevel := b.thirdLevel ||| mask secondLevelIdx }

def clearPriceLevel (b : HierarchicalBitset maxTicks) (tickIdx : Nat) :
    HierarchicalBitset maxTicks :=
  let firstLevelIdx := tickIdx >>> 6
  let secondLevelIdx := firstLevelIdx >>> 6
  let firstWord := b.firstLevel firstLevelIdx &&& ~~~ mask tickIdx
  let b := { b with firstLevel := Function.update b.firstLevel firstLevelIdx firstWord }
  if firstWord = 0 then
    let secondWord := b.secondLevel secondLevelIdx &&& ~~~ mask firstLevelIdx
    let b := { b with secondLevel := Function.update b.secondLevel secondLevelIdx secondWord }
    if secondWord = 0 then { b with thirdLevel := b.thirdLevel &&& ~~~ mask secondLevelIdx }
    else b
  else b

def test (b : HierarchicalBitset maxTicks) (tickIdx : Nat) : Bool :=
  (b.firstLevel (tickIdx / 64)).getMsbD (tickIdx % 64)

/-- Both upper layers are exact summaries of the layer below them. -/
structure WellFormed (b : HierarchicalBitset maxTicks) : Prop where
  second : ∀ i, (b.secondLevel (i / 64)).getMsbD (i % 64) = true ↔ b.firstLevel i ≠ 0
  third : ∀ j < 64, b.thirdLevel.getMsbD j = true ↔ b.secondLevel j ≠ 0
  bounded : ∀ j, 64 ≤ j → b.secondLevel j = 0

theorem shiftRight_six (n : Nat) : n >>> 6 = n / 64 := Nat.shiftRight_eq_div_pow n 6

theorem getMsbD_mask (i k : Nat) : (mask i).getMsbD k = decide (k = i % 64) := by
  have h : i &&& 63 = i % 64 := Nat.and_two_pow_sub_one_eq_mod i 6
  rw [mask, h]
  exact getMsbD_one_shiftLeft (Nat.mod_lt i (by omega)) k

theorem getMsbD_or_mask (x : BitVec 64) (i k : Nat) :
    (x ||| mask i).getMsbD k = true ↔ x.getMsbD k = true ∨ k = i % 64 := by
  simp [getMsbD_mask]

theorem getMsbD_andNot_mask (x : BitVec 64) (i k : Nat) :
    (x &&& ~~~ mask i).getMsbD k = true ↔ x.getMsbD k = true ∧ k ≠ i % 64 := by
  by_cases hk : k < 64
  · simp [getMsbD_mask, hk]
  · simp [BitVec.getMsbD_eq_getLsbD, hk]

theorem or_mask_ne_zero (x : BitVec 64) (i : Nat) : x ||| mask i ≠ 0 := by
  rw [ne_zero_iff_getMsbD]
  exact ⟨i % 64, Nat.mod_lt i (by omega), (getMsbD_or_mask x i _).mpr (Or.inr rfl)⟩

theorem new_wellFormed : (new : HierarchicalBitset maxTicks).WellFormed where
  second := by simp [new]
  third := by simp [new]
  bounded := by simp [new]

theorem new_test (t : Nat) : (new : HierarchicalBitset maxTicks).test t = false := by
  simp [new, test]

section Set
variable (b : HierarchicalBitset maxTicks) (t : Nat)

theorem set_firstLevel (i : Nat) : (b.setPriceLevel t).firstLevel i =
    if i = t / 64 then b.firstLevel i ||| mask t else b.firstLevel i := by
  by_cases hi : i = t / 64
  · subst hi
    simp [setPriceLevel, shiftRight_six]
  · simp only [setPriceLevel, shiftRight_six, Function.update_of_ne hi, if_neg hi]

theorem set_secondLevel (j : Nat) : (b.setPriceLevel t).secondLevel j =
    if j = t / 64 / 64 then b.secondLevel j ||| mask (t / 64) else b.secondLevel j := by
  by_cases hj : j = t / 64 / 64
  · subst hj
    simp [setPriceLevel, shiftRight_six]
  · simp only [setPriceLevel, shiftRight_six, Function.update_of_ne hj, if_neg hj]

theorem test_set (u : Nat) :
    (b.setPriceLevel t).test u = true ↔ u = t ∨ b.test u = true := by
  unfold test
  rw [set_firstLevel]
  split_ifs with hw
  · rw [getMsbD_or_mask, or_comm]
    refine or_congr_left ?_
    constructor <;> omega
  · have hne : u ≠ t := fun h => hw (by rw [h])
    simp [hne]

theorem set_wellFormed (w : b.WellFormed) (ht : t < 64^3) :
    (b.setPriceLevel t).WellFormed := by
  constructor
  · intro i
    rw [set_firstLevel, set_secondLevel]
    by_cases hi : i = t / 64
    · subst hi
      rw [if_pos rfl, if_pos rfl, getMsbD_or_mask]
      exact iff_of_true (Or.inr rfl) (or_mask_ne_zero _ t)
    · rw [if_neg hi, ← w.second i]
      split_ifs with hj
      · rw [getMsbD_or_mask]
        constructor
        · rintro (h | h)
          · exact h
          · omega
        · exact Or.inl
      · rfl
  · intro j hj
    rw [set_secondLevel]
    have h3 : (b.setPriceLevel t).thirdLevel = b.thirdLevel ||| mask (t / 64 / 64) := by
      simp [setPriceLevel, shiftRight_six]
    rw [h3, getMsbD_or_mask, Nat.mod_eq_of_lt (show t / 64 / 64 < 64 by omega), w.third j hj]
    split_ifs with hjt
    · exact iff_of_true (Or.inr hjt) (or_mask_ne_zero _ (t / 64))
    · simp [hjt]
  · intro j hj
    rw [set_secondLevel, if_neg (by omega), w.bounded j hj]

end Set

section Clear
variable (b : HierarchicalBitset maxTicks) (t : Nat)

theorem clear_firstLevel (i : Nat) : (b.clearPriceLevel t).firstLevel i =
    if i = t / 64 then b.firstLevel i &&& ~~~ mask t else b.firstLevel i := by
  have hf : (b.clearPriceLevel t).firstLevel = Function.update b.firstLevel (t >>> 6)
      (b.firstLevel (t >>> 6) &&& ~~~ mask t) := by
    simp only [clearPriceLevel]
    split_ifs <;> rfl
  rw [hf, shiftRight_six, Function.update_apply]
  split_ifs with hi
  · rw [hi]
  · rfl

theorem clear_secondLevel (j : Nat) : (b.clearPriceLevel t).secondLevel j =
    if j = t / 64 / 64 ∧ b.firstLevel (t / 64) &&& ~~~ mask t = 0
      then b.secondLevel j &&& ~~~ mask (t / 64) else b.secondLevel j := by
  have hs : (b.clearPriceLevel t).secondLevel =
      if b.firstLevel (t / 64) &&& ~~~ mask t = 0 then
        Function.update b.secondLevel (t / 64 / 64)
          (b.secondLevel (t / 64 / 64) &&& ~~~ mask (t / 64))
      else b.secondLevel := by
    simp only [clearPriceLevel, shiftRight_six]
    split_ifs <;> rfl
  rw [hs]
  by_cases h1 : b.firstLevel (t / 64) &&& ~~~ mask t = 0
  · rw [if_pos h1, Function.update_apply]
    simp only [h1, and_true]
    split_ifs with hj
    · rw [hj]
    · rfl
  · rw [if_neg h1, if_neg (fun h => h1 h.2)]

theorem clear_thirdLevel : (b.clearPriceLevel t).thirdLevel =
    if b.firstLevel (t / 64) &&& ~~~ mask t = 0 ∧
        b.secondLevel (t / 64 / 64) &&& ~~~ mask (t / 64) = 0
      then b.thirdLevel &&& ~~~ mask (t / 64 / 64) else b.thirdLevel := by
  simp only [clearPriceLevel, shiftRight_six]
  split_ifs with h1 h2 h3 h3 h3
  · rfl
  · exact absurd ⟨h1, h2⟩ h3
  · exact absurd h3.2 h2
  · rfl
  · exact absurd h3.1 h1
  · rfl

theorem test_clear (u : Nat) :
    (b.clearPriceLevel t).test u = true ↔ u ≠ t ∧ b.test u = true := by
  unfold test
  rw [clear_firstLevel]
  split_ifs with hw
  · rw [getMsbD_andNot_mask, and_comm]
    refine and_congr_left' (not_congr ?_)
    constructor <;> omega
  · have hne : u ≠ t := fun h => hw (by rw [h])
    simp [hne]

theorem WellFormed.clear_second (w : b.WellFormed) (i : Nat) :
    ((b.clearPriceLevel t).secondLevel (i / 64)).getMsbD (i % 64) = true ↔
      (b.clearPriceLevel t).firstLevel i ≠ 0 := by
  rw [clear_firstLevel, clear_secondLevel]
  by_cases hi : i = t / 64
  · subst hi
    rw [if_pos rfl]
    by_cases h0 : b.firstLevel (t / 64) &&& ~~~ mask t = 0
    · rw [if_pos ⟨rfl, h0⟩, getMsbD_andNot_mask]
      simp [h0]
    · rw [if_neg (fun h => h0 h.2), w.second]
      exact iff_of_true (ne_zero_of_and_ne_zero h0) h0
  · rw [if_neg hi, ← w.second]
    split_ifs with h
    · have hpos : i % 64 ≠ t / 64 % 64 := by omega
      rw [getMsbD_andNot_mask]
      simp [hpos]
    · rfl

theorem WellFormed.clear_third (w : b.WellFormed) (ht : t < 64^3) {j : Nat} (hj : j < 64) :
    (b.clearPriceLevel t).thirdLevel.getMsbD j = true ↔
      (b.clearPriceLevel t).secondLevel j ≠ 0 := by
  have hj2 : t / 64 / 64 < 64 := by omega
  rw [clear_thirdLevel, clear_secondLevel]
  by_cases h1 : b.firstLevel (t / 64) &&& ~~~ mask t = 0
  · by_cases hjt : j = t / 64 / 64
    · subst hjt
      by_cases h2 : b.secondLevel (t / 64 / 64) &&& ~~~ mask (t / 64) = 0
      · rw [if_pos ⟨h1, h2⟩, if_pos ⟨rfl, h1⟩, getMsbD_andNot_mask, Nat.mod_eq_of_lt hj2]
        simp [h2]
      · rw [if_neg (fun h => h2 h.2), if_pos ⟨rfl, h1⟩, w.third _ hj]
        exact iff_of_true (ne_zero_of_and_ne_zero h2) h2
    · rw [if_neg (fun h : j = t / 64 / 64 ∧ _ => hjt h.1), ← w.third j hj]
      split_ifs
      · rw [getMsbD_andNot_mask, Nat.mod_eq_of_lt hj2]
        simp [hjt]
      · rfl
  · rw [if_neg (fun h => h1 h.1), if_neg (fun h => h1 h.2), w.third j hj]

theorem clear_wellFormed (w : b.WellFormed) (ht : t < 64^3) :
    (b.clearPriceLevel t).WellFormed := by
  refine ⟨w.clear_second b t, fun j hj => w.clear_third b t ht hj, ?_⟩
  intro j hj
  rw [clear_secondLevel, if_neg (by omega), w.bounded j hj]

end Clear

section Best
variable {b : HierarchicalBitset maxTicks}

theorem WellFormed.second_of_test (w : b.WellFormed) {t : Nat} (h : b.test t = true) :
    (b.secondLevel (t / 4096)).getMsbD (t / 64 % 64) = true := by
  rw [show t / 4096 = t / 64 / 64 by omega, w.second, ne_zero_iff_getMsbD]
  exact ⟨t % 64, Nat.mod_lt t (by omega), h⟩

theorem WellFormed.third_of_test (w : b.WellFormed) {t : Nat} (h : b.test t = true) :
    t / 4096 < 64 ∧ b.thirdLevel.getMsbD (t / 4096) = true := by
  have hs := w.second_of_test h
  have hlt : t / 4096 < 64 := by
    by_contra hge
    rw [w.bounded (t / 4096) (by omega)] at hs
    simp at hs
  refine ⟨hlt, ?_⟩
  rw [w.third _ hlt, ne_zero_iff_getMsbD]
  exact ⟨_, Nat.mod_lt _ (by omega), hs⟩

theorem WellFormed.third_eq_zero_iff (w : b.WellFormed) :
    b.thirdLevel = 0 ↔ ∀ t, b.test t = false := by
  constructor
  · intro h t
    by_contra ht
    have h3 := (w.third_of_test (by simpa using ht)).2
    rw [h] at h3
    simp at h3
  · intro h
    by_contra h3
    obtain ⟨j, hj, hbit⟩ := (ne_zero_iff_getMsbD _).mp h3
    obtain ⟨k, hk, hbit⟩ := (ne_zero_iff_getMsbD _).mp ((w.third j hj).mp hbit)
    have hfirst : b.firstLevel (64*j + k) ≠ 0 := by
      rw [← w.second, show (64*j + k) / 64 = j by omega, show (64*j + k) % 64 = k by omega]
      exact hbit
    obtain ⟨i, hi, hbit⟩ := (ne_zero_iff_getMsbD _).mp hfirst
    have ht := h (64*(64*j + k) + i)
    rw [test, show (64*(64*j + k) + i) / 64 = 64*j + k by omega,
      show (64*(64*j + k) + i) % 64 = i by omega, hbit] at ht
    cases ht

theorem WellFormed.descend (w : b.WellFormed) {s f : Nat} (hf : f < 64) :
    (b.secondLevel s).getMsbD f = true ↔ b.firstLevel (f + (s <<< 6)) ≠ 0 := by
  rw [← w.second, Nat.shiftLeft_eq, show (f + s * 2^6) / 64 = s by omega,
    show (f + s * 2^6) % 64 = f by omega]

theorem test_join (b : HierarchicalBitset maxTicks) {s f a : Nat} (ha : a < 64) :
    b.test (a + (f <<< 6) + (s <<< 12)) = (b.firstLevel (f + (s <<< 6))).getMsbD a := by
  rw [test, Nat.shiftLeft_eq, Nat.shiftLeft_eq, Nat.shiftLeft_eq,
    show (a + f * 2^6 + s * 2^12) / 64 = f + s * 2^6 by omega,
    show (a + f * 2^6 + s * 2^12) % 64 = a by omega]

/-- First set bits, layer by layer, make the least tick. -/
theorem WellFormed.join_le (w : b.WellFormed) {s f a t : Nat} (hf : f < 64) (ha : a < 64)
    (hs : ∀ k < s, b.thirdLevel.getMsbD k = false)
    (hfirst : ∀ k < f, (b.secondLevel s).getMsbD k = false)
    (hbit : ∀ k < a, (b.firstLevel (f + (s <<< 6))).getMsbD k = false)
    (ht : b.test t = true) : a + (f <<< 6) + (s <<< 12) ≤ t := by
  have h3 := (w.third_of_test ht).2
  have h2 := w.second_of_test ht
  rw [Nat.shiftLeft_eq, Nat.shiftLeft_eq]
  rcases Nat.lt_trichotomy (t / 4096) s with hlt | hst | hgt
  · rw [hs _ hlt] at h3
    cases h3
  · rw [hst] at h2
    rcases Nat.lt_trichotomy (t / 64 % 64) f with hlt | hft | hgt
    · rw [hfirst _ hlt] at h2
      cases h2
    · by_cases hat : t % 64 < a
      · have h1 := hbit _ hat
        rw [Nat.shiftLeft_eq, show f + s * 2^6 = t / 64 by omega] at h1
        rw [test, h1] at ht
        cases ht
      · omega
    · omega
  · omega

/-- Last set bits, layer by layer, make the greatest tick. -/
theorem WellFormed.le_join (w : b.WellFormed) {s f a t : Nat}
    (hs : ∀ k, s < k → b.thirdLevel.getMsbD k = false)
    (hlast : ∀ k, f < k → (b.secondLevel s).getMsbD k = false)
    (hbit : ∀ k, a < k → (b.firstLevel (f + (s <<< 6))).getMsbD k = false)
    (ht : b.test t = true) : t ≤ a + (f <<< 6) + (s <<< 12) := by
  have h3 := (w.third_of_test ht).2
  have h2 := w.second_of_test ht
  rw [Nat.shiftLeft_eq, Nat.shiftLeft_eq]
  rcases Nat.lt_trichotomy (t / 4096) s with hlt | hst | hgt
  · omega
  · rw [hst] at h2
    rcases Nat.lt_trichotomy (t / 64 % 64) f with hlt | hft | hgt
    · omega
    · by_cases hat : a < t % 64
      · have h1 := hbit _ hat
        rw [Nat.shiftLeft_eq, show f + s * 2^6 = t / 64 by omega] at h1
        rw [test, h1] at ht
        cases ht
      · omega
    · rw [hlast _ hgt] at h2
      cases h2
  · rw [hs _ hgt] at h3
    cases h3

theorem WellFormed.third_ne_zero (w : b.WellFormed) {t : Nat} (ht : b.test t = true) :
    b.thirdLevel ≠ 0 := by
  intro h
  rw [w.third_eq_zero_iff.mp h t] at ht
  cases ht

theorem WellFormed.getBestOffer_spec (w : b.WellFormed) {t : Nat} (ht : b.test t = true) :
    b.test b.getBestOffer = true ∧ b.getBestOffer ≤ t := by
  have h3 := w.third_ne_zero ht
  obtain ⟨hs, hsbit, hsmin⟩ := getMsbD_clz h3
  obtain ⟨hf, hfbit, hfmin⟩ := getMsbD_clz ((w.third _ hs).mp hsbit)
  obtain ⟨ha, habit, hamin⟩ := getMsbD_clz ((w.descend hf).mp hfbit)
  rw [getBestOffer, if_neg h3]
  exact ⟨(test_join b ha).trans habit, w.join_le hf ha hsmin hfmin hamin ht⟩

theorem WellFormed.getBestBid_spec (w : b.WellFormed) {t : Nat} (ht : b.test t = true) :
    b.test b.getBestBid = true ∧ t ≤ b.getBestBid := by
  have h3 := w.third_ne_zero ht
  obtain ⟨_, hsbit, hsmax⟩ := getMsbD_ctz h3
  obtain ⟨_, hfbit, hfmax⟩ := getMsbD_ctz ((w.third _ (by omega)).mp hsbit)
  obtain ⟨_, habit, hamax⟩ := getMsbD_ctz ((w.descend (by omega)).mp hfbit)
  rw [getBestBid, if_neg h3]
  exact ⟨(test_join b (by omega)).trans habit, w.le_join hsmax hfmax hamax ht⟩

theorem WellFormed.best_eq_npos (w : b.WellFormed) (h : ∀ t, b.test t = false) :
    b.getBestOffer = npos ∧ b.getBestBid = npos := by
  have h3 := w.third_eq_zero_iff.mpr h
  exact ⟨if_pos h3, if_pos h3⟩

end Best

end HierarchicalBitset
end MarketDataBook
