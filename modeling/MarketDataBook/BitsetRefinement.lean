import MarketDataBook.HierarchicalBitset
import Mathlib.Data.List.Induction
import Mathlib.Order.Bounds.Basic

/-! `utils/HierarchicalBitset.h` refines a set of ticks for every `MAX_TICKS` it accepts. The
operations are run with their array subscripts checked and with `__builtin_clzll` and
`__builtin_ctzll` undefined at zero, so a result is also a proof that none of this went wrong. -/
namespace MarketDataBook
namespace HierarchicalBitset
variable {maxTicks : Nat}

def l1Size (maxTicks : Nat) : Nat := (maxTicks + 63) / 64
def l2Size (maxTicks : Nat) : Nat := (l1Size maxTicks + 63) / 64

def firstLevelAt (b : HierarchicalBitset maxTicks) (i : Nat) : Option (BitVec 64) :=
  if i < l1Size maxTicks then some (b.firstLevel i) else none

def secondLevelAt (b : HierarchicalBitset maxTicks) (j : Nat) : Option (BitVec 64) :=
  if j < l2Size maxTicks then some (b.secondLevel j) else none

def builtinClzll (x : BitVec 64) : Option Nat := if x = 0 then none else some x.clz.toNat

def builtinCtzll (x : BitVec 64) : Option Nat := if x = 0 then none else some x.ctz.toNat

def checkedBestOffer (b : HierarchicalBitset maxTicks) : Option Nat :=
  if b.thirdLevel = 0 then some npos
  else do
    let secondLevelIdx ← builtinClzll b.thirdLevel
    let firstLevelIdx ← builtinClzll (← b.secondLevelAt secondLevelIdx)
    let actualIdx ← builtinClzll (← b.firstLevelAt (firstLevelIdx + (secondLevelIdx <<< 6)))
    return actualIdx + (firstLevelIdx <<< 6) + (secondLevelIdx <<< 12)

def checkedBestBid (b : HierarchicalBitset maxTicks) : Option Nat :=
  if b.thirdLevel = 0 then some npos
  else do
    let secondLevelIdx := 63 - (← builtinCtzll b.thirdLevel)
    let firstLevelIdx := 63 - (← builtinCtzll (← b.secondLevelAt secondLevelIdx))
    let actualIdx := 63 - (← builtinCtzll (← b.firstLevelAt (firstLevelIdx + (secondLevelIdx <<< 6))))
    return actualIdx + (firstLevelIdx <<< 6) + (secondLevelIdx <<< 12)

def checkedSet (b : HierarchicalBitset maxTicks) (tickIdx : Nat) :
    Option (HierarchicalBitset maxTicks) := do
  let _ ← b.firstLevelAt (tickIdx >>> 6)
  let _ ← b.secondLevelAt (tickIdx >>> 6 >>> 6)
  return b.setPriceLevel tickIdx

/-- The second level is looked at only when the word below it has become zero. -/
def checkedClear (b : HierarchicalBitset maxTicks) (tickIdx : Nat) :
    Option (HierarchicalBitset maxTicks) := do
  let firstWord ← b.firstLevelAt (tickIdx >>> 6)
  if firstWord &&& ~~~ mask tickIdx = 0 then
    let _ ← b.secondLevelAt (tickIdx >>> 6 >>> 6)
  return b.clearPriceLevel tickIdx

inductive TickCall where
  | set (tickIdx : Nat)
  | clear (tickIdx : Nat)
  deriving DecidableEq

def TickCall.tickIdx : TickCall → Nat
  | .set t | .clear t => t

def checkedStep (b : HierarchicalBitset maxTicks) : TickCall → Option (HierarchicalBitset maxTicks)
  | .set t => b.checkedSet t
  | .clear t => b.checkedClear t

def ticks (calls : List TickCall) : Set Nat :=
  {t | (calls.filter fun c => c.tickIdx = t).getLast? = some (.set t)}

structure Quotes (calls : List TickCall) (b : HierarchicalBitset maxTicks) (offer bid : Nat) :
    Prop where
  reached : calls.foldlM checkedStep (new : HierarchicalBitset maxTicks) = some b
  readOffer : b.checkedBestOffer = some offer
  readBid : b.checkedBestBid = some bid
  least : (ticks calls).Nonempty → IsLeast (ticks calls) offer
  greatest : (ticks calls).Nonempty → IsGreatest (ticks calls) bid
  noOffer : offer = npos ↔ ticks calls = ∅
  noBid : bid = npos ↔ ticks calls = ∅

theorem ticks_nil : ticks [] = ∅ := by
  simp [ticks]

theorem mem_ticks_set (calls : List TickCall) (t u : Nat) :
    u ∈ ticks (calls ++ [.set t]) ↔ u = t ∨ u ∈ ticks calls := by
  by_cases hu : t = u
  · subst hu
    simp [ticks, TickCall.tickIdx]
  · have hne : u ≠ t := fun h => hu h.symm
    simp [ticks, TickCall.tickIdx, hu, hne]

theorem mem_ticks_clear (calls : List TickCall) (t u : Nat) :
    u ∈ ticks (calls ++ [.clear t]) ↔ u ≠ t ∧ u ∈ ticks calls := by
  by_cases hu : t = u
  · subst hu
    simp [ticks, TickCall.tickIdx]
  · have hne : u ≠ t := fun h => hu h.symm
    simp [ticks, TickCall.tickIdx, hu, hne]

structure Holds (calls : List TickCall) (b : HierarchicalBitset maxTicks) : Prop where
  wellFormed : b.WellFormed
  test : ∀ t, b.test t = true ↔ t ∈ ticks calls
  bounded : ∀ t ∈ ticks calls, t < maxTicks

section Subscripts
variable {calls : List TickCall} {b : HierarchicalBitset maxTicks}

theorem firstLevelAt_tick (b : HierarchicalBitset maxTicks) {t : Nat} (ht : t < maxTicks) :
    b.firstLevelAt (t >>> 6) = some (b.firstLevel (t >>> 6)) := by
  rw [firstLevelAt, if_pos]
  rw [shiftRight_six, l1Size]
  omega

theorem secondLevelAt_tick (b : HierarchicalBitset maxTicks) {t : Nat} (ht : t < maxTicks) :
    b.secondLevelAt (t >>> 6 >>> 6) = some (b.secondLevel (t >>> 6 >>> 6)) := by
  rw [secondLevelAt, if_pos]
  rw [shiftRight_six, shiftRight_six, l2Size, l1Size]
  omega

/-- A nonzero word of the first level is one of the array. -/
theorem Holds.firstLevelAt (h : Holds calls b) {i : Nat} (hi : b.firstLevel i ≠ 0) :
    b.firstLevelAt i = some (b.firstLevel i) := by
  obtain ⟨k, hk, hbit⟩ := (WordBits.ne_zero_iff_getMsbD _).mp hi
  have hdiv : (64 * i + k) / 64 = i := by omega
  have hmod : (64 * i + k) % 64 = k := by omega
  have htest : b.test (64 * i + k) = true := by rw [HierarchicalBitset.test, hdiv, hmod, hbit]
  have hlt := h.bounded _ ((h.test _).mp htest)
  rw [HierarchicalBitset.firstLevelAt, if_pos]
  rw [l1Size]
  omega

theorem Holds.secondLevelAt (h : Holds calls b) {j : Nat} (hj : b.secondLevel j ≠ 0) :
    b.secondLevelAt j = some (b.secondLevel j) := by
  obtain ⟨k, hk, hbit⟩ := (WordBits.ne_zero_iff_getMsbD _).mp hj
  have hdiv : (64 * j + k) / 64 = j := by omega
  have hmod : (64 * j + k) % 64 = k := by omega
  have hfirst : b.firstLevel (64 * j + k) ≠ 0 := by
    rw [← h.wellFormed.second, hdiv, hmod]
    exact hbit
  have hat := h.firstLevelAt hfirst
  rw [HierarchicalBitset.firstLevelAt] at hat
  split_ifs at hat with hlt
  rw [HierarchicalBitset.secondLevelAt, if_pos]
  rw [l2Size]
  omega

theorem Holds.checkedBestOffer (h : Holds calls b) :
    b.checkedBestOffer = some b.getBestOffer := by
  rw [HierarchicalBitset.checkedBestOffer, getBestOffer]
  split_ifs with h3
  · rfl
  · have w := h.wellFormed
    obtain ⟨hs, hsbit, _⟩ := WordBits.getMsbD_clz h3
    have h2 := (w.third _ hs).mp hsbit
    obtain ⟨hf, hfbit, _⟩ := WordBits.getMsbD_clz h2
    have h1 := (w.descend hf).mp hfbit
    simp only [builtinClzll, if_neg h3, bind, Option.bind_some, h.secondLevelAt h2, if_neg h2,
      h.firstLevelAt h1, if_neg h1, pure]

theorem Holds.checkedBestBid (h : Holds calls b) : b.checkedBestBid = some b.getBestBid := by
  rw [HierarchicalBitset.checkedBestBid, getBestBid]
  split_ifs with h3
  · rfl
  · have w := h.wellFormed
    obtain ⟨_, hsbit, _⟩ := WordBits.getMsbD_ctz h3
    have h2 := (w.third _ (by omega)).mp hsbit
    obtain ⟨_, hfbit, _⟩ := WordBits.getMsbD_ctz h2
    have h1 := (w.descend (by omega)).mp hfbit
    simp only [builtinCtzll, if_neg h3, bind, Option.bind_some, h.secondLevelAt h2, if_neg h2,
      h.firstLevelAt h1, if_neg h1, pure]

end Subscripts

section Run
variable {calls : List TickCall} {b : HierarchicalBitset maxTicks}

theorem Holds.new : Holds [] (new : HierarchicalBitset maxTicks) where
  wellFormed := new_wellFormed
  test := by simp [new_test, ticks_nil]
  bounded := by simp [ticks_nil]

theorem Holds.set (h : Holds calls b) {t : Nat} (ht : t < maxTicks) (hmax : maxTicks ≤ 262144) :
    Holds (calls ++ [.set t]) (b.setPriceLevel t) where
  wellFormed := set_wellFormed b t h.wellFormed (by omega)
  test := by
    intro u
    rw [test_set, mem_ticks_set, h.test]
  bounded := by
    intro u hu
    rw [mem_ticks_set] at hu
    obtain rfl | hu := hu
    · exact ht
    · exact h.bounded u hu

theorem Holds.clear (h : Holds calls b) {t : Nat} (ht : t < maxTicks) (hmax : maxTicks ≤ 262144) :
    Holds (calls ++ [.clear t]) (b.clearPriceLevel t) where
  wellFormed := clear_wellFormed b t h.wellFormed (by omega)
  test := by
    intro u
    rw [test_clear, mem_ticks_clear, h.test]
  bounded := by
    intro u hu
    rw [mem_ticks_clear] at hu
    exact h.bounded u hu.2

theorem Holds.checkedStep (h : Holds calls b) {c : TickCall} (hc : c.tickIdx < maxTicks)
    (hmax : maxTicks ≤ 262144) : ∃ b', b.checkedStep c = some b' ∧ Holds (calls ++ [c]) b' := by
  cases c with
  | set t =>
    have ht : t < maxTicks := hc
    refine ⟨b.setPriceLevel t, ?_, h.set ht hmax⟩
    rw [HierarchicalBitset.checkedStep, checkedSet, firstLevelAt_tick b ht, secondLevelAt_tick b ht]
    rfl
  | clear t =>
    have ht : t < maxTicks := hc
    refine ⟨b.clearPriceLevel t, ?_, h.clear ht hmax⟩
    rw [HierarchicalBitset.checkedStep, checkedClear, firstLevelAt_tick b ht,
      secondLevelAt_tick b ht]
    simp only [bind, Option.bind_some, pure]
    split_ifs <;> rfl

theorem run_holds (calls : List TickCall) (hmax : maxTicks ≤ 262144)
    (hin : ∀ c ∈ calls, c.tickIdx < maxTicks) :
    ∃ b, calls.foldlM checkedStep (new : HierarchicalBitset maxTicks) = some b ∧
      Holds calls b := by
  induction calls using List.reverseRecOn with
  | nil => exact ⟨_, rfl, Holds.new⟩
  | append_singleton calls c ih =>
    obtain ⟨b, hb, h⟩ := ih fun c' hc' => hin c' (List.mem_append_left _ hc')
    obtain ⟨b', hb', h'⟩ := h.checkedStep (hin c (by simp)) hmax
    refine ⟨b', ?_, h'⟩
    rw [List.foldlM_append, hb]
    simp [hb']

theorem Holds.ne_npos (h : Holds calls b) (hmax : maxTicks ≤ 262144) {t : Nat}
    (ht : t ∈ ticks calls) : t ≠ npos := by
  have hlt := h.bounded t ht
  rw [npos]
  omega

theorem Holds.offer (h : Holds calls b) (hne : (ticks calls).Nonempty) :
    IsLeast (ticks calls) b.getBestOffer := by
  obtain ⟨t, ht⟩ := hne
  refine ⟨(h.test _).mp (h.wellFormed.getBestOffer_spec ((h.test t).mpr ht)).1, ?_⟩
  intro u hu
  exact (h.wellFormed.getBestOffer_spec ((h.test u).mpr hu)).2

theorem Holds.bid (h : Holds calls b) (hne : (ticks calls).Nonempty) :
    IsGreatest (ticks calls) b.getBestBid := by
  obtain ⟨t, ht⟩ := hne
  refine ⟨(h.test _).mp (h.wellFormed.getBestBid_spec ((h.test t).mpr ht)).1, ?_⟩
  intro u hu
  exact (h.wellFormed.getBestBid_spec ((h.test u).mpr hu)).2

theorem Holds.best_eq_npos (h : Holds calls b) (he : ticks calls = ∅) :
    b.getBestOffer = npos ∧ b.getBestBid = npos := by
  apply h.wellFormed.best_eq_npos
  intro t
  rw [Bool.eq_false_iff, ne_eq, h.test, he]
  exact Set.notMem_empty t

end Run

/-- Every run of sets and clears within `MAX_TICKS` goes through, and afterwards the best offer
and the best bid are the extremes of the ticks that are set. -/
theorem run_quotes (hmax : maxTicks ≤ 262144) (calls : List TickCall)
    (hin : ∀ c ∈ calls, c.tickIdx < maxTicks) :
    ∃ b : HierarchicalBitset maxTicks, ∃ offer bid, Quotes calls b offer bid := by
  obtain ⟨b, hb, h⟩ := run_holds calls hmax hin
  refine ⟨b, b.getBestOffer, b.getBestBid, hb, h.checkedBestOffer, h.checkedBestBid, h.offer,
    h.bid, ?_, ?_⟩
  · obtain he | hne := (ticks calls).eq_empty_or_nonempty
    · exact iff_of_true (h.best_eq_npos he).1 he
    · exact iff_of_false (h.ne_npos hmax (h.offer hne).1) hne.ne_empty
  · obtain he | hne := (ticks calls).eq_empty_or_nonempty
    · exact iff_of_true (h.best_eq_npos he).2 he
    · exact iff_of_false (h.ne_npos hmax (h.bid hne).1) hne.ne_empty

/-- The last tick of a bitset of 4097: the only one of its words on both levels. -/
theorem run_quotes_last_word :
    ∃ b : HierarchicalBitset 4097, ∃ offer bid,
      Quotes [.set 4096, .set 63, .set 63, .clear 64, .clear 63] b offer bid :=
  run_quotes (by decide) _ (by decide)

end HierarchicalBitset
end MarketDataBook
