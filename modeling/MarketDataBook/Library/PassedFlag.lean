import MarketDataBook.Library.ReleaseAcquire

/-! A flag that hands a set of cells from thread to thread. The value of a store says whose turn
it is next. A thread waits until an acquire load of the flag returns a store with its own name,
uses the cells, and passes the flag on with a release store. Then nobody uses the cells out of
turn, no two accesses to them race, and what a waiting thread may still read of the past never
lets it in: the one store in its sight that names it is the newest. -/
namespace ReleaseAcquire
variable {τ κ ι β α : Type*}

def View.Below (v w : View τ κ) : Prop :=
  (∀ t, v.clock t ≤ w.clock t) ∧ ∀ k, v.floor k ≤ w.floor k

theorem View.Below.refl (v : View τ κ) : v.Below v :=
  ⟨fun _ => Nat.le_refl _, fun _ => Nat.le_refl _⟩

theorem View.Below.trans {v w x : View τ κ} (h : v.Below w) (h' : w.Below x) : v.Below x :=
  ⟨fun t => Nat.le_trans (h.1 t) (h'.1 t), fun k => Nat.le_trans (h.2 k) (h'.2 k)⟩

theorem View.below_join_left (v w : View τ κ) : v.Below (v.join w) :=
  ⟨fun _ => Nat.le_max_left _ _, fun _ => Nat.le_max_left _ _⟩

theorem View.below_join_right (v w : View τ κ) : w.Below (v.join w) :=
  ⟨fun _ => Nat.le_max_right _ _, fun _ => Nat.le_max_right _ _⟩

namespace Machine

/-- To have gone up to a store is to know what it carries. -/
def Informed (m : Machine τ κ ι β α) (v : View τ κ) : Prop :=
  ∀ k s, (m.stores k)[v.floor k]? = some s → s.view.Below v

structure Synced (m : Machine τ κ ι β α) : Prop where
  consistent : m.Consistent
  views : ∀ t, m.Informed (m.view t)
  stores : ∀ k, ∀ s ∈ m.stores k, m.Informed s.view

theorem synced_start (atomics : κ → β) (cells : ι → α) :
    (start atomics cells : Machine τ κ ι β α).Synced := by
  have hinformed : (start atomics cells : Machine τ κ ι β α).Informed .bottom := by
    intro k s hs
    have hs : some _ = some s := hs
    cases hs
    exact View.Below.refl _
  refine ⟨consistent_start _ _, fun _ => hinformed, ?_⟩
  intro k s hs
  rw [List.mem_singleton.mp hs]
  exact hinformed

section Informed
variable {m m' : Machine τ κ ι β α} {v w : View τ κ}

theorem Informed.join (hv : m.Informed v) (hw : m.Informed w) : m.Informed (v.join w) := by
  intro k s hs
  rw [join_floor] at hs
  obtain hle | hle := Nat.le_total (v.floor k) (w.floor k)
  · rw [Nat.max_eq_right hle] at hs
    exact (hw k s hs).trans (View.below_join_right v w)
  · rw [Nat.max_eq_left hle] at hs
    exact (hv k s hs).trans (View.below_join_left v w)

/-- New stores come after those that the view knows of. -/
theorem Informed.grows (h : m.Informed v) (hc : m.Covers v)
    (hg : ∀ k n, n < (m.stores k).length → (m'.stores k)[n]? = (m.stores k)[n]?) :
    m'.Informed v := by
  intro k s hs
  rw [hg k _ (hc.1 k)] at hs
  exact h k s hs

end Informed

theorem below_raise [DecidableEq κ] {m : Machine τ κ ι β α} {v : View τ κ} {k : κ}
    (h : m.Covers v) : v.Below (v.raise k (m.stores k).length) := by
  refine ⟨fun _ => Nat.le_refl _, ?_⟩
  intro j
  rw [raise_floor]
  split_ifs with hj
  · rw [hj]
    exact Nat.le_of_lt (h.1 k)
  · exact Nat.le_refl _

/-- A plain access: only a clock goes on. -/
theorem Synced.access [DecidableEq τ] {m : Machine τ κ ι β α} {t : τ} {cell : ι → Cell τ α}
    (h : m.Synced)
    (hc : Consistent { m with view := Function.update m.view t ((m.view t).tick t), cell := cell }) :
    Synced { m with view := Function.update m.view t ((m.view t).tick t), cell := cell } := by
  refine ⟨hc, ?_, h.stores⟩
  intro u
  dsimp only
  rw [Function.update_apply]
  split_ifs with hu
  · intro j s hs
    refine View.Below.trans (h.views t j s hs) ⟨?_, fun _ => Nat.le_refl _⟩
    intro r
    rw [tick_clock]
    split_ifs with hr
    · rw [hr]
      exact Nat.le_succ _
    · exact Nat.le_refl _
  · exact h.views u

theorem Synced.readCells [DecidableEq τ] {m : Machine τ κ ι β α} {t : τ} (h : m.Synced)
    {p : ι → Bool} : (m.readCells t p).Synced :=
  h.access h.consistent.readCells

theorem Synced.writeCells [DecidableEq τ] {m : Machine τ κ ι β α} {t : τ} (h : m.Synced)
    {f : ι → Option α} : (m.writeCells t f).Synced :=
  h.access h.consistent.writeCells

section Synced
variable [DecidableEq τ] [DecidableEq κ] {m : Machine τ κ ι β α} {t : τ} {k : κ} {n : Nat}

theorem Synced.loadAcquire (h : m.Synced) (hr : m.Readable t k n) : (m.loadAcquire t k n).Synced := by
  have hc := h.consistent.loadAcquire hr
  obtain ⟨s, hs⟩ := hr.store
  rw [h.consistent.loadAcquire_eq hr hs] at hc ⊢
  refine ⟨hc, ?_, h.stores⟩
  intro u
  dsimp only
  rw [Function.update_apply]
  split_ifs with hu
  · exact (h.views t).join (h.stores k _ (List.mem_of_getElem? hs))
  · exact h.views u

theorem storeRelease_getElem? {w : β} (j : κ) (i : Nat) (hi : i < (m.stores j).length) :
    ((m.storeRelease t k w).stores j)[i]? = (m.stores j)[i]? := by
  by_cases hj : j = k
  · subst hj
    rw [storeRelease_stores_self, List.getElem?_append_left hi]
  · rw [storeRelease_stores_of_ne hj]

theorem Synced.storeRelease (h : m.Synced) (w : β) : (m.storeRelease t k w).Synced := by
  have hc := h.consistent
  have hnew : (m.storeRelease t k w).Informed ((m.view t).raise k (m.stores k).length) := by
    intro j s hs
    by_cases hj : j = k
    · subst hj
      rw [raise_floor, if_pos rfl, storeRelease_stores_self, List.getElem?_concat_length,
        Option.some.injEq] at hs
      rw [← hs]
      exact View.Below.refl _
    · rw [raise_floor, if_neg hj, storeRelease_stores_of_ne hj] at hs
      exact (h.views t j s hs).trans (below_raise (hc.views t))
  refine ⟨hc.storeRelease w, ?_, ?_⟩
  · intro u
    by_cases hu : u = t
    · rw [hu, storeRelease_view_self]
      exact hnew
    · rw [storeRelease_view_of_ne hu]
      exact (h.views u).grows (hc.views u) storeRelease_getElem?
  · intro j s hs
    by_cases hj : j = k
    · subst hj
      rw [storeRelease_stores_self] at hs
      obtain hold | hlast := List.mem_append.mp hs
      · exact (h.stores j s hold).grows (hc.stores j s hold) storeRelease_getElem?
      · rw [List.mem_singleton.mp hlast]
        exact hnew
    · rw [storeRelease_stores_of_ne hj] at hs
      exact (h.stores j s hs).grows (hc.stores j s hs) storeRelease_getElem?

end Synced

structure Passed (m : Machine τ κ ι β α) (k : κ) (cells : ι → Prop) (turn : β → τ)
    (s : Store τ κ β) : Prop where
  last : (m.stores k)[(m.stores k).length - 1]? = some s
  /-- A thread whose turn it was has passed the flag on for good. -/
  waiting : ∀ t n s', m.Readable t k n → (m.stores k)[n]? = some s' → turn s'.value = t →
    n + 1 = (m.stores k).length
  /-- Who gets the flag learns of all accesses but its own. -/
  known : ∀ i, cells i → ∀ u, u ≠ turn s.value →
    (m.cell i).written u ≤ s.view.clock u ∧ (m.cell i).read u ≤ s.view.clock u

def Holds (m : Machine τ κ ι β α) (k : κ) (turn : β → τ) (s : Store τ κ β) (t : τ) : Prop :=
  turn s.value = t ∧ (m.view t).floor k + 1 = (m.stores k).length

theorem passed_start (atomics : κ → β) (cell : ι → α) (k : κ) (cells : ι → Prop) (turn : β → τ) :
    (start atomics cell : Machine τ κ ι β α).Passed k cells turn ⟨atomics k, .bottom⟩ where
  last := rfl
  waiting := fun _ _ _ hr _ _ => Nat.le_antisymm hr.2 (Nat.succ_le_succ (Nat.zero_le _))
  known := fun _ _ _ _ => ⟨Nat.le_refl 0, Nat.le_refl 0⟩

section Passed
variable {m m' : Machine τ κ ι β α} {k : κ} {cells : ι → Prop} {turn : β → τ} {s : Store τ κ β}
  {t : τ}

/-- Whoever holds the flag knows of every access to the cells. -/
theorem Passed.ordered (h : m.Passed k cells turn s) (hm : m.Synced) (ht : m.Holds k turn s t)
    {i : ι} (hi : cells i) : m.WriteOrdered t i := by
  obtain ⟨hturn, hfloor⟩ := ht
  intro u
  by_cases hu : u = t
  · rw [hu]
    exact hm.consistent.cells i t
  · have hlast := h.last
    rw [← hfloor, Nat.add_sub_cancel] at hlast
    have hbelow := (hm.views t k s hlast).1 u
    obtain ⟨hw, hr⟩ := h.known i hi u (by rw [hturn]; exact hu)
    exact ⟨Nat.le_trans hw hbelow, Nat.le_trans hr hbelow⟩

/-- A load of the flag that returns a store with the thread's name returns the newest. -/
theorem Passed.loaded (h : m.Passed k cells turn s) {n : Nat} (hr : m.Readable t k n)
    {s' : Store τ κ β} (hs : (m.stores k)[n]? = some s') (ht : turn s'.value = t) :
    s' = s ∧ n + 1 = (m.stores k).length := by
  have hn := h.waiting t n s' hr hs ht
  have hlast := h.last
  rw [← hn, Nat.add_sub_cancel, hs, Option.some.injEq] at hlast
  exact ⟨hlast, hn⟩

/-- Steps that do not store to the flag, and access its cells only on behalf of the holder. -/
theorem Passed.step (h : m.Passed k cells turn s) (hs : m'.stores k = m.stores k)
    (hv : ∀ u, (m.view u).floor k ≤ (m'.view u).floor k)
    (hc : ∀ i, cells i → ∀ u, u ≠ turn s.value →
      (m'.cell i).written u = (m.cell i).written u ∧ (m'.cell i).read u = (m.cell i).read u) :
    m'.Passed k cells turn s where
  last := by rw [hs]; exact h.last
  waiting := by
    intro u n s' hr hn hu
    have hr' : m.Readable u k n := ⟨Nat.le_trans (hv u) hr.1, by rw [← hs]; exact hr.2⟩
    rw [hs] at hn ⊢
    exact h.waiting u n s' hr' hn hu
  known := by
    intro i hi u hu
    rw [(hc i hi u hu).1, (hc i hi u hu).2]
    exact h.known i hi u hu

theorem Passed.readCells [DecidableEq τ] (h : m.Passed k cells turn s) {p : ι → Bool}
    (hp : ∀ i, cells i → p i = true → turn s.value = t) :
    (m.readCells t p).Passed k cells turn s := by
  refine h.step rfl ?_ ?_
  · exact fun u => Nat.le_of_eq (congrFun (readCells_floor u).symm k)
  · intro i hi u hu
    refine ⟨congrFun readCells_cell_written u, ?_⟩
    by_cases hut : u = t
    · subst hut
      rw [readCells_cell_read_self, if_neg fun hpi => hu (hp i hi hpi).symm]
    · exact readCells_cell_read_of_ne hut

theorem Passed.writeCells [DecidableEq τ] (h : m.Passed k cells turn s) {f : ι → Option α}
    (hf : ∀ i, cells i → (f i).isSome = true → turn s.value = t) :
    (m.writeCells t f).Passed k cells turn s := by
  refine h.step rfl ?_ ?_
  · exact fun u => Nat.le_of_eq (congrFun (writeCells_floor u).symm k)
  · intro i hi u hu
    refine ⟨?_, congrFun writeCells_cell_read u⟩
    by_cases hut : u = t
    · subst hut
      rw [writeCells_cell_written_self, if_neg fun hfi => hu (hf i hi hfi).symm]
    · exact writeCells_cell_written_of_ne hut

theorem Holds.readCells [DecidableEq τ] {u : τ} (h : m.Holds k turn s u) {p : ι → Bool} :
    (m.readCells t p).Holds k turn s u :=
  ⟨h.1, by rw [readCells_floor]; exact h.2⟩

theorem Holds.writeCells [DecidableEq τ] {u : τ} (h : m.Holds k turn s u) {f : ι → Option α} :
    (m.writeCells t f).Holds k turn s u :=
  ⟨h.1, by rw [writeCells_floor]; exact h.2⟩

section Operations
variable [DecidableEq τ] [DecidableEq κ]

theorem loadAcquire_floor_le (hm : m.Consistent) {j : κ} {n : Nat} (hr : m.Readable t j n) (u : τ)
    (k : κ) : (m.view u).floor k ≤ ((m.loadAcquire t j n).view u).floor k := by
  obtain ⟨s, hs⟩ := hr.store
  rw [hm.loadAcquire_eq hr hs]
  dsimp only
  rw [Function.update_apply]
  split_ifs with hu
  · rw [hu]
    exact Nat.le_max_left _ _
  · exact Nat.le_refl _

theorem Passed.loadAcquire (h : m.Passed k cells turn s) (hm : m.Consistent) {j : κ} {n : Nat}
    (hr : m.Readable t j n) : (m.loadAcquire t j n).Passed k cells turn s := by
  apply h.step
  · rw [loadAcquire_stores]
  · exact fun u => loadAcquire_floor_le hm hr u k
  · rw [loadAcquire_cell]
    exact fun _ _ _ _ => ⟨rfl, rfl⟩

theorem Holds.loadAcquire {u : τ} (h : m.Holds k turn s u) (hm : m.Consistent) {j : κ} {n : Nat}
    (hr : m.Readable t j n) : (m.loadAcquire t j n).Holds k turn s u := by
  have hlt := ((hm.loadAcquire hr).views u).1 k
  have hle := loadAcquire_floor_le hm hr u k
  have hfloor := h.2
  rw [loadAcquire_stores] at hlt
  refine ⟨h.1, ?_⟩
  rw [loadAcquire_stores]
  omega

theorem Holds.storeRelease_of_ne {u : τ} (h : m.Holds k turn s u) {j : κ} (hj : k ≠ j) (w : β) :
    (m.storeRelease t j w).Holds k turn s u :=
  ⟨h.1, by rw [storeRelease_floor_of_ne hj, storeRelease_stores_of_ne hj]; exact h.2⟩

/-- The load that lets the thread in. -/
theorem Passed.acquired (h : m.Passed k cells turn s) (hm : m.Consistent) {n : Nat}
    (hr : m.Readable t k n) {s' : Store τ κ β} (hs : (m.stores k)[n]? = some s')
    (ht : turn s'.value = t) : (m.loadAcquire t k n).Holds k turn s t := by
  obtain ⟨rfl, hn⟩ := h.loaded hr hs ht
  refine ⟨ht, ?_⟩
  have hlt := ((hm.loadAcquire hr).views t).1 k
  have hle : n ≤ ((m.loadAcquire t k n).view t).floor k := by
    rw [hm.loadAcquire_eq hr hs]
    dsimp only
    rw [Function.update_self, join_floor, hm.own k n s' hs]
    exact Nat.le_max_right _ _
  rw [loadAcquire_stores] at hlt ⊢
  omega

theorem Passed.storeRelease_of_ne (h : m.Passed k cells turn s) {j : κ} (hj : k ≠ j) (w : β) :
    (m.storeRelease t j w).Passed k cells turn s := by
  apply h.step
  · exact storeRelease_stores_of_ne hj w
  · exact fun u => Nat.le_of_eq (storeRelease_floor_of_ne hj w u).symm
  · exact fun _ _ _ _ => ⟨rfl, rfl⟩

/-- The holder passes the flag on. -/
theorem Passed.storeRelease_self (h : m.Passed k cells turn s) (hm : m.Synced)
    (ht : m.Holds k turn s t) (w : β) :
    (m.storeRelease t k w).Passed k cells turn
      ⟨w, (m.view t).raise k (m.stores k).length⟩ where
  last := by
    rw [storeRelease_stores_self, List.length_append, List.length_singleton, Nat.add_sub_cancel,
      List.getElem?_concat_length]
  waiting := by
    intro u n s' hr hs hu
    obtain ⟨hfloor, hlt⟩ := hr
    rw [storeRelease_stores_self, List.length_append, List.length_singleton] at hlt ⊢
    obtain hold | hnew := Nat.lt_or_ge n (m.stores k).length
    · by_cases hut : u = t
      · rw [hut, storeRelease_view_self, raise_floor, if_pos rfl] at hfloor
        omega
      · rw [storeRelease_view_of_ne hut] at hfloor
        rw [storeRelease_getElem? k n hold] at hs
        obtain ⟨rfl, -⟩ := h.loaded ⟨hfloor, hold⟩ hs hu
        exact absurd (hu.symm.trans ht.1) hut
    · omega
  known := by
    intro i hi u _
    exact h.ordered hm ht hi u

end Operations
end Passed
end Machine
end ReleaseAcquire
