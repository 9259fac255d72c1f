import Mathlib.Logic.Function.Basic
import Mathlib.Tactic.SplitIfs

/-! Release stores and acquire loads. An atomic location keeps every store made to it; a load
returns any of them that the loading thread has not gone past. A release store carries what its
thread knows, and an acquire load of it adds that to what the loading thread knows. Plain
accesses are counted thread by thread, and a thread knows how many of each thread's accesses
happen before its next one: two accesses to one cell, one of them a write, race if the later
one is made without knowledge of the earlier one. -/
namespace ReleaseAcquire
variable {τ κ ι β α : Type*}

structure View (τ κ : Type*) where
  /-- How many plain accesses of each thread happen before. -/
  clock : τ → Nat
  /-- The oldest store to each location that may still be read. -/
  floor : κ → Nat

structure Store (τ κ β : Type*) where
  value : β
  view : View τ κ

/-- A plain location; of each thread's accesses it keeps the number of the last one. -/
structure Cell (τ α : Type*) where
  value : α
  written : τ → Nat
  read : τ → Nat

structure Machine (τ κ ι β α : Type*) where
  view : τ → View τ κ
  stores : κ → List (Store τ κ β)
  cell : ι → Cell τ α

def View.bottom : View τ κ := ⟨fun _ => 0, fun _ => 0⟩

def View.join (v w : View τ κ) : View τ κ :=
  ⟨fun t => max (v.clock t) (w.clock t), fun k => max (v.floor k) (w.floor k)⟩

def View.raise [DecidableEq κ] (v : View τ κ) (k : κ) (n : Nat) : View τ κ :=
  { v with floor := Function.update v.floor k n }

def View.tick [DecidableEq τ] (v : View τ κ) (t : τ) : View τ κ :=
  { v with clock := Function.update v.clock t (v.clock t + 1) }

namespace Machine

def start (atomics : κ → β) (cells : ι → α) : Machine τ κ ι β α where
  view := fun _ => .bottom
  stores := fun k => [⟨atomics k, .bottom⟩]
  cell := fun i => ⟨cells i, fun _ => 0, fun _ => 0⟩

/-- A load by the thread may return the store. -/
def Readable (m : Machine τ κ ι β α) (t : τ) (k : κ) (n : Nat) : Prop :=
  (m.view t).floor k ≤ n ∧ n < (m.stores k).length

instance (m : Machine τ κ ι β α) (t : τ) (k : κ) (n : Nat) : Decidable (m.Readable t k n) :=
  inferInstanceAs (Decidable (_ ∧ _))

theorem Readable.store {m : Machine τ κ ι β α} {t : τ} {k : κ} {n : Nat} (h : m.Readable t k n) :
    ∃ s, (m.stores k)[n]? = some s :=
  ⟨_, List.getElem?_eq_getElem h.2⟩

def valueAt (m : Machine τ κ ι β α) (k : κ) (n : Nat) (default : β) : β :=
  ((m.stores k)[n]?.map Store.value).getD default

def latest (m : Machine τ κ ι β α) (k : κ) (default : β) : β :=
  m.valueAt k ((m.stores k).length - 1) default

def ReadOrdered (m : Machine τ κ ι β α) (t : τ) (i : ι) : Prop :=
  ∀ u, (m.cell i).written u ≤ (m.view t).clock u

def WriteOrdered (m : Machine τ κ ι β α) (t : τ) (i : ι) : Prop :=
  ∀ u, (m.cell i).written u ≤ (m.view t).clock u ∧ (m.cell i).read u ≤ (m.view t).clock u

section Operations
variable [DecidableEq τ] [DecidableEq κ] [DecidableEq ι]

def loadRelaxed (m : Machine τ κ ι β α) (t : τ) (k : κ) (n : Nat) : Machine τ κ ι β α :=
  { m with view := Function.update m.view t ((m.view t).raise k n) }

def loadAcquire (m : Machine τ κ ι β α) (t : τ) (k : κ) (n : Nat) : Machine τ κ ι β α :=
  match (m.stores k)[n]? with
  | none => m
  | some s =>
    { m with view := Function.update m.view t (((m.view t).raise k n).join s.view) }

def storeRelease (m : Machine τ κ ι β α) (t : τ) (k : κ) (v : β) : Machine τ κ ι β α :=
  let view := (m.view t).raise k (m.stores k).length
  { m with view := Function.update m.view t view
           stores := Function.update m.stores k (m.stores k ++ [⟨v, view⟩]) }

def readCells (m : Machine τ κ ι β α) (t : τ) (p : ι → Bool) : Machine τ κ ι β α :=
  let view := (m.view t).tick t
  { m with view := Function.update m.view t view
           cell := fun i => bif p i then
             { m.cell i with read := Function.update (m.cell i).read t (view.clock t) }
           else m.cell i }

def writeCells (m : Machine τ κ ι β α) (t : τ) (f : ι → Option α) : Machine τ κ ι β α :=
  let view := (m.view t).tick t
  { m with view := Function.update m.view t view
           cell := fun i => match f i with
             | none => m.cell i
             | some v => { m.cell i with
                 value := v
                 written := Function.update (m.cell i).written t (view.clock t) } }

def readCell (m : Machine τ κ ι β α) (t : τ) (i : ι) : Machine τ κ ι β α :=
  m.readCells t fun j => decide (j = i)

def writeCell (m : Machine τ κ ι β α) (t : τ) (i : ι) (v : α) : Machine τ κ ι β α :=
  m.writeCells t fun j => if j = i then some v else none

end Operations

def Covers (m : Machine τ κ ι β α) (v : View τ κ) : Prop :=
  (∀ k, v.floor k < (m.stores k).length) ∧ ∀ u, v.clock u ≤ (m.view u).clock u

structure Consistent (m : Machine τ κ ι β α) : Prop where
  views : ∀ t, m.Covers (m.view t)
  stores : ∀ k, ∀ s ∈ m.stores k, m.Covers s.view
  /-- A store is known by the thread that makes it. -/
  own : ∀ k n (s : Store τ κ β), (m.stores k)[n]? = some s → s.view.floor k = n
  cells : ∀ i u, (m.cell i).written u ≤ (m.view u).clock u ∧
    (m.cell i).read u ≤ (m.view u).clock u

theorem consistent_start (atomics : κ → β) (cells : ι → α) :
    (start atomics cells : Machine τ κ ι β α).Consistent where
  views := fun _ => ⟨fun _ => Nat.one_pos, fun _ => Nat.le_refl 0⟩
  stores := by
    intro k s hs
    rw [List.mem_singleton.mp hs]
    exact ⟨fun _ => Nat.one_pos, fun _ => Nat.le_refl 0⟩
  own := by
    intro k n s hs
    obtain ⟨hn, rfl⟩ := List.getElem?_eq_some_iff.mp hs
    obtain rfl : n = 0 := Nat.lt_one_iff.mp hn
    rfl
  cells := fun _ _ => ⟨Nat.le_refl 0, Nat.le_refl 0⟩

structure Grows (m m' : Machine τ κ ι β α) : Prop where
  stores : ∀ k, (m.stores k).length ≤ (m'.stores k).length
  clocks : ∀ u, (m.view u).clock u ≤ (m'.view u).clock u

@[simp] theorem raise_floor [DecidableEq κ] (v : View τ κ) (k : κ) (n : Nat) (j : κ) :
    (v.raise k n).floor j = if j = k then n else v.floor j :=
  Function.update_apply _ _ _ _

@[simp] theorem raise_clock [DecidableEq κ] (v : View τ κ) (k : κ) (n : Nat) :
    (v.raise k n).clock = v.clock := rfl

@[simp] theorem join_floor (v w : View τ κ) (k : κ) :
    (v.join w).floor k = max (v.floor k) (w.floor k) := rfl

@[simp] theorem join_clock (v w : View τ κ) (t : τ) :
    (v.join w).clock t = max (v.clock t) (w.clock t) := rfl

@[simp] theorem tick_clock [DecidableEq τ] (v : View τ κ) (t u : τ) :
    (v.tick t).clock u = if u = t then v.clock t + 1 else v.clock u :=
  Function.update_apply _ _ _ _

@[simp] theorem tick_floor [DecidableEq τ] (v : View τ κ) (t : τ) :
    (v.tick t).floor = v.floor := rfl

theorem raise_join [DecidableEq κ] {v w : View τ κ} {k : κ} (hle : v.floor k ≤ w.floor k) :
    (v.raise k (w.floor k)).join w = v.join w := by
  have hfloor : (fun j => max ((v.raise k (w.floor k)).floor j) (w.floor j)) =
      fun j => max (v.floor j) (w.floor j) := by
    funext j
    rw [raise_floor]
    split_ifs with hj
    · rw [hj, Nat.max_self, Nat.max_eq_right hle]
    · rfl
  rw [View.join, hfloor]
  rfl

section Steps
variable {m m' : Machine τ κ ι β α} {t : τ} {k : κ} {i : ι} {n : Nat} {v : View τ κ}

theorem Covers.grows (h : m.Covers v) (hg : m.Grows m') : m'.Covers v :=
  ⟨fun k => Nat.lt_of_lt_of_le (h.1 k) (hg.stores k), fun u => Nat.le_trans (h.2 u) (hg.clocks u)⟩

theorem Covers.join {w : View τ κ} (h : m.Covers v) (h' : m.Covers w) : m.Covers (v.join w) :=
  ⟨fun k => Nat.max_lt.mpr ⟨h.1 k, h'.1 k⟩, fun u => Nat.max_le.mpr ⟨h.2 u, h'.2 u⟩⟩

theorem Covers.raise [DecidableEq κ] (h : m.Covers v) (hn : n < (m.stores k).length) :
    m.Covers (v.raise k n) := by
  refine ⟨?_, h.2⟩
  intro j
  rw [raise_floor]
  split_ifs with hj
  · rw [hj]
    exact hn
  · exact h.1 j

/-- A step of one thread: no other thread's view changes. -/
theorem Consistent.step (h : m.Consistent) (hg : m.Grows m')
    (hview : ∀ u, u ≠ t → m'.view u = m.view u) (hown : m'.Covers (m'.view t))
    (hstores : ∀ k n (s : Store τ κ β), (m'.stores k)[n]? = some s →
      (m.stores k)[n]? = some s ∨ m'.Covers s.view ∧ s.view.floor k = n)
    (hcells : ∀ i u, (m'.cell i).written u ≤ (m'.view u).clock u ∧
      (m'.cell i).read u ≤ (m'.view u).clock u) : m'.Consistent where
  views := by
    intro u
    by_cases hu : u = t
    · rw [hu]
      exact hown
    · rw [hview u hu]
      exact (h.views u).grows hg
  stores := by
    intro k s hs
    obtain ⟨n, hn⟩ := List.mem_iff_getElem?.mp hs
    obtain hold | hnew := hstores k n s hn
    · exact (h.stores k s (List.mem_of_getElem? hold)).grows hg
    · exact hnew.1
  own := by
    intro k n s hs
    obtain hold | hnew := hstores k n s hs
    · exact h.own k n s hold
    · exact hnew.2
  cells := hcells

/-- A load: the thread comes to know more of what there is. -/
theorem Consistent.learn [DecidableEq τ] (h : m.Consistent) (hv : m.Covers v)
    (hclock : v.clock t = (m.view t).clock t) :
    Consistent { m with view := Function.update m.view t v } := by
  have hclocks : ∀ u, (Function.update m.view t v u).clock u = (m.view u).clock u := by
    intro u
    rw [Function.update_apply]
    split_ifs with hu
    · rw [hu, hclock]
    · rfl
  have hg : m.Grows { m with view := Function.update m.view t v } :=
    ⟨fun _ => Nat.le_refl _, fun u => Nat.le_of_eq (hclocks u).symm⟩
  apply h.step (t := t) hg
  · exact fun u hu => Function.update_of_ne hu v m.view
  · dsimp only
    rw [Function.update_self]
    exact hv.grows hg
  · exact fun _ _ _ hs => Or.inl hs
  · intro i u
    dsimp only
    rw [hclocks u]
    exact h.cells i u

theorem Consistent.max_clock (h : m.Consistent) {s : Store τ κ β} (hs : s ∈ m.stores k) :
    max ((m.view t).clock t) (s.view.clock t) = (m.view t).clock t :=
  Nat.max_eq_left ((h.stores k s hs).2 t)

/-- A plain access: the thread counts it, and the cells note it or stay as they are. -/
theorem Consistent.access [DecidableEq τ] {cell : ι → Cell τ α} (h : m.Consistent)
    (hw : ∀ i u, (cell i).written u ≤ (m.cell i).written u ∨
      u = t ∧ (cell i).written u ≤ (m.view t).clock t + 1)
    (hr : ∀ i u, (cell i).read u ≤ (m.cell i).read u ∨
      u = t ∧ (cell i).read u ≤ (m.view t).clock t + 1) :
    Consistent { m with view := Function.update m.view t ((m.view t).tick t), cell := cell } := by
  have hclocks : ∀ u, (Function.update m.view t ((m.view t).tick t) u).clock u =
      if u = t then (m.view t).clock t + 1 else (m.view u).clock u := by
    intro u
    rw [Function.update_apply]
    split_ifs with hu
    · rw [hu, tick_clock, if_pos rfl]
    · rfl
  have hle : ∀ u, (m.view u).clock u ≤
      (Function.update m.view t ((m.view t).tick t) u).clock u := by
    intro u
    rw [hclocks u]
    split_ifs with hu
    · rw [hu]
      exact Nat.le_succ _
    · exact Nat.le_refl _
  have hg : m.Grows { m with view := Function.update m.view t ((m.view t).tick t), cell := cell } :=
    ⟨fun _ => Nat.le_refl _, hle⟩
  have hnote : ∀ {e e' u}, e ≤ e' ∨ u = t ∧ e ≤ (m.view t).clock t + 1 →
      e' ≤ (m.view u).clock u →
      e ≤ (Function.update m.view t ((m.view t).tick t) u).clock u := by
    rintro e e' u (he | ⟨rfl, he⟩) hold
    · exact Nat.le_trans he (Nat.le_trans hold (hle u))
    · rw [hclocks u, if_pos rfl]
      exact he
  apply h.step (t := t) hg
  · exact fun u hu => Function.update_of_ne hu _ m.view
  · refine ⟨?_, ?_⟩
    · intro j
      dsimp only
      rw [Function.update_self]
      exact (h.views t).1 j
    · intro u
      dsimp only
      rw [Function.update_self, hclocks u, tick_clock]
      split_ifs with hu
      · exact Nat.le_refl _
      · exact (h.views t).2 u
  · exact fun _ _ _ hs => Or.inl hs
  · exact fun i u => ⟨hnote (hw i u) (h.cells i u).1, hnote (hr i u) (h.cells i u).2⟩

section Accesses
variable [DecidableEq τ] {p : ι → Bool} {f : ι → Option α}

theorem readCells_cell_value : ((m.readCells t p).cell i).value = (m.cell i).value := by
  simp only [readCells]
  cases p i <;> rfl

theorem readCells_cell_written : ((m.readCells t p).cell i).written = (m.cell i).written := by
  simp only [readCells]
  cases p i <;> rfl

theorem readCells_cell_read_self : ((m.readCells t p).cell i).read t =
    if p i then (m.view t).clock t + 1 else (m.cell i).read t := by
  simp only [readCells]
  cases p i with
  | false => rfl
  | true => exact (Function.update_self _ _ _).trans (by rw [tick_clock, if_pos rfl, if_pos rfl])

theorem readCells_cell_read_of_ne {u : τ} (hu : u ≠ t) :
    ((m.readCells t p).cell i).read u = (m.cell i).read u := by
  simp only [readCells]
  cases p i with
  | false => rfl
  | true => exact Function.update_of_ne hu _ _

theorem writeCells_cell_value :
    ((m.writeCells t f).cell i).value = (f i).getD (m.cell i).value := by
  simp only [writeCells]
  cases f i <;> rfl

theorem writeCells_cell_read : ((m.writeCells t f).cell i).read = (m.cell i).read := by
  simp only [writeCells]
  cases f i <;> rfl

theorem writeCells_cell_written_self : ((m.writeCells t f).cell i).written t =
    if (f i).isSome then (m.view t).clock t + 1 else (m.cell i).written t := by
  simp only [writeCells]
  cases f i with
  | none => rfl
  | some v => exact (Function.update_self _ _ _).trans (by rw [tick_clock, if_pos rfl]; rfl)

theorem writeCells_cell_written_of_ne {u : τ} (hu : u ≠ t) :
    ((m.writeCells t f).cell i).written u = (m.cell i).written u := by
  simp only [writeCells]
  cases f i with
  | none => rfl
  | some v => exact Function.update_of_ne hu _ _

theorem Consistent.readCells (h : m.Consistent) : (m.readCells t p).Consistent := by
  apply h.access
  · intro i u
    exact Or.inl (Nat.le_of_eq (congrFun readCells_cell_written u))
  · intro i u
    by_cases hu : u = t
    · subst hu
      have hr := readCells_cell_read_self (m := m) (t := u) (p := p) (i := i)
      split_ifs at hr
      · exact Or.inr ⟨rfl, Nat.le_of_eq hr⟩
      · exact Or.inl (Nat.le_of_eq hr)
    · exact Or.inl (Nat.le_of_eq (readCells_cell_read_of_ne hu))

theorem Consistent.writeCells (h : m.Consistent) : (m.writeCells t f).Consistent := by
  apply h.access
  · intro i u
    by_cases hu : u = t
    · subst hu
      have hw := writeCells_cell_written_self (m := m) (t := u) (f := f) (i := i)
      split_ifs at hw
      · exact Or.inr ⟨rfl, Nat.le_of_eq hw⟩
      · exact Or.inl (Nat.le_of_eq hw)
    · exact Or.inl (Nat.le_of_eq (writeCells_cell_written_of_ne hu))
  · intro i u
    exact Or.inl (Nat.le_of_eq (congrFun writeCells_cell_read u))

theorem readCells_view_self : (m.readCells t p).view t = (m.view t).tick t :=
  Function.update_self _ _ _

theorem readCells_view_of_ne {u : τ} (hu : u ≠ t) : (m.readCells t p).view u = m.view u :=
  Function.update_of_ne hu _ _

theorem writeCells_view_self : (m.writeCells t f).view t = (m.view t).tick t :=
  Function.update_self _ _ _

theorem writeCells_view_of_ne {u : τ} (hu : u ≠ t) : (m.writeCells t f).view u = m.view u :=
  Function.update_of_ne hu _ _

theorem readCells_floor (u : τ) : ((m.readCells t p).view u).floor = (m.view u).floor := by
  by_cases hu : u = t
  · rw [hu, readCells_view_self, tick_floor]
  · rw [readCells_view_of_ne hu]

theorem writeCells_floor (u : τ) : ((m.writeCells t f).view u).floor = (m.view u).floor := by
  by_cases hu : u = t
  · rw [hu, writeCells_view_self, tick_floor]
  · rw [writeCells_view_of_ne hu]

end Accesses

section Atomics
variable [DecidableEq τ] [DecidableEq κ]

/-- An acquire load takes over what the store carries. -/
theorem Consistent.loadAcquire_eq (h : m.Consistent) (hr : m.Readable t k n) {s : Store τ κ β}
    (hs : (m.stores k)[n]? = some s) :
    m.loadAcquire t k n =
      { m with view := Function.update m.view t ((m.view t).join s.view) } := by
  have hown := h.own k n s hs
  rw [Machine.loadAcquire, hs, ← hown]
  dsimp only
  rw [raise_join (by rw [hown]; exact hr.1)]

theorem loadAcquire_stores : (m.loadAcquire t k n).stores = m.stores := by
  rw [Machine.loadAcquire]
  split <;> rfl

theorem loadAcquire_cell : (m.loadAcquire t k n).cell = m.cell := by
  rw [Machine.loadAcquire]
  split <;> rfl

theorem storeRelease_view_self (w : β) :
    (m.storeRelease t k w).view t = (m.view t).raise k (m.stores k).length :=
  Function.update_self _ _ _

theorem storeRelease_view_of_ne {u : τ} (hu : u ≠ t) (w : β) :
    (m.storeRelease t k w).view u = m.view u := Function.update_of_ne hu _ _

theorem storeRelease_stores_self (w : β) : (m.storeRelease t k w).stores k =
    m.stores k ++ [⟨w, (m.view t).raise k (m.stores k).length⟩] := Function.update_self _ _ _

theorem storeRelease_stores_of_ne {j : κ} (hj : j ≠ k) (w : β) :
    (m.storeRelease t k w).stores j = m.stores j := Function.update_of_ne hj _ _

theorem storeRelease_floor_of_ne {j : κ} (hj : j ≠ k) (w : β) (u : τ) :
    ((m.storeRelease t k w).view u).floor j = (m.view u).floor j := by
  by_cases hu : u = t
  · rw [hu, storeRelease_view_self, raise_floor, if_neg hj]
  · rw [storeRelease_view_of_ne hu]

theorem storeRelease_latest (w default : β) (j : κ) :
    (m.storeRelease t k w).latest j default = if j = k then w else m.latest j default := by
  split_ifs with hj
  · rw [hj, latest, valueAt, storeRelease_stores_self, List.length_append, List.length_singleton,
      Nat.add_sub_cancel, List.getElem?_concat_length]
    rfl
  · rw [latest, valueAt, storeRelease_stores_of_ne hj]
    rfl

theorem Consistent.loadAcquire (h : m.Consistent) (hr : m.Readable t k n) :
    (m.loadAcquire t k n).Consistent := by
  obtain ⟨s, hs⟩ := hr.store
  have hmem := List.mem_of_getElem? hs
  rw [h.loadAcquire_eq hr hs]
  exact h.learn ((h.views t).join (h.stores k s hmem)) (h.max_clock hmem)

theorem Consistent.storeRelease (h : m.Consistent) (w : β) : (m.storeRelease t k w).Consistent := by
  have hlen : ∀ j, (m.stores j).length ≤ ((m.storeRelease t k w).stores j).length := by
    intro j
    simp only [Machine.storeRelease, Function.update_apply]
    split_ifs with hj
    · rw [hj, List.length_append]
      exact Nat.le_add_right _ _
    · exact Nat.le_refl _
  have hclocks : ∀ u, ((m.storeRelease t k w).view u).clock u = (m.view u).clock u := by
    intro u
    simp only [Machine.storeRelease, Function.update_apply]
    split_ifs with hu
    · rw [hu, raise_clock]
    · rfl
  have hg : m.Grows (m.storeRelease t k w) := ⟨hlen, fun u => Nat.le_of_eq (hclocks u).symm⟩
  have hnew : (m.storeRelease t k w).Covers ((m.view t).raise k (m.stores k).length) := by
    apply ((h.views t).grows hg).raise
    simp only [Machine.storeRelease, Function.update_self, List.length_append, List.length_singleton]
    exact Nat.lt_succ_self _
  apply h.step (t := t) hg
  · exact fun u hu => Function.update_of_ne hu _ m.view
  · rw [Machine.storeRelease]
    dsimp only
    rw [Function.update_self]
    exact hnew
  · intro j n s hs
    by_cases hj : j = k
    · subst hj
      rw [storeRelease_stores_self] at hs
      obtain hlt | hge := Nat.lt_or_ge n (m.stores j).length
      · rw [List.getElem?_append_left hlt] at hs
        exact Or.inl hs
      · have hn := (List.getElem?_eq_some_iff.mp hs).1
        rw [List.length_append, List.length_singleton] at hn
        obtain rfl : n = (m.stores j).length := by omega
        rw [List.getElem?_concat_length, Option.some.injEq] at hs
        subst hs
        exact Or.inr ⟨hnew, by rw [raise_floor, if_pos rfl]⟩
    · rw [storeRelease_stores_of_ne hj] at hs
      exact Or.inl hs
  · intro i u
    rw [hclocks u]
    exact h.cells i u

end Atomics
end Steps
end Machine
end ReleaseAcquire
