import MarketDataBook.Library.LinearProbe
import Mathlib.Logic.Function.Basic

/-! `utils/StaticOrderMap.h`: the open-addressed table from order ids to pool indices.
A bucket pointer is its distance from `map_`, so `end_` is `capacity`; a failed search
is `none`. -/
namespace MarketDataBook
open LinearProbe

inductive BucketState where
  | empty | occupied | tombstone
  deriving DecidableEq

structure Bucket where
  orderId : BitVec 64
  poolIdx : BitVec 32
  state : BucketState
  deriving DecidableEq

structure StaticOrderMap (capacity : Nat) where
  map : Nat → Bucket

namespace StaticOrderMap
variable {capacity : Nat}

/-- Anonymous mapped memory is zero, and `Empty` is 0. -/
def new : StaticOrderMap capacity := ⟨fun _ => ⟨0, 0, .empty⟩⟩

def home (capacity : Nat) (orderId : BitVec 64) : Nat := orderId.toNat &&& (capacity - 1)

def find (m : StaticOrderMap capacity) (orderId : BitVec 64) : Option Nat :=
  probe (fun p => (m.map p).state = .empty)
    (fun p => (m.map p).orderId = orderId ∧ (m.map p).state = .occupied)
    capacity capacity (home capacity orderId)

def insert (m : StaticOrderMap capacity) (orderId : BitVec 64) (poolIdx : BitVec 32) :
    StaticOrderMap capacity × Option Nat :=
  match probe (fun _ => false)
      (fun p => ¬ ((m.map p).state = .occupied ∧ (m.map p).orderId ≠ orderId))
      capacity capacity (home capacity orderId) with
  | some p => (⟨Function.update m.map p ⟨orderId, poolIdx, .occupied⟩⟩, some p)
  | none => (m, none)

/-- `operator[]`: the bucket whose `pool_idx` the returned reference designates. -/
def operatorIndex (m : StaticOrderMap capacity) (orderId : BitVec 64) :
    StaticOrderMap capacity × Except String Nat :=
  match m.find orderId with
  | some p => (m, .ok p)
  | none =>
    match m.insert orderId 0 with
    | (m', some p) => (m', .ok p)
    | (m', none) => (m', .error
        "StaticOrderMap::operator[]: Map is full, unable to allocate any more elements.")

def setPoolIdx (m : StaticOrderMap capacity) (p : Nat) (poolIdx : BitVec 32) :
    StaticOrderMap capacity :=
  ⟨Function.update m.map p { m.map p with poolIdx := poolIdx }⟩

def assign (m : StaticOrderMap capacity) (orderId : BitVec 64) (poolIdx : BitVec 32) :
    StaticOrderMap capacity × Except String Unit :=
  match m.operatorIndex orderId with
  | (m', .ok p) => (m'.setPoolIdx p poolIdx, .ok ())
  | (m', .error what) => (m', .error what)

def erase (m : StaticOrderMap capacity) (orderId : BitVec 64) : StaticOrderMap capacity :=
  match m.find orderId with
  | some p => ⟨Function.update m.map p { m.map p with state := .tombstone }⟩
  | none => m

/-- `erase(Bucket*)`; a pointer that is no bucket of the table is none or too large. -/
def eraseBucket (m : StaticOrderMap capacity) (entryPtr : Option Nat) :
    StaticOrderMap capacity × Except String Unit :=
  match entryPtr with
  | some p =>
    if p < capacity then
      (⟨Function.update m.map p { m.map p with state := .tombstone }⟩, .ok ())
    else (m, .error
      "StaticOrderMap::erase(): Unable to erase an element that is not from the map.")
  | none => (m, .error
      "StaticOrderMap::erase(): Unable to erase an element that is not from the map.")

def get (m : StaticOrderMap capacity) (orderId : BitVec 64) : Option (BitVec 32) :=
  (m.find orderId).map fun p => (m.map p).poolIdx

def Occupied (m : StaticOrderMap capacity) (p : Nat) : Prop :=
  p < capacity ∧ (m.map p).state = .occupied

/-- No `Empty` bucket separates an entry from its home, and no id is stored twice. -/
structure WellFormed (m : StaticOrderMap capacity) : Prop where
  reach : ∀ p, m.Occupied p → ∃ j < capacity,
    p = cell capacity (home capacity (m.map p).orderId) j ∧
    ∀ i < j, (m.map (cell capacity (home capacity (m.map p).orderId) i)).state ≠ .empty
  unique : ∀ p q, m.Occupied p → m.Occupied q → (m.map p).orderId = (m.map q).orderId → p = q

theorem home_lt (hc : 0 < capacity) (orderId : BitVec 64) : home capacity orderId < capacity := by
  have h : orderId.toNat &&& (capacity - 1) ≤ capacity - 1 := Nat.and_le_right
  unfold home
  omega

theorem new_wellFormed : (new : StaticOrderMap capacity).WellFormed where
  reach := by
    intro p hp
    cases hp.2
  unique := by
    intro p q hp
    cases hp.2

theorem occupied_of_find {m : StaticOrderMap capacity} {orderId : BitVec 64} {p : Nat}
    (hc : 0 < capacity) (h : m.find orderId = some p) :
    m.Occupied p ∧ (m.map p).orderId = orderId := by
  obtain ⟨j, _, hp, hf⟩ := (probe_eq_some_iff (home_lt hc orderId)).mp h
  have hhit := hf.here
  rw [← hp] at hhit
  have hh : (m.map p).orderId = orderId ∧ (m.map p).state = .occupied := by simpa using hhit
  exact ⟨⟨hp ▸ cell_lt (home_lt hc orderId) j, hh.2⟩, hh.1⟩

theorem WellFormed.find_occupied {m : StaticOrderMap capacity} (w : m.WellFormed)
    (hc : 0 < capacity) {p : Nat} (hp : m.Occupied p) : m.find (m.map p).orderId = some p := by
  cases hf : m.find (m.map p).orderId with
  | some q =>
    obtain ⟨hq, hid⟩ := occupied_of_find hc hf
    rw [w.unique q p hq hp hid]
  | none =>
    obtain ⟨j, hj, hcell, hne⟩ := w.reach p hp
    have hnone := (probe_eq_none_iff (home_lt hc (m.map p).orderId)).mp hf j hj
    rw [← hcell] at hnone
    obtain ⟨i, hi, hst⟩ := hnone (by simp [hp.2])
    simp only [decide_eq_true_eq] at hst
    by_cases hij : i = j
    · rw [hij, ← hcell, hp.2] at hst
      cases hst
    · exact absurd hst (hne i (by omega))

theorem WellFormed.find_eq_some_iff {m : StaticOrderMap capacity} (w : m.WellFormed)
    (hc : 0 < capacity) {orderId : BitVec 64} {p : Nat} :
    m.find orderId = some p ↔ m.Occupied p ∧ (m.map p).orderId = orderId := by
  constructor
  · exact occupied_of_find hc
  · rintro ⟨hp, rfl⟩
    exact w.find_occupied hc hp

theorem WellFormed.get_eq_some_iff {m : StaticOrderMap capacity} (w : m.WellFormed)
    (hc : 0 < capacity) {orderId : BitVec 64} {v : BitVec 32} :
    m.get orderId = some v ↔
      ∃ p, m.Occupied p ∧ (m.map p).orderId = orderId ∧ (m.map p).poolIdx = v := by
  simp only [get, Option.map_eq_some_iff, w.find_eq_some_iff hc, and_assoc]

theorem WellFormed.get_eq_none_iff {m : StaticOrderMap capacity} (w : m.WellFormed)
    (hc : 0 < capacity) {orderId : BitVec 64} :
    m.get orderId = none ↔ ∀ p, m.Occupied p → (m.map p).orderId ≠ orderId := by
  rw [get, Option.map_eq_none_iff, Option.eq_none_iff_forall_ne_some]
  simp only [ne_eq, w.find_eq_some_iff hc, not_and]

/-- Buckets that keep their id and state keep the table well formed. -/
theorem WellFormed.congr {m m' : StaticOrderMap capacity} (w : m.WellFormed)
    (h : ∀ p, (m'.map p).orderId = (m.map p).orderId ∧ (m'.map p).state = (m.map p).state) :
    m'.WellFormed where
  reach := by
    intro p hp
    obtain ⟨j, hj, hcell, hne⟩ := w.reach p ⟨hp.1, (h p).2 ▸ hp.2⟩
    rw [(h p).1]
    exact ⟨j, hj, hcell, fun i hi => (h _).2 ▸ hne i hi⟩
  unique := by
    intro p q hp hq hid
    rw [(h p).1, (h q).1] at hid
    exact w.unique p q ⟨hp.1, (h p).2 ▸ hp.2⟩ ⟨hq.1, (h q).2 ▸ hq.2⟩ hid

section Place
variable {m : StaticOrderMap capacity} {p : Nat} {orderId : BitVec 64}

theorem occupied_place {b : Bucket} {q : Nat} (hb : b.state = .occupied) (hp : p < capacity) :
    (⟨Function.update m.map p b⟩ : StaticOrderMap capacity).Occupied q ↔
      q = p ∨ m.Occupied q := by
  by_cases hqp : q = p
  · subst hqp
    simp [Occupied, hb, hp]
  · simp [Occupied, hqp]

/-- A new entry in a cell that is not occupied, behind cells none of which is empty. -/
theorem WellFormed.place (w : m.WellFormed) {j : Nat} (hp : p < capacity)
    (hj : j < capacity) (hcell : p = cell capacity (home capacity orderId) j)
    (hbefore : ∀ i < j, (m.map (cell capacity (home capacity orderId) i)).state ≠ .empty)
    (habsent : ∀ q, m.Occupied q → (m.map q).orderId ≠ orderId) (v : BitVec 32) :
    (⟨Function.update m.map p ⟨orderId, v, .occupied⟩⟩ : StaticOrderMap capacity).WellFormed := by
  have hstay : ∀ q, (m.map q).state ≠ .empty →
      (Function.update m.map p ⟨orderId, v, .occupied⟩ q).state ≠ .empty := by
    intro q hq
    by_cases hqp : q = p
    · simp [hqp]
    · simpa [hqp] using hq
  constructor
  · intro q hq
    rcases (occupied_place rfl hp).mp hq with rfl | hold
    · simp only [Function.update_self]
      exact ⟨j, hj, hcell, fun i hi => hstay _ (hbefore i hi)⟩
    · by_cases hqp : q = p
      · subst hqp
        simp only [Function.update_self]
        exact ⟨j, hj, hcell, fun i hi => hstay _ (hbefore i hi)⟩
      · obtain ⟨i, hi, hic, hne⟩ := w.reach q hold
        simp only [Function.update_of_ne hqp]
        exact ⟨i, hi, hic, fun n hn => hstay _ (hne n hn)⟩
  · intro q r hq hr hid
    by_cases hqp : q = p <;> by_cases hrp : r = p
    · rw [hqp, hrp]
    · have hold : m.Occupied r := by simpa [Occupied, hrp] using hr
      simp only [hqp, Function.update_self, Function.update_of_ne hrp] at hid
      exact absurd hid.symm (habsent r hold)
    · have hold : m.Occupied q := by simpa [Occupied, hqp] using hq
      simp only [hrp, Function.update_self, Function.update_of_ne hqp] at hid
      exact absurd hid (habsent q hold)
    · have hq' : m.Occupied q := by simpa [Occupied, hqp] using hq
      have hr' : m.Occupied r := by simpa [Occupied, hrp] using hr
      simp only [Function.update_of_ne hqp, Function.update_of_ne hrp] at hid
      exact w.unique q r hq' hr' hid

theorem WellFormed.bury (w : m.WellFormed) :
    (⟨Function.update m.map p { m.map p with state := .tombstone }⟩ :
      StaticOrderMap capacity).WellFormed := by
  have hold : ∀ q, (⟨Function.update m.map p { m.map p with state := .tombstone }⟩ :
      StaticOrderMap capacity).Occupied q → q ≠ p ∧ m.Occupied q := by
    intro q hq
    by_cases hqp : q = p
    · subst hqp
      simp [Occupied] at hq
    · exact ⟨hqp, by simpa [Occupied, hqp] using hq⟩
  constructor
  · intro q hq
    obtain ⟨hqp, hq'⟩ := hold q hq
    obtain ⟨j, hj, hcell, hne⟩ := w.reach q hq'
    simp only [Function.update_of_ne hqp]
    refine ⟨j, hj, hcell, ?_⟩
    intro i hi
    by_cases hip : cell capacity (home capacity (m.map q).orderId) i = p
    · simp [hip]
    · simpa [hip] using hne i hi
  · intro q r hq hr hid
    obtain ⟨hqp, hq'⟩ := hold q hq
    obtain ⟨hrp, hr'⟩ := hold r hr
    simp only [Function.update_of_ne hqp, Function.update_of_ne hrp] at hid
    exact w.unique q r hq' hr' hid

end Place

/-- Two well-formed tables with the same entries other than those of `orderId` agree on
every other id. -/
theorem get_eq_of_occupied {m m' : StaticOrderMap capacity} (w : m.WellFormed)
    (w' : m'.WellFormed) (hc : 0 < capacity) {orderId : BitVec 64}
    (h : ∀ p, (m'.Occupied p ∧ (m'.map p).orderId = orderId) ↔
      (m.Occupied p ∧ (m.map p).orderId = orderId))
    (hv : ∀ p, m.Occupied p → (m.map p).orderId = orderId →
      (m'.map p).poolIdx = (m.map p).poolIdx) : m'.get orderId = m.get orderId := by
  cases hg : m.get orderId with
  | none =>
    rw [w'.get_eq_none_iff hc]
    intro p hp hid
    have hold := (h p).mp ⟨hp, hid⟩
    exact (w.get_eq_none_iff hc).mp hg p hold.1 hold.2
  | some v =>
    obtain ⟨p, hp, hid, hval⟩ := (w.get_eq_some_iff hc).mp hg
    obtain ⟨hp', hid'⟩ := (h p).mpr ⟨hp, hid⟩
    exact (w'.get_eq_some_iff hc).mpr ⟨p, hp', hid', (hv p hp hid).trans hval⟩

theorem erase_wellFormed {m : StaticOrderMap capacity} (w : m.WellFormed) (orderId : BitVec 64) :
    (m.erase orderId).WellFormed := by
  unfold erase
  cases m.find orderId with
  | none => exact w
  | some p => exact w.bury

theorem get_erase {m : StaticOrderMap capacity} (w : m.WellFormed) (hc : 0 < capacity)
    (orderId id : BitVec 64) :
    (m.erase orderId).get id = if id = orderId then none else m.get id := by
  have w' := erase_wellFormed w orderId
  cases hf : m.find orderId with
  | none =>
    have he : m.erase orderId = m := by simp [erase, hf]
    rw [he]
    split_ifs with hid
    · simp [get, hid, hf]
    · rfl
  | some p =>
    have he : m.erase orderId =
        ⟨Function.update m.map p { m.map p with state := .tombstone }⟩ := by simp [erase, hf]
    obtain ⟨hp, hpid⟩ := occupied_of_find hc hf
    rw [he] at w' ⊢
    split_ifs with hid
    · rw [w'.get_eq_none_iff hc]
      intro q hq hqid
      by_cases hqp : q = p
      · subst hqp
        simp [Occupied] at hq
      · have hold : m.Occupied q := by simpa [Occupied, hqp] using hq
        simp only [Function.update_of_ne hqp] at hqid
        exact hqp (w.unique q p hold hp (by rw [hqid, hpid, hid]))
    · apply get_eq_of_occupied w w' hc
      · intro q
        by_cases hqp : q = p
        · subst hqp
          have hne : ¬ (m.map q).orderId = id := fun h => hid (h.symm.trans hpid)
          simp [hne]
        · simp [Occupied, hqp]
      · intro q _ hqid
        have hqp : q ≠ p := fun h => hid (by rw [← hqid, h, hpid])
        simp [hqp]

/-- Where `insert` puts an absent id: the first cell that is not occupied, if any. -/
theorem insert_absent {m : StaticOrderMap capacity} (hc : 0 < capacity) {orderId : BitVec 64}
    (habsent : ∀ q, m.Occupied q → (m.map q).orderId ≠ orderId)
    (hroom : ∃ q < capacity, (m.map q).state ≠ .occupied) (v : BitVec 32) :
    ∃ p j, p < capacity ∧ j < capacity ∧ p = cell capacity (home capacity orderId) j ∧
      (∀ i < j, (m.map (cell capacity (home capacity orderId) i)).state ≠ .empty) ∧
      (m.map p).state ≠ .occupied ∧
      m.insert orderId v = (⟨Function.update m.map p ⟨orderId, v, .occupied⟩⟩, some p) := by
  have hh := home_lt hc orderId
  cases hp : probe (fun _ => false)
      (fun p => ¬ ((m.map p).state = .occupied ∧ (m.map p).orderId ≠ orderId))
      capacity capacity (home capacity orderId) with
  | none =>
    obtain ⟨q, hq, hst⟩ := hroom
    obtain ⟨j, hj, hcell⟩ := exists_cell hh hq
    obtain ⟨i, _, hi⟩ := (probe_eq_none_iff hh).mp hp j hj (by simp [hcell, hst])
    cases hi
  | some p =>
    obtain ⟨j, hj, hcell, hf⟩ := (probe_eq_some_iff hh).mp hp
    have hhit := hf.here
    rw [← hcell] at hhit
    have hplt : p < capacity := hcell ▸ cell_lt hh j
    refine ⟨p, j, hplt, hj, hcell, ?_, ?_, by simp only [insert, hp]⟩
    · intro i hi he
      have hm := hf.missed i hi
      simp [he] at hm
    · intro hocc
      have hid : (m.map p).orderId = orderId := by simpa [hocc] using hhit
      exact habsent p ⟨hplt, hocc⟩ hid

/-- `insert` fails exactly when the id is absent and every bucket is taken. -/
theorem insert_fails_iff {m : StaticOrderMap capacity} (hc : 0 < capacity) (orderId : BitVec 64)
    (v : BitVec 32) : (m.insert orderId v).2 = none ↔
      ∀ q < capacity, (m.map q).state = .occupied ∧ (m.map q).orderId ≠ orderId := by
  have hh := home_lt hc orderId
  have hprobe : (m.insert orderId v).2 = probe (fun _ => false)
      (fun p => ¬ ((m.map p).state = .occupied ∧ (m.map p).orderId ≠ orderId))
      capacity capacity (home capacity orderId) := by
    rw [insert]
    split <;> simp_all
  rw [hprobe, probe_eq_none_iff hh]
  constructor
  · intro h q hq
    obtain ⟨j, hj, hcell⟩ := exists_cell hh hq
    by_contra hhit
    obtain ⟨i, _, hi⟩ := h j hj (by rw [hcell]; exact decide_eq_true hhit)
    cases hi
  · intro h j _ hhit
    exact absurd (h _ (cell_lt hh j)) (of_decide_eq_true hhit)

theorem insert_unchanged {m : StaticOrderMap capacity} {orderId : BitVec 64} {v : BitVec 32}
    (h : (m.insert orderId v).2 = none) : m.insert orderId v = (m, none) := by
  rw [insert] at h ⊢
  split at h
  · cases h
  · rfl

theorem operatorIndex_full {m : StaticOrderMap capacity} (hc : 0 < capacity) (w : m.WellFormed)
    {orderId : BitVec 64} (hget : m.get orderId = none)
    (hfull : ∀ q < capacity, (m.map q).state = .occupied) :
    m.operatorIndex orderId = (m, .error
      "StaticOrderMap::operator[]: Map is full, unable to allocate any more elements.") := by
  have hfind : m.find orderId = none := Option.map_eq_none_iff.mp hget
  have habsent := (w.get_eq_none_iff hc).mp hget
  have hins : (m.insert orderId 0).2 = none := by
    rw [insert_fails_iff hc]
    exact fun q hq => ⟨hfull q hq, habsent q ⟨hq, hfull q hq⟩⟩
  simp only [operatorIndex, hfind, insert_unchanged hins]

theorem assign_full {m : StaticOrderMap capacity} (hc : 0 < capacity) (w : m.WellFormed)
    {orderId : BitVec 64} (hget : m.get orderId = none)
    (hfull : ∀ q < capacity, (m.map q).state = .occupied) (v : BitVec 32) :
    m.assign orderId v = (m, .error
      "StaticOrderMap::operator[]: Map is full, unable to allocate any more elements.") := by
  rw [assign, operatorIndex_full hc w hget hfull]

theorem setPoolIdx_place (m : StaticOrderMap capacity) (p : Nat) (orderId : BitVec 64)
    (u v : BitVec 32) :
    setPoolIdx (⟨Function.update m.map p ⟨orderId, u, .occupied⟩⟩ : StaticOrderMap capacity) p v =
      ⟨Function.update m.map p ⟨orderId, v, .occupied⟩⟩ := by
  simp [setPoolIdx]

/-- Overwriting the bucket `p` of `orderId`, or filling the free bucket `p` with it. -/
theorem get_place {m m' : StaticOrderMap capacity} (w : m.WellFormed) (w' : m'.WellFormed)
    (hc : 0 < capacity) {orderId : BitVec 64} {v : BitVec 32} {p : Nat} (hp : p < capacity)
    (hm : m'.map = Function.update m.map p ⟨orderId, v, .occupied⟩)
    (hold : m.Occupied p → (m.map p).orderId = orderId) (id : BitVec 64) :
    m'.get id = if id = orderId then some v else m.get id := by
  split_ifs with hid
  · rw [w'.get_eq_some_iff hc]
    exact ⟨p, ⟨hp, by simp [hm]⟩, by simp [hm, hid], by simp [hm]⟩
  · apply get_eq_of_occupied w w' hc
    · intro q
      by_cases hqp : q = p
      · subst hqp
        have hne : ¬ orderId = id := fun h => hid h.symm
        simp only [hm, Function.update_self, hne, and_false, false_iff, not_and]
        intro hq h
        exact hne ((hold hq).symm.trans h)
      · simp [Occupied, hm, hqp]
    · intro q hq hqid
      have hqp : q ≠ p := by
        rintro rfl
        exact hid (hqid.symm.trans (hold hq))
      simp [hm, hqp]

/-- `map[orderId] = v` in a table with room, or over an id already present. -/
theorem assign_spec {m : StaticOrderMap capacity} (w : m.WellFormed) (hc : 0 < capacity)
    (orderId : BitVec 64) (v : BitVec 32)
    (hroom : m.get orderId ≠ none ∨ ∃ q < capacity, (m.map q).state ≠ .occupied) :
    ∃ m', m.assign orderId v = (m', .ok ()) ∧ m'.WellFormed ∧
      ∀ id, m'.get id = if id = orderId then some v else m.get id := by
  cases hf : m.find orderId with
  | some p =>
    obtain ⟨hp, hid⟩ := occupied_of_find hc hf
    have hb : { m.map p with poolIdx := v } = (⟨orderId, v, .occupied⟩ : Bucket) := by
      rw [← hid, ← hp.2]
    have hw : (m.setPoolIdx p v).WellFormed := by
      refine w.congr (fun q => ?_)
      by_cases hqp : q = p
      · subst hqp
        simp [setPoolIdx]
      · simp [setPoolIdx, hqp]
    refine ⟨m.setPoolIdx p v, by simp only [assign, operatorIndex, hf], hw, ?_⟩
    exact get_place w hw hc hp.1 (by rw [setPoolIdx, hb]) (fun _ => hid)
  | none =>
    have habsent : ∀ q, m.Occupied q → (m.map q).orderId ≠ orderId :=
      (w.get_eq_none_iff hc).mp (by simp [get, hf])
    have hfree : ∃ q < capacity, (m.map q).state ≠ .occupied := by
      rcases hroom with h | h
      · exact absurd (by simp [get, hf]) h
      · exact h
    obtain ⟨p, j, hp, hj, hcell, hbefore, hst, hins⟩ := insert_absent hc habsent hfree 0
    have hw := w.place hp hj hcell hbefore habsent v
    refine ⟨_, by simp only [assign, operatorIndex, hf, hins]; rfl, ?_, ?_⟩
    · rw [setPoolIdx_place]
      exact hw
    · rw [setPoolIdx_place]
      exact get_place w hw hc hp rfl (fun h => absurd h.2 hst)

end StaticOrderMap
end MarketDataBook
