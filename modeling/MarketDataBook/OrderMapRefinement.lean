import MarketDataBook.StaticOrderMap
import MarketDataBook.Library.StepRun
import Mathlib.Data.Finmap

/-! The table of `utils/StaticOrderMap.h` refines a finite map of at most `capacity` keys. What
probing, wrap-around and tombstones do to the buckets never shows in the answers. -/
namespace MarketDataBook
namespace StaticOrderMap
variable {capacity : Nat}

/-- A use of the table: `map[orderId] = poolIdx`, and its member functions, `erase` of a bucket
on what `find` returned. -/
inductive MapCall where
  | assign (orderId : BitVec 64) (poolIdx : BitVec 32)
  | insert (orderId : BitVec 64) (poolIdx : BitVec 32)
  | erase (orderId : BitVec 64)
  | eraseFound (orderId : BitVec 64)
  | find (orderId : BitVec 64)
  deriving DecidableEq

def MapCall.orderId : MapCall → BitVec 64
  | .assign id _ | .insert id _ | .erase id | .eraseFound id | .find id => id

def step (m : StaticOrderMap capacity) : MapCall → StaticOrderMap capacity
  | .assign id v => (m.assign id v).1
  | .insert id v => (m.insert id v).1
  | .erase id => m.erase id
  | .eraseFound id => (m.eraseBucket (m.find id)).1
  | .find _ => m

end StaticOrderMap

open StaticOrderMap

abbrev ReferenceMap := Finmap fun _ : BitVec 64 => BitVec 32

namespace ReferenceMap

/-- A new key is refused when there are `capacity` of them. -/
def put (capacity : Nat) (f : ReferenceMap) (id : BitVec 64) (v : BitVec 32) : ReferenceMap :=
  if id ∈ f ∨ f.keys.card < capacity then f.insert id v else f

def after (capacity : Nat) (f : ReferenceMap) : MapCall → ReferenceMap
  | .assign id v | .insert id v => f.put capacity id v
  | .erase id | .eraseFound id => f.erase id
  | .find _ => f

/-- `insert` is for absent keys, and only a bucket that was found is erased. -/
def Admits (f : ReferenceMap) : MapCall → Prop
  | .insert id _ => id ∉ f
  | .eraseFound id => id ∈ f
  | _ => True

instance decidableAdmits (f : ReferenceMap) : (call : MapCall) → Decidable (f.Admits call)
  | .insert id _ => inferInstanceAs (Decidable (id ∉ f))
  | .eraseFound id => inferInstanceAs (Decidable (id ∈ f))
  | .assign _ _ | .erase _ | .find _ => isTrue trivial

end ReferenceMap

namespace StaticOrderMap
variable {capacity : Nat} {m m' : StaticOrderMap capacity} {id orderId : BitVec 64}

def Full (m : StaticOrderMap capacity) : Prop := ∀ p < capacity, (m.map p).state = .occupied

structure Answers (m : StaticOrderMap capacity) (f : ReferenceMap) : Prop where
  found : ∀ id v, f.lookup id = some v →
    ∃ p < capacity, m.find id = some p ∧ m.map p = ⟨id, v, .occupied⟩
  absent : ∀ id, f.lookup id = none → m.find id = none
  unique : ∀ p q, m.Occupied p → m.Occupied q → (m.map p).orderId = (m.map q).orderId → p = q
  others : ∀ call, f.Admits call → ∀ id, id ≠ call.orderId →
    (m.step call).find id = m.find id ∧
      ∀ p, m.find id = some p → (m.step call).map p = m.map p
  raises : ∀ id, (∃ what, (m.operatorIndex id).2 = .error what) ↔ id ∉ f ∧ m.Full
  fails : ∀ id v, (m.insert id v).2 = none ↔ id ∉ f ∧ m.Full
  unchanged : ∀ id v, id ∉ f → m.Full →
    (m.operatorIndex id).1 = m ∧ (m.assign id v).1 = m ∧ (m.insert id v).1 = m

def OnlyTouches (m m' : StaticOrderMap capacity) (orderId : BitVec 64) : Prop :=
  ∀ p, m'.map p ≠ m.map p → (m.Occupied p → (m.map p).orderId = orderId) ∧
    (m'.Occupied p → (m'.map p).orderId = orderId)

theorem OnlyTouches.refl (m : StaticOrderMap capacity) (orderId : BitVec 64) :
    OnlyTouches m m orderId := fun _ h => absurd rfl h

theorem onlyTouches_update {p : Nat} {b : Bucket}
    (hold : m.Occupied p → (m.map p).orderId = orderId)
    (hnew : b.state = .occupied → b.orderId = orderId) :
    OnlyTouches m ⟨Function.update m.map p b⟩ orderId := by
  intro q hq
  by_cases hqp : q = p
  · subst hqp
    refine ⟨hold, ?_⟩
    intro hocc
    have hst : b.state = .occupied := by simpa using hocc.2
    simpa using hnew hst
  · exact absurd (by simp [hqp]) hq

theorem OnlyTouches.find (h : OnlyTouches m m' orderId) (w : m.WellFormed) (w' : m'.WellFormed)
    (hc : 0 < capacity) (hid : id ≠ orderId) :
    m'.find id = m.find id ∧ ∀ p, m.find id = some p → m'.map p = m.map p := by
  have hsame : ∀ p, m.find id = some p → m'.map p = m.map p := by
    intro p hp
    obtain ⟨hocc, hpid⟩ := occupied_of_find hc hp
    by_contra hne
    exact hid (hpid.symm.trans ((h p hne).1 hocc))
  refine ⟨?_, hsame⟩
  cases hf : m.find id with
  | some p =>
    obtain ⟨hocc, hpid⟩ := occupied_of_find hc hf
    rw [w'.find_eq_some_iff hc, Occupied, hsame p hf]
    exact ⟨hocc, hpid⟩
  | none =>
    rw [Option.eq_none_iff_forall_ne_some]
    intro p hp
    obtain ⟨hocc, hpid⟩ := occupied_of_find hc hp
    by_cases heq : m'.map p = m.map p
    · have hold : m.find id = some p := by
        rw [w.find_eq_some_iff hc, Occupied, ← heq]
        exact ⟨hocc, hpid⟩
      rw [hf] at hold
      cases hold
    · exact hid (hpid.symm.trans ((h p heq).2 hocc))

theorem insert_onlyTouches (hc : 0 < capacity) (m : StaticOrderMap capacity) (id : BitVec 64)
    (v : BitVec 32) : OnlyTouches m (m.insert id v).1 id := by
  cases hins : (m.insert id v).2 with
  | none =>
    rw [insert_unchanged hins]
    exact OnlyTouches.refl m id
  | some p =>
    rw [insert] at hins ⊢
    split at hins
    · rename_i q hq
      obtain ⟨j, _, hcell, hf⟩ := (LinearProbe.probe_eq_some_iff (home_lt hc id)).mp hq
      have hhit := of_decide_eq_true hf.here
      rw [← hcell] at hhit
      apply onlyTouches_update
      · intro hocc
        by_contra hne
        exact hhit ⟨hocc.2, hne⟩
      · intro _
        rfl
    · cases hins

/-- For an absent id the assignment is one `insert`. -/
theorem assign_absent (h : m.find id = none) (v : BitVec 32) :
    (m.assign id v).1 = (m.insert id v).1 := by
  rw [assign, operatorIndex, h, insert, insert]
  generalize LinearProbe.probe _ _ _ _ _ = found
  cases found with
  | none => rfl
  | some p => exact setPoolIdx_place m p id 0 v

theorem eraseBucket_find (hc : 0 < capacity) (m : StaticOrderMap capacity) (id : BitVec 64) :
    (m.eraseBucket (m.find id)).1 = m.erase id := by
  rw [erase]
  cases hf : m.find id with
  | none => rfl
  | some p =>
    have hp := (occupied_of_find hc hf).1.1
    rw [eraseBucket, if_pos hp]

theorem erase_onlyTouches (hc : 0 < capacity) (m : StaticOrderMap capacity) (id : BitVec 64) :
    OnlyTouches m (m.erase id) id := by
  rw [erase]
  cases hf : m.find id with
  | none => exact OnlyTouches.refl m id
  | some p =>
    apply onlyTouches_update
    · intro _
      exact (occupied_of_find hc hf).2
    · intro hst
      cases hst

theorem assign_onlyTouches (hc : 0 < capacity) (m : StaticOrderMap capacity) (id : BitVec 64)
    (v : BitVec 32) : OnlyTouches m (m.assign id v).1 id := by
  cases hf : m.find id with
  | none =>
    rw [assign_absent hf]
    exact insert_onlyTouches hc m id v
  | some p =>
    have hid := (occupied_of_find hc hf).2
    rw [assign, operatorIndex, hf]
    exact onlyTouches_update (fun _ => hid) (fun _ => hid)

theorem step_onlyTouches (hc : 0 < capacity) (m : StaticOrderMap capacity) (call : MapCall) :
    OnlyTouches m (m.step call) call.orderId := by
  cases call with
  | assign id v => exact assign_onlyTouches hc m id v
  | insert id v => exact insert_onlyTouches hc m id v
  | erase id => exact erase_onlyTouches hc m id
  | eraseFound id =>
    rw [step, eraseBucket_find hc]
    exact erase_onlyTouches hc m id
  | find id => exact OnlyTouches.refl m id

structure Stands (m : StaticOrderMap capacity) (f : ReferenceMap) : Prop where
  wellFormed : m.WellFormed
  get : ∀ id, m.get id = f.lookup id

section Count
variable {f : ReferenceMap}

theorem Stands.find_eq_none (s : Stands m f) (h : id ∉ f) : m.find id = none :=
  Option.map_eq_none_iff.mp ((s.get id).trans (Finmap.lookup_eq_none.mpr h))

theorem Stands.mem_iff (s : Stands m f) (hc : 0 < capacity) :
    id ∈ f ↔ ∃ p, m.Occupied p ∧ (m.map p).orderId = id := by
  rw [Finmap.mem_iff]
  constructor
  · rintro ⟨v, hv⟩
    obtain ⟨p, hp, hid, _⟩ := (s.wellFormed.get_eq_some_iff hc).mp ((s.get id).trans hv)
    exact ⟨p, hp, hid⟩
  · rintro ⟨p, hp, hid⟩
    refine ⟨(m.map p).poolIdx, ?_⟩
    rw [← s.get id, s.wellFormed.get_eq_some_iff hc]
    exact ⟨p, hp, hid, rfl⟩

/-- There is one key for each bucket that is taken. -/
theorem Stands.card_keys (s : Stands m f) (hc : 0 < capacity) :
    f.keys.card = ((Finset.range capacity).filter fun p => (m.map p).state = .occupied).card := by
  have himage : f.keys = ((Finset.range capacity).filter fun p =>
      (m.map p).state = .occupied).image fun p => (m.map p).orderId := by
    ext id
    rw [Finmap.mem_keys, s.mem_iff hc]
    simp [Occupied]
  rw [himage]
  apply Finset.card_image_of_injOn
  intro p hp q hq hid
  simp only [Finset.coe_filter, Finset.mem_range, Set.mem_ofPred_eq] at hp hq
  exact s.wellFormed.unique p q hp hq hid

theorem Stands.full_iff (s : Stands m f) (hc : 0 < capacity) :
    m.Full ↔ ¬ f.keys.card < capacity := by
  have hcard := Finset.card_filter_le (Finset.range capacity) fun p =>
    (m.map p).state = .occupied
  have hall := Finset.card_filter_eq_iff (s := Finset.range capacity)
    (p := fun p => (m.map p).state = .occupied)
  rw [Finset.card_range] at hcard hall
  have hfull : m.Full ↔ ∀ p ∈ Finset.range capacity, (m.map p).state = .occupied := by
    simp [Full]
  rw [s.card_keys hc, hfull, ← hall]
  omega

end Count

section Steps
variable {f : ReferenceMap}

theorem Stands.new : Stands (new : StaticOrderMap capacity) ∅ := by
  refine ⟨new_wellFormed, ?_⟩
  intro id
  have hfind : (StaticOrderMap.new : StaticOrderMap capacity).find id = none := by
    rw [StaticOrderMap.find]
    cases capacity with
    | zero => rfl
    | succ n => simp [LinearProbe.probe, StaticOrderMap.new]
  rw [StaticOrderMap.get, hfind, Finmap.lookup_empty]
  rfl

/-- A table whose answers are those of `m` but for one key. -/
theorem Stands.put (s : Stands m f) (w' : m'.WellFormed) {v : BitVec 32}
    (hget : ∀ id, m'.get id = if id = orderId then some v else m.get id) :
    Stands m' (f.insert orderId v) := by
  refine ⟨w', ?_⟩
  intro id
  rw [hget]
  split_ifs with hid
  · rw [hid, Finmap.lookup_insert]
  · rw [Finmap.lookup_insert_of_ne f hid, s.get]

theorem Stands.assign (s : Stands m f) (hc : 0 < capacity) (id : BitVec 64) (v : BitVec 32) :
    Stands (m.assign id v).1 (f.put capacity id v) := by
  rw [ReferenceMap.put]
  split_ifs with hroom
  · have hroom' : m.get id ≠ none ∨ ∃ q < capacity, (m.map q).state ≠ .occupied := by
      refine hroom.imp ?_ ?_
      · intro hmem
        rw [s.get, ne_eq, Finmap.lookup_eq_none, not_not]
        exact hmem
      · intro hlt
        have hfull : ¬ m.Full := fun h => (s.full_iff hc).mp h hlt
        simpa [Full] using hfull
    obtain ⟨m', hm', w', hget⟩ := assign_spec s.wellFormed hc id v hroom'
    rw [hm']
    exact s.put w' hget
  · obtain ⟨hmem, hcard⟩ := not_or.mp hroom
    rw [assign_full hc s.wellFormed ((s.get id).trans (Finmap.lookup_eq_none.mpr hmem))
      ((s.full_iff hc).mpr hcard) v]
    exact s

theorem Stands.erase (s : Stands m f) (hc : 0 < capacity) (id : BitVec 64) :
    Stands (m.erase id) (f.erase id) := by
  refine ⟨erase_wellFormed s.wellFormed id, ?_⟩
  intro id'
  rw [get_erase s.wellFormed hc]
  split_ifs with hid
  · rw [hid, Finmap.lookup_erase]
  · rw [Finmap.lookup_erase_ne hid, s.get]

theorem Stands.step (s : Stands m f) (hc : 0 < capacity) {call : MapCall} (ha : f.Admits call) :
    Stands (m.step call) (f.after capacity call) := by
  cases call with
  | assign id v => exact s.assign hc id v
  | insert id v =>
    rw [StaticOrderMap.step, ← assign_absent (s.find_eq_none ha)]
    exact s.assign hc id v
  | erase id => exact s.erase hc id
  | eraseFound id =>
    rw [StaticOrderMap.step, eraseBucket_find hc]
    exact s.erase hc id
  | find id => exact s

theorem Stands.fails_iff (s : Stands m f) (hc : 0 < capacity) (id : BitVec 64) (v : BitVec 32) :
    (m.insert id v).2 = none ↔ id ∉ f ∧ m.Full := by
  rw [insert_fails_iff hc, s.mem_iff hc]
  constructor
  · intro h
    refine ⟨?_, fun p hp => (h p hp).1⟩
    rintro ⟨p, hp, hid⟩
    exact (h p hp.1).2 hid
  · rintro ⟨hmem, hfull⟩ q hq
    exact ⟨hfull q hq, fun hid => hmem ⟨q, ⟨hq, hfull q hq⟩, hid⟩⟩

theorem Stands.raises_iff (s : Stands m f) (hc : 0 < capacity) (id : BitVec 64) :
    (∃ what, (m.operatorIndex id).2 = .error what) ↔ id ∉ f ∧ m.Full := by
  constructor
  · rintro ⟨what, hwhat⟩
    rw [← s.fails_iff hc id 0]
    rw [operatorIndex] at hwhat
    split at hwhat
    · cases hwhat
    · split at hwhat
      · cases hwhat
      · rename_i hins
        rw [hins]
  · rintro ⟨hmem, hfull⟩
    have hget := (s.get id).trans (Finmap.lookup_eq_none.mpr hmem)
    exact ⟨_, congrArg Prod.snd (operatorIndex_full hc s.wellFormed hget hfull)⟩

theorem Stands.answers (s : Stands m f) (hc : 0 < capacity) : Answers m f where
  found := by
    intro id v hv
    obtain ⟨p, hf, hval⟩ := Option.map_eq_some_iff.mp ((s.get id).trans hv)
    obtain ⟨hp, hid⟩ := occupied_of_find hc hf
    refine ⟨p, hp.1, hf, ?_⟩
    rw [← hid, ← hval, ← hp.2]
  absent := fun id h => s.find_eq_none (Finmap.lookup_eq_none.mp h)
  unique := s.wellFormed.unique
  others := fun call ha id hid =>
    (step_onlyTouches hc m call).find s.wellFormed (s.step hc ha).wellFormed hc hid
  raises := s.raises_iff hc
  fails := s.fails_iff hc
  unchanged := by
    intro id v hmem hfull
    have hget := (s.get id).trans (Finmap.lookup_eq_none.mpr hmem)
    refine ⟨?_, ?_, ?_⟩
    · rw [operatorIndex_full hc s.wellFormed hget hfull]
    · rw [assign_full hc s.wellFormed hget hfull]
    · rw [insert_unchanged ((s.fails_iff hc id v).mpr ⟨hmem, hfull⟩)]

end Steps

/-- In every run that inserts only absent keys and erases only buckets it found, the table
answers as the finite map does. -/
theorem run_answers (k : Nat) (calls : List MapCall)
    (h : StepRun.Along (ReferenceMap.after (2^k)) ReferenceMap.Admits ∅ calls) (n : Nat) :
    Answers ((calls.take n).foldl step (new : StaticOrderMap (2^k)))
      ((calls.take n).foldl (ReferenceMap.after (2^k)) ∅) := by
  have hc : 0 < 2^k := Nat.two_pow_pos k
  apply Stands.answers _ hc
  exact (h.take n).simulation (R := fun f m => Stands m f) Stands.new
    fun f m call s ha => s.step hc ha

/-- Three keys of one home bucket in a table of two: a wrapped probe, a tombstone used again,
and an assignment that finds the table full. -/
def collidingCalls : List MapCall :=
  [.insert 1 10, .insert 3 30, .erase 1, .assign 5 50, .assign 7 70, .eraseFound 5, .find 3]

theorem collidingCalls_answered :
    Answers ((collidingCalls.take 5).foldl step (new : StaticOrderMap (2^1)))
      ((collidingCalls.take 5).foldl (ReferenceMap.after (2^1)) ∅) ∧
    ((collidingCalls.take 5).foldl step (new : StaticOrderMap (2^1))).find 3 = some 0 ∧
    ((collidingCalls.take 5).foldl step (new : StaticOrderMap (2^1))).find 7 = none :=
  ⟨run_answers 1 collidingCalls (by decide +kernel) 5, by decide +kernel, by decide +kernel⟩

end StaticOrderMap
end MarketDataBook
