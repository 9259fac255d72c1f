import MarketDataBook.BookCalls
import Mathlib.Data.Fintype.EquivFin

/-! What a call that raises leaves behind. `execute_order` throws before it writes. In
`add_order` the map throws after the slot has been taken from the free list, and the slot is
lost. -/
namespace MarketDataBook.LimitOrderBook
open IndexChain

def KeptOnRaise (b : LimitOrderBook) (c : BookCall) : Prop :=
  ∀ what, (b.step c).2 = .raised what → (b.step c).1 = b

section Step
variable {maxOrders : Nat} {b : LimitOrderBook} {free : List (BitVec 32)}
  {live : List (Side × BitVec 32)}

theorem executeOrder_keptOnRaise (b : LimitOrderBook) (order : NormalizedOrderExecuted) :
    KeptOnRaise b (.execute order) := by
  intro what hr
  rw [LimitOrderBook.step] at hr ⊢
  cases hg : b.orders.get order.orderReferenceNumber with
  | none => rw [executeOrder_absent hg]
  | some v =>
    rw [executeOrder_present hg] at hr ⊢
    split_ifs at hr ⊢
    rfl

/-- An add that overflows the map raises and leaves the free list one slot shorter. -/
theorem addOrder_overflow (w : b.orders.WellFormed) {order : NormalizedAddOrder}
    (hc : MapOverflow b (.add order)) :
    (b.addOrder order).2 = .raised
        "StaticOrderMap::operator[]: Map is full, unable to allocate any more elements." ∧
      (b.addOrder order).1.nextFreeIndex = b.next b.nextFreeIndex := by
  obtain ⟨hprice, hfree, hget, hfull⟩ := hc
  rw [addOrder_eq_impl order hprice hfree, addOrderImpl]
  dsimp only [modifyOrder]
  rw [Function.update_self, StaticOrderMap.assign_full orderMapSize_pos w hget hfull]
  exact ⟨rfl, rfl⟩

theorem Layout.next_ne_free (h : Layout maxOrders b free live)
    (hfree : b.nextFreeIndex ≠ nullIndex) : b.next b.nextFreeIndex ≠ b.nextFreeIndex := by
  cases free with
  | nil => exact absurd (h.freeChain.eq_nil_iff.mp rfl) hfree
  | cons x free =>
    obtain ⟨hx, hnull, hchain⟩ := h.freeChain
    rw [hx]
    intro he
    rw [he] at hchain
    cases free with
    | nil => exact hnull hchain
    | cons y free =>
      have hy : x = y := hchain.1
      have hnodup := h.nodup
      rw [hy] at hnodup
      simp at hnodup

/-- On a laid out book exactly the overflows of the map break the guarantee. -/
theorem Layout.keptOnRaise_iff (h : Layout maxOrders b free live) (hn : maxOrders ≤ 2^31)
    (c : BookCall) : KeptOnRaise b c ↔ ¬ MapOverflow b c := by
  constructor
  · intro hk hc
    cases c with
    | add order =>
      obtain ⟨hr, hnext⟩ := addOrder_overflow h.orders hc
      apply h.next_ne_free hc.2.1
      rw [← hnext]
      exact congrArg nextFreeIndex (hk _ hr)
    | cancel orderId => exact hc
    | execute order => exact hc
  · intro hc
    cases c with
    | add order =>
      intro what hr
      rw [LimitOrderBook.step, addOrder_returned_of_room h hn hc] at hr
      cases hr
    | cancel orderId =>
      intro what hr
      cases hr
    | execute order => exact executeOrder_keptOnRaise b order

end Step

/-- For every run from a fresh book: each of its calls that raises leaves the book as it was
exactly when no add of the run brings a new id to a full map. -/
theorem failed_calls_keep_book_iff (maxOrders : Nat) (h1 : 1 ≤ maxOrders)
    (hn : maxOrders < 2^31) (calls : List BookCall) :
    StepRun.Along after KeptOnRaise (new maxOrders) calls ↔
      StepRun.Along after (fun b c => ¬ MapOverflow b c) (new maxOrders) calls := by
  apply StepRun.along_iff_along (I := fun b => ∃ free live, Layout maxOrders b free live)
  · exact ⟨_, _, Layout.new h1 hn.le⟩
  · rintro b c ⟨free, live, h⟩
    exact h.keptOnRaise_iff hn.le c
  · rintro b c ⟨free, live, h⟩ hc
    exact h.step_of_room hn.le hc

/-- With no more slots than buckets the map never overflows. -/
theorem run_not_mapOverflow {maxOrders : Nat} (h1 : 1 ≤ maxOrders)
    (hn : maxOrders ≤ orderMapSize) (calls : List BookCall) :
    StepRun.Along after (fun b c => ¬ MapOverflow b c) (new maxOrders) calls := by
  refine (StepRun.along_iff_along (P := fun _ _ => True)
    (I := fun b => ∃ free live, Layout maxOrders b free live)
    ⟨_, _, Layout.new h1 (hn.trans (by decide))⟩ ?_ ?_).mp (StepRun.along_true _ _)
  · rintro b c ⟨free, live, h⟩
    exact iff_of_true trivial (h.not_mapOverflow hn c)
  · rintro b c ⟨free, live, h⟩ _
    exact h.step hn c

/-- An execution of more shares than are resting raises and changes nothing. -/
theorem over_execution_keeps_book :
    StepRun.Along after KeptOnRaise (new 1)
        [.add (.plain 66#8 1 7 5), .execute ⟨0, 1, 0, 6, 0, 0⟩] ∧
      (((new 1).run [.add (.plain 66#8 1 7 5)]).1.step (.execute ⟨0, 1, 0, 6, 0, 0⟩)).2 =
        overExecution :=
  ⟨(failed_calls_keep_book_iff 1 (by decide) (by decide) _).mpr
    (run_not_mapOverflow (by decide) (by decide) _), by decide +kernel⟩

/-- Ids that fill as many buckets as there are fill them all. -/
theorem map_full_of_ids {capacity : Nat} {m : StaticOrderMap capacity} (hc : 0 < capacity)
    (hcap : capacity ≤ 2^64) (w : m.WellFormed)
    (h : ∀ i < capacity, m.get (BitVec.ofNat 64 i) ≠ none) :
    ∀ q < capacity, (m.map q).state = .occupied := by
  have hbucket : ∀ i : Fin capacity, ∃ p : Fin capacity,
      m.Occupied p ∧ (m.map p).orderId = BitVec.ofNat 64 i := by
    intro i
    obtain ⟨v, hv⟩ := Option.ne_none_iff_exists'.mp (h i i.isLt)
    obtain ⟨p, hp, hid, -⟩ := (w.get_eq_some_iff hc).mp hv
    exact ⟨⟨p, hp.1⟩, hp, hid⟩
  choose f hf using hbucket
  have hinj : Function.Injective f := by
    intro i j he
    have hid : BitVec.ofNat 64 i = BitVec.ofNat 64 j := by
      rw [← (hf i).2, ← (hf j).2, he]
    have hnat := congrArg BitVec.toNat hid
    rw [BitVec.toNat_ofNat, BitVec.toNat_ofNat, Nat.mod_eq_of_lt (by omega),
      Nat.mod_eq_of_lt (by omega)] at hnat
    exact Fin.ext hnat
  intro q hq
  obtain ⟨i, hi⟩ := Finite.surjective_of_injective hinj ⟨q, hq⟩
  have hocc := (hf i).1.2
  rw [hi] at hocc
  exact hocc

def fillOrder (i : Nat) : NormalizedAddOrder := .plain 66#8 (BitVec.ofNat 64 i) 0 1

def FilledTo (maxOrders n : Nat) (b : LimitOrderBook) : Prop :=
  ∃ free live, Layout maxOrders b free live ∧ live.length = n ∧
    ∀ id, b.orders.get id ≠ none ↔ id.toNat < n

section Fill
variable {maxOrders n : Nat} {b : LimitOrderBook}

theorem fillOrder_price (i : Nat) : (fillOrder i).price.toNat < maxTicks := by
  simp [fillOrder, NormalizedAddOrder.plain, maxTicks]

theorem fillOrder_id (hn : n ≤ orderMapSize) (id : BitVec 64) :
    id = (fillOrder n).orderReferenceNumber ↔ id.toNat = n := by
  have hsize : orderMapSize < 2^64 := by decide
  have hid : (fillOrder n).orderReferenceNumber = BitVec.ofNat 64 n := rfl
  rw [hid, ← BitVec.toNat_inj, BitVec.toNat_ofNat, Nat.mod_eq_of_lt (by omega)]

theorem FilledTo.new (h1 : 1 ≤ maxOrders) (hn : maxOrders ≤ 2^31) :
    FilledTo maxOrders 0 (new maxOrders) := by
  have h := Layout.new h1 hn
  refine ⟨_, [], h, rfl, fun id => iff_of_false (fun hne => ?_) (Nat.not_lt_zero _)⟩
  obtain ⟨v, hv⟩ := Option.ne_none_iff_exists'.mp hne
  exact absurd (h.target id v hv).1 List.not_mem_nil

theorem FilledTo.add (h : FilledTo maxOrders n b) (hn : maxOrders ≤ 2^31)
    (hmap : n < orderMapSize) (hlt : n < maxOrders) :
    FilledTo maxOrders (n+1) (b.after (.add (fillOrder n))) := by
  obtain ⟨free, live, h, hlen, hids⟩ := h
  have hlength := h.length hn
  cases free with
  | nil =>
    rw [List.length_nil] at hlength
    omega
  | cons x free =>
    obtain ⟨b', hb', -, hget, hl⟩ := addOrder_accepted h hn (fillOrder n)
      (Or.inr (h.room (by omega))) (fillOrder_price n)
    rw [after, LimitOrderBook.step, hb']
    refine ⟨free, _, hl, by rw [List.length_append, hlen]; rfl, ?_⟩
    intro id
    have hid := fillOrder_id hmap.le id
    rw [hget]
    split_ifs with he
    · have := hid.mp he
      exact iff_of_true (Option.some_ne_none _) (by omega)
    · have hne : ¬ id.toNat = n := fun hc => he (hid.mpr hc)
      rw [hids]
      omega

theorem filledTo_run (h1 : 1 ≤ maxOrders) (hn : maxOrders ≤ 2^31) (hmap : n ≤ orderMapSize)
    (hle : n ≤ maxOrders) :
    FilledTo maxOrders n (((List.range n).map fun i => .add (fillOrder i)).foldl after
      (new maxOrders)) := by
  induction n with
  | zero => exact .new h1 hn
  | succ n ih =>
    rw [List.range_succ, List.map_append, List.foldl_append]
    exact (ih (by omega) (by omega)).add hn (by omega) (by omega)

/-- As many orders as there are buckets and a slot left: the next id has no place. -/
theorem FilledTo.mapOverflow (h : FilledTo maxOrders orderMapSize b) (hn : maxOrders ≤ 2^31)
    (hlt : orderMapSize < maxOrders) : MapOverflow b (.add (fillOrder orderMapSize)) := by
  obtain ⟨free, live, h, hlen, hids⟩ := h
  have hlength := h.length hn
  have hsize : orderMapSize ≤ 2^64 := by decide
  have hmod : ∀ i ≤ orderMapSize, (BitVec.ofNat 64 i).toNat = i := by
    intro i hi
    exact (fillOrder_id hi _).mp rfl
  refine ⟨fillOrder_price _, ?_, ?_, ?_⟩
  · intro hnull
    rw [h.freeChain.eq_nil_iff.mpr hnull, List.length_nil] at hlength
    omega
  · by_contra hne
    have hlt := (hids _).mp hne
    rw [(fillOrder_id (Nat.le_refl _) _).mp rfl] at hlt
    omega
  · apply map_full_of_ids orderMapSize_pos hsize h.orders
    intro i hi
    rw [hids, hmod i hi.le]
    exact hi

end Fill

/-- The map can overflow exactly in the books with more slots than it has buckets. -/
theorem mapOverflow_reachable_iff {maxOrders : Nat} (h1 : 1 ≤ maxOrders)
    (hn : maxOrders < 2^31) :
    (∃ calls c, MapOverflow ((new maxOrders).run calls).1 c) ↔ orderMapSize < maxOrders := by
  constructor
  · rintro ⟨calls, c, hc⟩
    by_contra hle
    obtain ⟨free, live, h⟩ := (Layout.new h1 hn.le).run (Nat.not_lt.mp hle) calls
    exact h.not_mapOverflow (Nat.not_lt.mp hle) c hc
  · intro hlt
    refine ⟨(List.range orderMapSize).map fun i => .add (fillOrder i),
      .add (fillOrder orderMapSize), ?_⟩
    rw [run_fst]
    exact (filledTo_run h1 hn.le (Nat.le_refl _) hlt.le).mapOverflow hn.le hlt

/-- One slot more than there are buckets: the add that takes the last slot raises and the slot
is gone, so that the book takes no order any more. -/
theorem full_map_loses_slot : ∃ (calls : List BookCall) (order : NormalizedAddOrder),
    (((new (2^22 + 1)).run calls).1.addOrder order).2 = .raised
        "StaticOrderMap::operator[]: Map is full, unable to allocate any more elements." ∧
      ((new (2^22 + 1)).run calls).1.nextFreeIndex ≠ nullIndex ∧
      (((new (2^22 + 1)).run calls).1.addOrder order).1.nextFreeIndex = nullIndex ∧
      (((new (2^22 + 1)).run calls).1.addOrder order).1 ≠ ((new (2^22 + 1)).run calls).1 := by
  have hsize : orderMapSize = 2^22 := rfl
  have hfill : FilledTo (2^22 + 1) orderMapSize (((List.range orderMapSize).map fun i =>
      .add (fillOrder i)).foldl after (new (2^22 + 1))) :=
    filledTo_run (by omega) (by omega) (Nat.le_refl _) (by omega)
  refine ⟨(List.range orderMapSize).map fun i => .add (fillOrder i), fillOrder orderMapSize, ?_⟩
  rw [run_fst]
  generalize ((List.range orderMapSize).map fun i => .add (fillOrder i)).foldl after
    (new (2^22 + 1)) = b at hfill ⊢
  have hc := hfill.mapOverflow (by omega) (by omega)
  obtain ⟨free, live, h, hlen, -⟩ := hfill
  obtain ⟨hr, hnext⟩ := addOrder_overflow h.orders hc
  have hlength := h.length (by omega)
  obtain ⟨x, rfl⟩ := List.length_eq_one_iff.mp (show free.length = 1 by omega)
  obtain ⟨hx, -, hlast⟩ := h.freeChain
  rw [hx, show b.next x = nullIndex from hlast] at hnext
  refine ⟨hr, hc.2.1, hnext, fun he => ?_⟩
  rw [he] at hnext
  exact hc.2.1 hnext

end MarketDataBook.LimitOrderBook
