import MarketDataBook.BookRefinement

/-! How far `StaticOrderMap::find` has to look, over the life of a book. A bucket that was used
once is never `Empty` again: `erase` leaves a tombstone and nothing removes it. So a search for an
unknown number, which ends at an `Empty` bucket, never gets shorter. -/
namespace MarketDataBook
open LinearProbe

namespace StaticOrderMap
variable {capacity : Nat}

/-- The value of `num_elements_checked` with which `find` returns. -/
def numElementsChecked (m : StaticOrderMap capacity) (orderId : BitVec 64) : Nat :=
  passed (fun p => (m.map p).state = .empty)
    (fun p => (m.map p).orderId = orderId ∧ (m.map p).state = .occupied)
    capacity capacity (home capacity orderId)

def Used (m : StaticOrderMap capacity) (p : Nat) : Prop := (m.map p).state ≠ .empty

def KeepsUsed (m m' : StaticOrderMap capacity) : Prop := ∀ p, m.Used p → m'.Used p

variable {m m' : StaticOrderMap capacity} {orderId : BitVec 64}

theorem KeepsUsed.refl (m : StaticOrderMap capacity) : KeepsUsed m m := fun _ h => h

theorem KeepsUsed.trans {m'' : StaticOrderMap capacity} (h : KeepsUsed m m')
    (h' : KeepsUsed m' m'') : KeepsUsed m m'' := fun p hp => h' p (h p hp)

theorem keepsUsed_update {p : Nat} {b : Bucket} (hb : m.Used p → b.state ≠ .empty) :
    KeepsUsed m ⟨Function.update m.map p b⟩ := by
  intro q hq
  rw [Used]
  dsimp only
  rw [Function.update_apply]
  split_ifs with he
  · rw [he] at hq
    exact hb hq
  · exact hq

theorem setPoolIdx_keepsUsed (m : StaticOrderMap capacity) (p : Nat) (v : BitVec 32) :
    KeepsUsed m (m.setPoolIdx p v) :=
  keepsUsed_update fun h => h

theorem insert_keepsUsed (m : StaticOrderMap capacity) (orderId : BitVec 64) (v : BitVec 32) :
    KeepsUsed m (m.insert orderId v).1 := by
  rw [insert]
  split
  · exact keepsUsed_update fun _ => BucketState.noConfusion
  · exact KeepsUsed.refl m

theorem operatorIndex_keepsUsed (m : StaticOrderMap capacity) (orderId : BitVec 64) :
    KeepsUsed m (m.operatorIndex orderId).1 := by
  have hinsert := m.insert_keepsUsed orderId 0
  rw [operatorIndex]
  cases m.find orderId with
  | some p => exact KeepsUsed.refl m
  | none =>
    dsimp only
    split
    · next heq =>
      rw [heq] at hinsert
      exact hinsert
    · next heq =>
      rw [heq] at hinsert
      exact hinsert

theorem assign_keepsUsed (m : StaticOrderMap capacity) (orderId : BitVec 64) (v : BitVec 32) :
    KeepsUsed m (m.assign orderId v).1 := by
  have hindex := m.operatorIndex_keepsUsed orderId
  rw [assign]
  split
  · next heq =>
    rw [heq] at hindex
    exact hindex.trans (setPoolIdx_keepsUsed _ _ _)
  · next heq =>
    rw [heq] at hindex
    exact hindex

theorem erase_keepsUsed (m : StaticOrderMap capacity) (orderId : BitVec 64) :
    KeepsUsed m (m.erase orderId) := by
  rw [erase]
  split
  · exact keepsUsed_update fun _ => BucketState.noConfusion
  · exact KeepsUsed.refl m

/-- Searches for a number that neither table has. -/
theorem KeepsUsed.checked_le (h : KeepsUsed m m') (hm : m.find orderId = none)
    (hm' : m'.find orderId = none) :
    m.numElementsChecked orderId ≤ m'.numElementsChecked orderId := by
  refine passed_mono ?_ hm hm'
  intro p hp
  have hempty : (m'.map p).state = .empty := of_decide_eq_true hp
  by_contra hused
  exact h p (fun he => hused (decide_eq_true he)) hempty

/-- With every bucket used, a search for an unknown number looks at all of them. -/
theorem checked_eq_capacity (hc : 0 < capacity) (hused : ∀ p < capacity, m.Used p)
    (hm : m.find orderId = none) : m.numElementsChecked orderId = capacity :=
  passed_eq_left (fun p hp => decide_eq_false (hused p hp)) (home_lt hc orderId) hm

/-- An insertion leaves the home bucket of the number used, even when it finds no room. -/
theorem insert_home_used (hc : 0 < capacity) (m : StaticOrderMap capacity) (orderId : BitVec 64)
    (v : BitVec 32) : (m.insert orderId v).1.Used (home capacity orderId) := by
  by_cases hused : m.Used (home capacity orderId)
  · exact m.insert_keepsUsed orderId v _ hused
  · have hempty : (m.map (home capacity orderId)).state = .empty := not_not.mp hused
    have hprobe : probe (fun _ => false)
        (fun p => ¬ ((m.map p).state = .occupied ∧ (m.map p).orderId ≠ orderId))
        capacity capacity (home capacity orderId) = some (home capacity orderId) := by
      refine (probe_eq_some_iff (home_lt hc orderId)).mpr ⟨0, hc, ?_, ?_⟩
      · exact (cell_zero (home_lt hc orderId)).symm
      · exact (firstHit_zero (home_lt hc orderId)).mpr ⟨rfl, by simp [hempty]⟩
    rw [insert, hprobe, Used]
    simp

theorem assign_home_used (hc : 0 < capacity) (m : StaticOrderMap capacity) (orderId : BitVec 64)
    (v : BitVec 32) : (m.assign orderId v).1.Used (home capacity orderId) := by
  have hindex : (m.operatorIndex orderId).1.Used (home capacity orderId) := by
    have hinsert := m.insert_home_used hc orderId 0
    rw [operatorIndex]
    cases hf : m.find orderId with
    | some p =>
      -- a search that ends at a bucket does not stop at the home bucket
      intro hempty
      obtain ⟨j, -, -, hfirst⟩ := (probe_eq_some_iff (home_lt hc orderId)).mp hf
      have hpass := hfirst.passed 0 (Nat.zero_le j)
      rw [cell_zero (home_lt hc orderId)] at hpass
      exact of_decide_eq_false hpass hempty
    | none =>
      dsimp only
      split
      · next heq =>
        rw [heq] at hinsert
        exact hinsert
      · next heq =>
        rw [heq] at hinsert
        exact hinsert
  rw [assign]
  split
  · next heq =>
    rw [heq] at hindex
    exact setPoolIdx_keepsUsed _ _ _ _ hindex
  · next heq =>
    rw [heq] at hindex
    exact hindex

end StaticOrderMap

namespace LimitOrderBook
open StaticOrderMap

/-- The number a call enters into the order map: an add is ignored when its price is out of range
or the pool is exhausted. -/
def entered (b : LimitOrderBook) : BookCall → Option (BitVec 64)
  | .add order =>
    if maxTicks ≤ order.price.toNat ∨ b.nextFreeIndex = nullIndex then none
    else some order.orderReferenceNumber
  | .cancel _ => none
  | .execute _ => none

def enteredIds (b : LimitOrderBook) : List BookCall → List (BitVec 64)
  | [] => []
  | c::cs => (b.entered c).toList ++ (b.after c).enteredIds cs

theorem releaseOrderToPool_orders (side : Side) (b : LimitOrderBook) (x : BitVec 32) :
    ∃ id, (releaseOrderToPool side b x).orders = b.orders.erase id := by
  have hn := (updateNeighbours_frame b x).2.1
  have he : ((b.updateNeighbours x).executeUpdatePriceLevel side
      ((b.updateNeighbours x).pool x).price x).orders = b.orders :=
    (executeUpdatePriceLevel_frame _ _ _ _).2.1.trans hn
  rw [releaseOrderToPool]
  dsimp only [modifyOrder, modifyBitset]
  split_ifs
  · exact ⟨_, by rw [he]⟩
  · exact ⟨_, by rw [he]⟩

theorem addOrderImpl_orders (side : Side) (b : LimitOrderBook) (order : NormalizedAddOrder) :
    ∃ v, (addOrderImpl side b order).1.orders =
      (b.orders.assign order.orderReferenceNumber v).1 := by
  refine ⟨taggedIdx side ||| b.nextFreeIndex, ?_⟩
  rw [addOrderImpl]
  simp only [modifyOrder, Function.update_self]
  cases b.orders.assign order.orderReferenceNumber (taggedIdx side ||| b.nextFreeIndex) with
  | mk orders out =>
    cases out with
    | error what => rfl
    | ok u => exact (addUpdatePriceLevel_frame _ _ _ _).1

/-- A call keeps the used buckets, and the home bucket of a number it enters is used. -/
theorem after_used (b : LimitOrderBook) (c : BookCall) :
    KeepsUsed b.orders (b.after c).orders ∧
      ∀ id ∈ b.entered c, (b.after c).orders.Used (home orderMapSize id) := by
  have herase : ∀ (b' : LimitOrderBook) (side : Side) (x : BitVec 32), b'.orders = b.orders →
      KeepsUsed b.orders (releaseOrderToPool side b' x).orders := by
    intro b' side x hb
    obtain ⟨id, hid⟩ := releaseOrderToPool_orders side b' x
    rw [hid, hb]
    exact b.orders.erase_keepsUsed id
  cases c with
  | cancel id =>
    refine ⟨?_, by simp [entered]⟩
    rw [after, step, cancelOrder]
    cases b.orders.find id with
    | none => exact KeepsUsed.refl _
    | some p => exact herase b _ _ rfl
  | execute order =>
    refine ⟨?_, by simp [entered]⟩
    rw [after, step, executeOrder]
    cases b.orders.find order.orderReferenceNumber with
    | none => exact KeepsUsed.refl _
    | some p =>
      dsimp only
      split_ifs
      · exact KeepsUsed.refl _
      · exact herase _ _ _ rfl
      · exact KeepsUsed.refl _
  | add order =>
    have himpl : ∀ side, KeepsUsed b.orders (addOrderImpl side b order).1.orders ∧
        (addOrderImpl side b order).1.orders.Used
          (home orderMapSize order.orderReferenceNumber) := by
      intro side
      obtain ⟨v, hv⟩ := addOrderImpl_orders side b order
      rw [hv]
      exact ⟨b.orders.assign_keepsUsed _ v, b.orders.assign_home_used orderMapSize_pos _ v⟩
    by_cases hignored : maxTicks ≤ order.price.toNat ∨ b.nextFreeIndex = nullIndex
    · have hsame : b.after (.add order) = b := by
        rw [after, step, addOrder]
        split_ifs with hprice hpool
        · rfl
        · rfl
        · exact absurd hignored (not_or.mpr ⟨hprice, hpool⟩)
        · exact absurd hignored (not_or.mpr ⟨hprice, hpool⟩)
      rw [hsame, entered, if_pos hignored]
      exact ⟨KeepsUsed.refl _, by simp⟩
    · obtain ⟨hprice, hpool⟩ := not_or.mp hignored
      have hside : ∃ side, b.after (.add order) = (addOrderImpl side b order).1 := by
        rw [after, step, addOrder, if_neg hprice, if_neg hpool]
        split_ifs
        · exact ⟨.buy, rfl⟩
        · exact ⟨.sell, rfl⟩
      obtain ⟨side, hafter⟩ := hside
      obtain ⟨hkeeps, hused⟩ := himpl side
      rw [hafter, entered, if_neg hignored]
      refine ⟨hkeeps, ?_⟩
      rintro id ⟨⟩
      exact hused

theorem run_used (b : LimitOrderBook) (calls : List BookCall) :
    KeepsUsed b.orders (b.run calls).1.orders ∧
      ∀ id ∈ b.enteredIds calls, (b.run calls).1.orders.Used (home orderMapSize id) := by
  induction calls generalizing b with
  | nil => exact ⟨KeepsUsed.refl _, fun _ h => absurd h List.not_mem_nil⟩
  | cons c cs ih =>
    obtain ⟨hkeeps, hused⟩ := b.after_used c
    obtain ⟨hkeeps', hused'⟩ := ih (b.after c)
    refine ⟨hkeeps.trans hkeeps', ?_⟩
    intro id hid
    obtain hid | hid := List.mem_append.mp hid
    · exact hkeeps' _ (hused id (Option.mem_toList.mp hid))
    · exact hused' id hid

/-- No bucket becomes `Empty` again. A search for a number the book does not know never takes fewer
steps than before, and all `ORDER_MAP_SIZE` of them once the numbers entered have had every bucket
for their home. -/
structure WearsOut (b : LimitOrderBook) (calls : List BookCall) : Prop where
  used : StaticOrderMap.KeepsUsed b.orders (b.run calls).1.orders
  longer : ∀ id, b.orders.find id = none → (b.run calls).1.orders.find id = none →
    b.orders.numElementsChecked id ≤ (b.run calls).1.orders.numElementsChecked id
  wornOut : (∀ p < orderMapSize, ∃ id ∈ b.enteredIds calls, home orderMapSize id = p) →
    ∀ id, (b.run calls).1.orders.find id = none →
      (b.run calls).1.orders.numElementsChecked id = orderMapSize

/-- For every book and every run of calls. -/
theorem run_wearsOut (b : LimitOrderBook) (calls : List BookCall) : b.WearsOut calls := by
  obtain ⟨hkeeps, hused⟩ := b.run_used calls
  refine ⟨hkeeps, fun id h h' => hkeeps.checked_le h h', ?_⟩
  intro hall id hid
  refine checked_eq_capacity orderMapSize_pos ?_ hid
  intro p hp
  obtain ⟨id', hmem, rfl⟩ := hall p hp
  exact hused id' hmem

def addCancelCalls (orders : List NormalizedAddOrder) : List BookCall :=
  orders.flatMap fun order => [.add order, .cancel order.orderReferenceNumber]

section AddCancel
variable {maxOrders : Nat} {b : LimitOrderBook}

theorem Simulates.find_none (s : Simulates maxOrders b []) (id : BitVec 64) :
    b.orders.find id = none := by
  obtain ⟨free, live, h, -, hview⟩ := s
  have hlive : live = [] := List.map_eq_nil_iff.mp hview
  rw [find_eq_none_iff_get]
  cases hg : b.orders.get id with
  | none => rfl
  | some v =>
    have hmem := (h.target id v hg).1
    rw [hlive] at hmem
    exact absurd hmem List.not_mem_nil

/-- A book with room has a free slot. -/
theorem Simulates.nextFreeIndex_ne {ref : ReferenceBook} (s : Simulates maxOrders b ref)
    (hn : maxOrders ≤ 2^31) (hroom : ref.length < maxOrders) : b.nextFreeIndex ≠ nullIndex := by
  obtain ⟨free, live, h, -, rfl⟩ := s
  have hlen := h.length hn
  rw [view, List.length_map] at hroom
  cases free with
  | nil =>
    rw [List.length_nil] at hlen
    omega
  | cons x free =>
    rw [h.freeChain.1]
    exact h.freeChain.2.1

/-- Each of the numbers is entered, and the book is empty in the end. -/
theorem Simulates.addCancel (s : Simulates maxOrders b []) (h1 : 1 ≤ maxOrders)
    (hn : maxOrders ≤ orderMapSize) {orders : List NormalizedAddOrder}
    (hprice : ∀ order ∈ orders, order.price.toNat < maxTicks) :
    Simulates maxOrders (b.run (addCancelCalls orders)).1 [] ∧
      b.enteredIds (addCancelCalls orders) =
        orders.map NormalizedAddOrder.orderReferenceNumber := by
  have h31 : maxOrders ≤ 2^31 := hn.trans (by decide)
  induction orders generalizing b with
  | nil => exact ⟨s, rfl⟩
  | cons order orders ih =>
    have hp := hprice order List.mem_cons_self
    have hno : ¬ (maxTicks ≤ order.price.toNat ∨ maxOrders ≤ ([] : ReferenceBook).length) := by
      rw [List.length_nil]
      omega
    have hadd := (s.addOrder h31 (fun h => h.trans_le hn) order (by simp [ReferenceBook.Admits])).2
    rw [ReferenceBook.add, if_neg hno, List.nil_append] at hadd
    have hcancel := hadd.cancelOrder h31 order.orderReferenceNumber
    have hnone : ReferenceBook.cancel [order.resting] order.orderReferenceNumber = [] := by
      simp [ReferenceBook.cancel, NormalizedAddOrder.resting]
    rw [hnone] at hcancel
    obtain ⟨hrun, hids⟩ := ih hcancel fun o ho => hprice o (List.mem_cons_of_mem order ho)
    have hentered : b.entered (.add order) = some order.orderReferenceNumber := by
      rw [entered, if_neg (not_or.mpr ⟨by omega, s.nextFreeIndex_ne h31 h1⟩)]
    refine ⟨hrun, ?_⟩
    rw [List.map_cons, ← hids]
    simp only [addCancelCalls, List.flatMap_cons, List.cons_append, List.nil_append, enteredIds,
      hentered, Option.toList_some]
    rfl

end AddCancel

/-- As many orders as there are buckets, with one in the book at any time: the book is empty, and
a search for any number goes through the whole map. -/
theorem emptied_book_wornOut :
    let b := ((new 1).run (addCancelCalls ((List.range orderMapSize).map fun i =>
      .plain 66#8 (BitVec.ofNat 64 i) 5#32 3#32))).1
    (∀ id, b.orders.find id = none) ∧ ∀ id, b.orders.numElementsChecked id = orderMapSize := by
  have hsize : orderMapSize = 2^22 := by decide
  have hprice : ∀ order ∈ (List.range orderMapSize).map fun i =>
      NormalizedAddOrder.plain 66#8 (BitVec.ofNat 64 i) 5#32 3#32,
      order.price.toNat < maxTicks := by
    intro order ho
    obtain ⟨i, -, rfl⟩ := List.mem_map.mp ho
    have hfive : (5#32).toNat < maxTicks := by decide
    exact hfive
  obtain ⟨hs, hids⟩ := (Simulates.new (Nat.le_refl 1) (by decide)).addCancel (Nat.le_refl 1)
    (by decide) hprice
  refine ⟨hs.find_none, fun id => (run_wearsOut (new 1) _).wornOut ?_ id (hs.find_none id)⟩
  intro p hp
  rw [hids, List.map_map]
  refine ⟨BitVec.ofNat 64 p, List.mem_map.mpr ⟨p, List.mem_range.mpr hp, rfl⟩, ?_⟩
  rw [home, hsize, Nat.and_two_pow_sub_one_eq_mod, BitVec.toNat_ofNat]
  omega

end LimitOrderBook

end MarketDataBook
