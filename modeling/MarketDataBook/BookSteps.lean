import MarketDataBook.LimitOrderBook

/-! What one call does to the book, field by field. The invariants of the later modules
are derived from these facts and never unfold the calls again. -/
namespace MarketDataBook.LimitOrderBook

theorem getLsbD_sideMask (j : Nat) : sideMask.getLsbD j = decide (j = 31) := by
  have h : sideMask = BitVec.twoPow 32 31 := rfl
  rw [h, BitVec.getLsbD_twoPow, Bool.eq_iff_iff]
  simp only [Bool.and_eq_true, decide_eq_true_eq]
  omega

theorem getLsbD_taggedIdx (side : Side) (j : Nat) :
    (taggedIdx side).getLsbD j = decide (side = .sell ∧ j = 31) := by
  cases side with
  | buy => simp [taggedIdx]
  | sell =>
    have h : taggedIdx .sell = sideMask := rfl
    rw [h, getLsbD_sideMask]
    simp

theorem taggedIdx_and_indexMask (side : Side) {i : BitVec 32} (hi : i.toNat < 2^31) :
    (taggedIdx side ||| i) &&& indexMask = i := by
  apply BitVec.eq_of_getLsbD_eq
  intro j hj
  rw [BitVec.getLsbD_and, BitVec.getLsbD_or, indexMask, BitVec.getLsbD_not, getLsbD_sideMask,
    getLsbD_taggedIdx]
  by_cases hj31 : j = 31
  · have h31 : i.getLsbD 31 = false := Nat.testBit_lt_two_pow hi
    rw [hj31, h31]
    simp
  · simp [hj31, hj]

theorem taggedIdx_and_sideMask (side : Side) {i : BitVec 32} (hi : i.toNat < 2^31) :
    (taggedIdx side ||| i) &&& sideMask = taggedIdx side := by
  apply BitVec.eq_of_getLsbD_eq
  intro j _
  rw [BitVec.getLsbD_and, BitVec.getLsbD_or, getLsbD_sideMask, getLsbD_taggedIdx]
  by_cases hj31 : j = 31
  · have h31 : i.getLsbD 31 = false := Nat.testBit_lt_two_pow hi
    rw [hj31, h31]
    simp
  · simp [hj31]

theorem taggedSide_taggedIdx (side : Side) {i : BitVec 32} (hi : i.toNat < 2^31) :
    taggedSide (taggedIdx side ||| i) = side := by
  rw [taggedSide, taggedIdx_and_sideMask side hi]
  cases side <;> decide

section Fields
variable (b : LimitOrderBook) (side s : Side) (price p x y : BitVec 32)

theorem modifyLevel_levels (f : PriceLevel → PriceLevel) : (b.modifyLevel side price f).levels s p =
    if s = side ∧ p = price then f (b.levels side price) else b.levels s p := by
  by_cases hs : s = side
  · subst hs
    by_cases hp : p = price
    · subst hp
      simp [modifyLevel]
    · simp [modifyLevel, hp]
  · simp [modifyLevel, hs]

theorem modifyOrder_pool (f : Order → Order) : (b.modifyOrder x f).pool y =
    if y = x then f (b.pool x) else b.pool y := by
  simp [modifyOrder, Function.update_apply]

theorem modifyBitset_bitset (f : HierarchicalBitset maxTicks → HierarchicalBitset maxTicks) :
    (b.modifyBitset side f).bitset s = if s = side then f (b.bitset s) else b.bitset s := by
  simp only [modifyBitset, Function.update_apply]
  split_ifs with hs
  · rw [hs]
  · rfl

/-- A change of one share count leaves every other member of every order. -/
theorem setShares_pool (n : BitVec 32) :
    ∃ n', (b.modifyOrder x fun o => { o with shares := o.shares - n }).pool y =
      { b.pool y with shares := n' } := by
  rw [modifyOrder_pool]
  split_ifs with hy
  · exact ⟨_, by rw [hy]⟩
  · exact ⟨_, rfl⟩

@[simp] theorem modifyOrder_levels (f : Order → Order) :
    (b.modifyOrder x f).levels = b.levels := rfl

@[simp] theorem modifyLevel_pool (f : PriceLevel → PriceLevel) :
    (b.modifyLevel side price f).pool = b.pool := rfl

theorem addUpdatePriceLevel_pool (hx : (b.levels side price).tail ≠ x) :
    (b.addUpdatePriceLevel side price x).pool y =
      if y = x then { b.pool x with prev := (b.levels side price).tail, next := nullIndex }
      else if y = (b.levels side price).tail ∧ y ≠ nullIndex then { b.pool y with next := x }
      else b.pool y := by
  by_cases hh : (b.levels side price).head = nullIndex <;>
    by_cases ht : (b.levels side price).tail = nullIndex <;>
    by_cases hy : y = x <;>
    by_cases hyt : y = (b.levels side price).tail <;>
    simp_all [addUpdatePriceLevel, modifyLevel_levels, modifyOrder_pool]

theorem addUpdatePriceLevel_levels : (b.addUpdatePriceLevel side price x).levels s p =
    if s = side ∧ p = price then
      ⟨if (b.levels side price).head = nullIndex then x else (b.levels side price).head, x⟩
    else b.levels s p := by
  by_cases hh : (b.levels side price).head = nullIndex <;>
    by_cases ht : (b.levels side price).tail = nullIndex <;>
    by_cases hsp : s = side ∧ p = price <;>
    simp [addUpdatePriceLevel, modifyLevel_levels, hh, ht, hsp]

theorem addUpdatePriceLevel_frame : (b.addUpdatePriceLevel side price x).orders = b.orders ∧
    (b.addUpdatePriceLevel side price x).bitset = b.bitset ∧
    (b.addUpdatePriceLevel side price x).nextFreeIndex = b.nextFreeIndex := by
  unfold addUpdatePriceLevel
  dsimp only
  split_ifs <;> exact ⟨rfl, rfl, rfl⟩

theorem executeUpdatePriceLevel_levels : (b.executeUpdatePriceLevel side price x).levels s p =
    if s = side ∧ p = price then
      ⟨if (b.levels side price).head = x then (b.pool x).next else (b.levels side price).head,
        if (b.levels side price).tail = x then (b.pool x).prev else (b.levels side price).tail⟩
    else b.levels s p := by
  by_cases hh : (b.levels side price).head = x <;>
    by_cases ht : (b.levels side price).tail = x <;>
    by_cases hsp : s = side ∧ p = price <;>
    simp [executeUpdatePriceLevel, modifyLevel_levels, hh, ht, hsp]

theorem executeUpdatePriceLevel_frame : (b.executeUpdatePriceLevel side price x).pool = b.pool ∧
    (b.executeUpdatePriceLevel side price x).orders = b.orders ∧
    (b.executeUpdatePriceLevel side price x).bitset = b.bitset ∧
    (b.executeUpdatePriceLevel side price x).nextFreeIndex = b.nextFreeIndex := by
  unfold executeUpdatePriceLevel
  dsimp only
  split_ifs <;> exact ⟨rfl, rfl, rfl, rfl⟩

end Fields

structure Added (side : Side) (order : NormalizedAddOrder) (b b' : LimitOrderBook) : Prop where
  free : b'.nextFreeIndex = (b.pool b.nextFreeIndex).next
  fresh : b'.pool b.nextFreeIndex = ⟨order.orderReferenceNumber, order.shares, order.price,
    nullIndex, (b.levels side order.price).tail⟩
  pool : ∀ y, y ≠ b.nextFreeIndex → b'.pool y =
    if y = (b.levels side order.price).tail ∧ y ≠ nullIndex
      then { b.pool y with next := b.nextFreeIndex } else b.pool y
  levels : ∀ s p, b'.levels s p =
    if s = side ∧ p = order.price then
      ⟨if (b.levels s p).head = nullIndex then b.nextFreeIndex else (b.levels s p).head,
        b.nextFreeIndex⟩
    else b.levels s p
  bitset : ∀ s, b'.bitset s =
    if s = side then (b.bitset s).setPriceLevel order.price.toNat else b.bitset s

theorem addOrderImpl_added (b : LimitOrderBook) (side : Side) (order : NormalizedAddOrder)
    {orders : StaticOrderMap orderMapSize}
    (ha : b.orders.assign order.orderReferenceNumber (taggedIdx side ||| b.nextFreeIndex) =
      (orders, .ok ()))
    (ht : (b.levels side order.price).tail ≠ b.nextFreeIndex) :
    ∃ b', addOrderImpl side b order = (b', .returned) ∧ b'.orders = orders ∧
      Added side order b b' := by
  let c : LimitOrderBook := { (({ b with nextFreeIndex := (b.pool b.nextFreeIndex).next } :
      LimitOrderBook).modifyOrder b.nextFreeIndex fun o =>
        { o with orderReferenceNumber := order.orderReferenceNumber
                 price := order.price
                 shares := order.shares }) with orders := orders }
  have hcx : c.pool b.nextFreeIndex = { b.pool b.nextFreeIndex with
      orderReferenceNumber := order.orderReferenceNumber
      price := order.price
      shares := order.shares } := by
    simp [c, modifyOrder_pool]
  have hcy : ∀ y, y ≠ b.nextFreeIndex → c.pool y = b.pool y := by
    intro y hy
    simp [c, modifyOrder_pool, hy]
  have himpl : addOrderImpl side b order =
      ((c.addUpdatePriceLevel side order.price b.nextFreeIndex).modifyBitset side
        (·.setPriceLevel order.price.toNat), .returned) := by
    simp only [addOrderImpl, modifyOrder, Function.update_self, ha]
    rfl
  obtain ⟨ho, hb, hf⟩ := addUpdatePriceLevel_frame c side order.price b.nextFreeIndex
  refine ⟨_, himpl, ho, hf, ?_, ?_, ?_, ?_⟩
  · have h := addUpdatePriceLevel_pool c side order.price b.nextFreeIndex b.nextFreeIndex ht
    rw [if_pos rfl, hcx] at h
    exact h
  · intro y hy
    have h := addUpdatePriceLevel_pool c side order.price b.nextFreeIndex y ht
    rw [if_neg hy, hcy y hy] at h
    exact h
  · intro s p
    have h := addUpdatePriceLevel_levels c side s order.price p b.nextFreeIndex
    by_cases hsp : s = side ∧ p = order.price
    · rw [if_pos hsp] at h ⊢
      obtain ⟨rfl, rfl⟩ := hsp
      exact h
    · rw [if_neg hsp] at h ⊢
      exact h
  · intro s
    rw [modifyBitset_bitset, hb]
    rfl

structure Released (side : Side) (x : BitVec 32) (b b' : LimitOrderBook) : Prop where
  free : b'.nextFreeIndex = x
  self : b'.pool x = { b.pool x with next := b.nextFreeIndex }
  pool : ∀ y, y ≠ x → b'.pool y = { b.pool y with
    next := if y = (b.pool x).prev ∧ y ≠ nullIndex then (b.pool x).next else (b.pool y).next
    prev := if y = (b.pool x).next ∧ y ≠ nullIndex then (b.pool x).prev else (b.pool y).prev }
  levels : ∀ s p, b'.levels s p =
    if s = side ∧ p = (b.pool x).price then
      ⟨if (b.levels s p).head = x then (b.pool x).next else (b.levels s p).head,
        if (b.levels s p).tail = x then (b.pool x).prev else (b.levels s p).tail⟩
    else b.levels s p
  bitset : ∀ s, b'.bitset s =
    if s = side ∧ (b'.levels side (b.pool x).price).head = nullIndex
      then (b.bitset s).clearPriceLevel (b.pool x).price.toNat else b.bitset s
  orders : b'.orders = b.orders.erase (b.pool x).orderReferenceNumber

theorem updateNeighbours_pool (b : LimitOrderBook) {x : BitVec 32} (hp : (b.pool x).prev ≠ x)
    (hn : (b.pool x).next ≠ x) (y : BitVec 32) :
    (b.updateNeighbours x).pool y = { b.pool y with
      next := if y = (b.pool x).prev ∧ y ≠ nullIndex then (b.pool x).next else (b.pool y).next
      prev := if y = (b.pool x).next ∧ y ≠ nullIndex then (b.pool x).prev else (b.pool y).prev } := by
  have hxp : ¬ x = (b.pool x).prev := fun h => hp h.symm
  have hxn : ¬ x = (b.pool x).next := fun h => hn h.symm
  by_cases hpn : (b.pool x).prev = nullIndex <;>
    by_cases hnn : (b.pool x).next = nullIndex <;>
    by_cases hyp : y = (b.pool x).prev <;>
    by_cases hyn : y = (b.pool x).next <;>
    simp_all [updateNeighbours, modifyOrder_pool]

theorem updateNeighbours_frame (b : LimitOrderBook) (x : BitVec 32) :
    (b.updateNeighbours x).levels = b.levels ∧ (b.updateNeighbours x).orders = b.orders ∧
    (b.updateNeighbours x).bitset = b.bitset ∧
    (b.updateNeighbours x).nextFreeIndex = b.nextFreeIndex := by
  unfold updateNeighbours
  dsimp only
  split_ifs <;> exact ⟨rfl, rfl, rfl, rfl⟩

theorem releaseOrderToPool_released (b : LimitOrderBook) (side : Side) {x : BitVec 32}
    (hp : (b.pool x).prev ≠ x) (hn : (b.pool x).next ≠ x) :
    Released side x b (releaseOrderToPool side b x) := by
  obtain ⟨hcl, hco, hcb, hcf⟩ := updateNeighbours_frame b x
  have hc := updateNeighbours_pool b hp hn
  have hcx : (b.updateNeighbours x).pool x = b.pool x := by
    have hxp : ¬ x = (b.pool x).prev := fun h => hp h.symm
    have hxn : ¬ x = (b.pool x).next := fun h => hn h.symm
    simp [hc x, hxp, hxn]
  obtain ⟨hdp, hdo, hdb, hdf⟩ :=
    executeUpdatePriceLevel_frame (b.updateNeighbours x) side (b.pool x).price x
  have hdl := fun s p =>
    executeUpdatePriceLevel_levels (b.updateNeighbours x) side s (b.pool x).price p x
  have hclear : Function.update b.bitset side
      ((b.bitset side).clearPriceLevel (b.pool x).price.toNat) = fun s =>
      if s = side then (b.bitset s).clearPriceLevel (b.pool x).price.toNat else b.bitset s :=
    funext fun s => modifyBitset_bitset b side s (·.clearPriceLevel (b.pool x).price.toNat)
  have hrel : releaseOrderToPool side b x =
      { ((b.updateNeighbours x).executeUpdatePriceLevel side (b.pool x).price x) with
        pool := Function.update (b.updateNeighbours x).pool x
          { b.pool x with next := b.nextFreeIndex }
        orders := b.orders.erase (b.pool x).orderReferenceNumber
        nextFreeIndex := x
        bitset := fun s => if s = side ∧ (((b.updateNeighbours x).executeUpdatePriceLevel side
            (b.pool x).price x).levels side (b.pool x).price).head = nullIndex
          then (b.bitset s).clearPriceLevel (b.pool x).price.toNat else b.bitset s } := by
    simp only [releaseOrderToPool, hcx]
    split_ifs with hh
    · simp only [modifyBitset, modifyOrder, hdp, hdo, hdb, hdf, hco, hcb, hcf, hcx, hh, and_true,
        hclear]
    · simp only [modifyOrder, hdp, hdo, hdb, hdf, hco, hcb, hcf, hcx, hh, and_false, if_false]
  rw [hrel]
  refine ⟨rfl, by simp, ?_, ?_, fun _ => rfl, rfl⟩
  · intro y hy
    simp only [Function.update_of_ne hy, hc y]
  · intro s p
    simp only [hdl s p, hcl, hcx]
    by_cases hsp : s = side ∧ p = (b.pool x).price
    · rw [if_pos hsp, if_pos hsp, hsp.1, hsp.2]
    · rw [if_neg hsp, if_neg hsp]

end MarketDataBook.LimitOrderBook
