import MarketDataBook.ReferenceBook
import Mathlib.Data.List.Nodup

/-! `MockOrderBook` of `tests/test_limit_order_book.cpp`, the simple book the random test holds the
real one against, with the standard containers it is made of. It mirrors the reference book. -/
namespace MarketDataBook

structure MockOrder where
  orderReferenceNumber : BitVec 64
  shares : BitVec 32
  price : BitVec 32
  side : Side

/-- `std::map<uint32_t, std::list<uint64_t>>`. -/
abbrev PriceLists := Std.TreeMap (BitVec 32) (List (BitVec 64))

structure MockOrderBook where
  bids : PriceLists
  asks : PriceLists
  orders : Std.HashMap (BitVec 64) MockOrder

namespace MockOrderBook

def new : MockOrderBook := ⟨∅, ∅, ∅⟩

def lists (b : MockOrderBook) : Side → PriceLists
  | .buy => b.bids
  | .sell => b.asks

def withLists (b : MockOrderBook) (lists : PriceLists) : Side → MockOrderBook
  | .buy => { b with bids := lists }
  | .sell => { b with asks := lists }

def addOrder (b : MockOrderBook) (order : MockOrder) : MockOrderBook :=
  let b := { b with orders := b.orders.insert order.orderReferenceNumber order }
  let priceList := (b.lists order.side)[order.price]?.getD []
  b.withLists ((b.lists order.side).insert order.price (priceList ++ [order.orderReferenceNumber]))
    order.side

def cancelOrder (b : MockOrderBook) (orderId : BitVec 64) : MockOrderBook :=
  match b.orders[orderId]? with
  | none => b
  | some order =>
    let priceList := ((b.lists order.side)[order.price]?.getD []).filter fun id => id ≠ orderId
    let lists :=
      if priceList = [] then (b.lists order.side).erase order.price
      else (b.lists order.side).insert order.price priceList
    let b := b.withLists lists order.side
    { b with orders := b.orders.erase orderId }

def executeOrder (b : MockOrderBook) (orderId : BitVec 64) (shares : BitVec 32) : MockOrderBook :=
  match b.orders[orderId]? with
  | none => b
  | some order =>
    let order := { order with shares := order.shares - shares }
    let b := { b with orders := b.orders.insert orderId order }
    if order.shares = 0#32 then b.cancelOrder orderId else b

def getBestBid (b : MockOrderBook) : Nat := (b.bids.maxKey?.map BitVec.toNat).getD npos
def getBestOffer (b : MockOrderBook) : Nat := (b.asks.minKey?.map BitVec.toNat).getD npos

/-- `orders_[id].shares`, which enters an order of zeros if there is none. -/
def getShares (b : MockOrderBook) (id : BitVec 64) : MockOrderBook × BitVec 32 :=
  match b.orders[id]? with
  | none => ({ b with orders := b.orders.insert id ⟨0, 0, 0, .buy⟩ }, 0#32)
  | some order => (b, order.shares)

end MockOrderBook

def Resting.mockOrder (r : Resting) : MockOrder := ⟨r.id, r.shares, r.price, r.side⟩

def ReferenceBook.ids (ref : ReferenceBook) (s : Side) (p : BitVec 32) : List (BitVec 64) :=
  (ref.filter fun r => r.side = s ∧ r.price = p).map Resting.id

/-- The simple book holds the orders of the reference book, and a list for each price at which there
are any. -/
structure MockOrderBook.Mirrors (b : MockOrderBook) (ref : ReferenceBook) : Prop where
  orders : ∀ id, b.orders[id]? = (ref.find? fun r => r.id = id).map Resting.mockOrder
  lists : ∀ s p, (b.lists s)[p]? = if ref.ids s p = [] then none else some (ref.ids s p)

namespace MockOrderBook
variable {b : MockOrderBook} {ref : ReferenceBook}

theorem getElem?_insert (lists : PriceLists) (p q : BitVec 32) (ids : List (BitVec 64)) :
    (lists.insert p ids)[q]? = if p = q then some ids else lists[q]? := by
  simp only [Std.TreeMap.getElem?_insert, Std.compare_eq_iff_eq]

theorem getElem?_erase (lists : PriceLists) (p q : BitVec 32) :
    (lists.erase p)[q]? = if p = q then none else lists[q]? := by
  simp only [Std.TreeMap.getElem?_erase, Std.compare_eq_iff_eq]

theorem lists_withLists (b : MockOrderBook) (lists : PriceLists) (s t : Side) :
    (b.withLists lists s).lists t = if s = t then lists else b.lists t := by
  cases s with
  | buy => cases t <;> rfl
  | sell => cases t <;> rfl

theorem lists_orders (b : MockOrderBook) (orders : Std.HashMap (BitVec 64) MockOrder) (s : Side) :
    MockOrderBook.lists { b with orders := orders } s = b.lists s := by
  cases s <;> rfl

theorem orders_withLists (b : MockOrderBook) (lists : PriceLists) (s : Side) :
    (b.withLists lists s).orders = b.orders := by
  cases s <;> rfl

theorem Mirrors.new : MockOrderBook.new.Mirrors [] where
  orders := fun _ => by simp [MockOrderBook.new]
  lists := by
    intro s p
    cases s <;> simp [MockOrderBook.new, MockOrderBook.lists, ReferenceBook.ids]

/-- A price list that may be missing reads as the reference numbers at the price. -/
theorem Mirrors.priceList (h : b.Mirrors ref) (s : Side) (p : BitVec 32) :
    (b.lists s)[p]?.getD [] = ref.ids s p := by
  rw [h.lists]
  split_ifs with hnil
  · rw [hnil]
    rfl
  · rfl

theorem ids_append (ref : ReferenceBook) (r : Resting) (s : Side) (p : BitVec 32) :
    ReferenceBook.ids (ref ++ [r]) s p =
      if r.side = s ∧ r.price = p then ref.ids s p ++ [r.id] else ref.ids s p := by
  rw [ReferenceBook.ids, List.filter_append, List.map_append, ← ReferenceBook.ids]
  split_ifs with h
  · simp [h]
  · simp [h]

theorem Mirrors.addOrder (h : b.Mirrors ref) {r : Resting} (hfresh : ∀ q ∈ ref, q.id ≠ r.id) :
    (b.addOrder r.mockOrder).Mirrors (ref ++ [r]) where
  orders := by
    intro id
    have hnone : ref.find? (fun q => q.id = r.id) = none := by
      rw [List.find?_eq_none]
      intro q hq
      simpa using hfresh q hq
    rw [MockOrderBook.addOrder, orders_withLists, Std.HashMap.getElem?_insert, h.orders,
      List.find?_append]
    by_cases hid : r.id = id
    · subst hid
      simp [Resting.mockOrder, hnone]
    · simp [Resting.mockOrder, hid]
  lists := by
    intro s p
    rw [MockOrderBook.addOrder, lists_withLists, ids_append]
    simp only [lists_orders, Resting.mockOrder]
    by_cases hs : r.side = s
    · subst hs
      rw [if_pos rfl, getElem?_insert, h.priceList]
      by_cases hp : r.price = p
      · subst hp
        simp
      · simp [hp, h.lists]
    · simp [hs, h.lists]

theorem ids_cancel (ref : ReferenceBook) (orderId : BitVec 64) (s : Side) (p : BitVec 32) :
    (ref.cancel orderId).ids s p = (ref.ids s p).filter fun id => id ≠ orderId := by
  rw [ReferenceBook.ids, ReferenceBook.ids, ReferenceBook.cancel, List.filter_map,
    List.filter_filter, List.filter_filter]
  congr 1
  apply List.filter_congr
  intro r _
  simp [Bool.and_comm]

theorem find?_cancel (ref : ReferenceBook) (orderId id : BitVec 64) :
    (ref.cancel orderId).find? (fun r => r.id = id) =
      if orderId = id then none else ref.find? fun r => r.id = id := by
  rw [ReferenceBook.cancel]
  induction ref with
  | nil => simp
  | cons r rs ih =>
    rw [List.filter_cons]
    by_cases hr : r.id = orderId
    · simp only [hr, ne_eq, not_true_eq_false, decide_false, Bool.false_eq_true, if_false, ih,
        List.find?_cons]
      by_cases hid : orderId = id
      · simp [hid]
      · simp [hid]
    · simp only [hr, ne_eq, not_false_eq_true, decide_true, if_true, List.find?_cons, ih]
      by_cases hid : orderId = id
      · simp [hid ▸ hr, hid]
      · simp [hid]

/-- With every reference number used once, an order is in the list of its own price only. -/
theorem not_mem_ids {r : Resting} (hr : r ∈ ref) (hn : (ref.map Resting.id).Nodup) {s : Side}
    {p : BitVec 32} (hne : ¬ (r.side = s ∧ r.price = p)) : r.id ∉ ref.ids s p := by
  intro hmem
  obtain ⟨q, hq, hid⟩ := List.mem_map.mp hmem
  obtain ⟨hq, hside⟩ := List.mem_filter.mp hq
  have heq : q = r := List.inj_on_of_nodup_map hn hq hr hid
  rw [heq, decide_eq_true_eq] at hside
  exact hne hside

theorem filter_of_not_mem {l : List (BitVec 64)} {id : BitVec 64} (h : id ∉ l) :
    (l.filter fun x => x ≠ id) = l := by
  rw [List.filter_eq_self]
  intro x hx
  exact decide_eq_true fun he => h (he ▸ hx)

theorem Mirrors.cancelOrder (h : b.Mirrors ref) (hn : (ref.map Resting.id).Nodup)
    {orderId : BitVec 64} {r : Resting} (hr : ref.find? (fun q => q.id = orderId) = some r) :
    (b.cancelOrder orderId).Mirrors (ref.cancel orderId) := by
  have hmem : r ∈ ref := List.mem_of_find?_eq_some hr
  have hid : r.id = orderId := by simpa using List.find?_some hr
  have hlist : ((b.lists r.side)[r.price]?.getD []).filter (fun id => id ≠ orderId) =
      (ref.cancel orderId).ids r.side r.price := by rw [h.priceList, ids_cancel]
  have horder : b.orders[orderId]? = some r.mockOrder := by rw [h.orders, hr]; rfl
  have hcancel : b.cancelOrder orderId =
      { b.withLists (if (ref.cancel orderId).ids r.side r.price = [] then
          (b.lists r.side).erase r.price
        else (b.lists r.side).insert r.price ((ref.cancel orderId).ids r.side r.price)) r.side with
        orders := b.orders.erase orderId } := by
    rw [MockOrderBook.cancelOrder, horder, ← hlist, ← orders_withLists b _ r.side]
    rfl
  rw [hcancel]
  constructor
  · intro id
    rw [Std.HashMap.getElem?_erase, find?_cancel, h.orders]
    by_cases he : orderId = id
    · simp [he]
    · simp [he]
  · intro s p
    rw [lists_orders, lists_withLists]
    by_cases hs : r.side = s ∧ r.price = p
    · obtain ⟨rfl, rfl⟩ := hs
      rw [if_pos rfl]
      split_ifs
      · rw [getElem?_erase, if_pos rfl]
      · rw [getElem?_insert, if_pos rfl]
    · have hsame : (ref.cancel orderId).ids s p = ref.ids s p := by
        rw [ids_cancel, ← hid]
        exact filter_of_not_mem (not_mem_ids hmem hn hs)
      rw [hsame, ← h.lists]
      by_cases hside : r.side = s
      · subst hside
        have hp : r.price ≠ p := fun hp => hs ⟨rfl, hp⟩
        rw [if_pos rfl]
        split_ifs
        · rw [getElem?_erase, if_neg hp]
        · rw [getElem?_insert, if_neg hp]
      · rw [if_neg hside]

theorem ids_reduce (ref : ReferenceBook) (orderId : BitVec 64) (shares : BitVec 32) (s : Side)
    (p : BitVec 32) : (ref.reduce orderId shares).ids s p = ref.ids s p := by
  have hkeep : ∀ e : BitVec 64 × BitVec 32,
      (if e.1 = orderId then (e.1, e.2 - shares) else e).1 = e.1 := by
    intro e
    split_ifs <;> rfl
  have hids : ∀ ref : ReferenceBook, ref.ids s p = (ref.queue s p).map Prod.fst := by
    intro ref
    rw [ReferenceBook.ids, ReferenceBook.queue, List.map_map]
    rfl
  rw [hids, hids, ReferenceBook.queue_reduce, List.map_map]
  exact List.map_congr_left fun e _ => hkeep e

theorem find?_reduce (ref : ReferenceBook) (orderId id : BitVec 64) (shares : BitVec 32) :
    (ref.reduce orderId shares).find? (fun r => r.id = id) =
      (ref.find? fun r => r.id = id).map fun r =>
        if r.id = orderId then { r with shares := r.shares - shares } else r := by
  rw [ReferenceBook.reduce, List.find?_map]
  congr 2
  funext r
  simp only [Function.comp_apply]
  split_ifs <;> rfl

theorem map_id_reduce (ref : ReferenceBook) (orderId : BitVec 64) (shares : BitVec 32) :
    (ref.reduce orderId shares).map Resting.id = ref.map Resting.id := by
  rw [ReferenceBook.reduce, List.map_map]
  apply List.map_congr_left
  intro r _
  simp only [Function.comp_apply]
  split_ifs <;> rfl

/-- A part of an order is executed. -/
theorem Mirrors.reduce (h : b.Mirrors ref) {orderId : BitVec 64} {r : Resting}
    (hr : ref.find? (fun q => q.id = orderId) = some r) (shares : BitVec 32) :
    Mirrors { b with orders := b.orders.insert orderId ⟨r.id, r.shares - shares, r.price, r.side⟩ }
      (ref.reduce orderId shares) where
  orders := by
    intro id
    have hid : r.id = orderId := by simpa using List.find?_some hr
    rw [Std.HashMap.getElem?_insert, find?_reduce, h.orders]
    by_cases he : orderId = id
    · subst he
      simp [hr, hid, Resting.mockOrder]
    · cases hf : ref.find? (fun q => q.id = id) with
      | none => simp [he]
      | some q =>
        have hq : q.id = id := by simpa using List.find?_some hf
        have hne : ¬ id = orderId := fun h => he h.symm
        simp [he, hq, hne]
  lists := by
    intro s p
    rw [lists_orders, ids_reduce]
    exact h.lists s p

theorem Mirrors.executeOrder (h : b.Mirrors ref) (hn : (ref.map Resting.id).Nodup)
    (order : NormalizedOrderExecuted) {r : Resting}
    (hr : ref.find? (fun q => q.id = order.orderReferenceNumber) = some r)
    (hle : order.shares ≤ r.shares) :
    (b.executeOrder order.orderReferenceNumber order.shares).Mirrors (ref.execute order).1 := by
  have horder : b.orders[order.orderReferenceNumber]? = some r.mockOrder := by
    rw [h.orders, hr]
    rfl
  have hreduce := h.reduce hr order.shares
  have hnodup : ((ref.reduce order.orderReferenceNumber order.shares).map Resting.id).Nodup := by
    rw [map_id_reduce]
    exact hn
  obtain ⟨r', hfind⟩ : ∃ r', (ref.reduce order.orderReferenceNumber order.shares).find?
      (fun q => q.id = order.orderReferenceNumber) = some r' := by
    rw [find?_reduce, hr]
    exact ⟨_, rfl⟩
  have hzero : r.shares - order.shares = 0#32 ↔ r.shares = order.shares := by
    rw [BitVec.sub_eq_iff_eq_add, BitVec.zero_add]
  rw [MockOrderBook.executeOrder, horder, ReferenceBook.execute, hr]
  dsimp only [Resting.mockOrder]
  rw [if_neg (BitVec.not_lt.mpr hle)]
  by_cases heq : r.shares = order.shares
  · rw [if_pos (hzero.mpr heq), if_pos heq, ← ReferenceBook.cancel_reduce ref _ order.shares]
    exact hreduce.cancelOrder hnodup hfind
  · rw [if_neg (mt hzero.mp heq), if_neg heq]
    exact hreduce

/-- A price has a list exactly if an order rests there. -/
theorem Mirrors.mem_lists (h : b.Mirrors ref) (s : Side) (p : BitVec 32) :
    p ∈ b.lists s ↔ p.toNat ∈ ref.prices s := by
  have hprice : p.toNat ∈ ref.prices s ↔ ref.ids s p ≠ [] := by
    rw [ReferenceBook.prices, ReferenceBook.ids, ne_eq, List.map_eq_nil_iff, List.filter_eq_nil_iff]
    simp [BitVec.toNat_inj, and_assoc]
  rw [hprice, Std.TreeMap.mem_iff_isSome_getElem?, h.lists]
  split_ifs with hnil
  · simp [hnil]
  · simp [hnil]

theorem exists_of_mem_prices {s : Side} {t : Nat} (h : t ∈ ref.prices s) :
    ∃ p : BitVec 32, p.toNat = t := by
  obtain ⟨r, -, hr⟩ := List.mem_map.mp h
  exact ⟨r.price, hr⟩

theorem isLE_compare {p q : BitVec 32} (h : p.toNat ≤ q.toNat) : (compare p q).isLE = true := by
  simp only [compare, compareOfLessAndEq]
  split_ifs with hlt heq
  · rfl
  · rfl
  · rw [BitVec.lt_def] at hlt
    exact absurd (BitVec.eq_of_toNat_eq (by omega)) heq

theorem Mirrors.getBestBid (h : b.Mirrors ref) : b.getBestBid = ref.bestBid := by
  rw [MockOrderBook.getBestBid, ReferenceBook.bestBid]
  congr 1
  cases hmax : (ref.prices .buy).max? with
  | none =>
    cases hkey : b.bids.maxKey? with
    | none => rfl
    | some p =>
      have hp := (h.mem_lists .buy p).mp (Std.TreeMap.maxKey?_eq_some_iff_mem_and_forall.mp hkey).1
      rw [List.max?_eq_none_iff.mp hmax] at hp
      cases hp
  | some t =>
    obtain ⟨hmem, hle⟩ := List.max?_eq_some_iff.mp hmax
    obtain ⟨p, rfl⟩ := exists_of_mem_prices hmem
    have hkey : b.bids.maxKey? = some p := by
      rw [Std.TreeMap.maxKey?_eq_some_iff_mem_and_forall]
      refine ⟨(h.mem_lists .buy p).mpr hmem, ?_⟩
      intro q hq
      exact isLE_compare (hle q.toNat ((h.mem_lists .buy q).mp hq))
    rw [hkey]
    rfl

theorem Mirrors.getBestOffer (h : b.Mirrors ref) : b.getBestOffer = ref.bestOffer := by
  rw [MockOrderBook.getBestOffer, ReferenceBook.bestOffer]
  congr 1
  cases hmin : (ref.prices .sell).min? with
  | none =>
    cases hkey : b.asks.minKey? with
    | none => rfl
    | some p =>
      have hp := (h.mem_lists .sell p).mp (Std.TreeMap.minKey?_eq_some_iff_mem_and_forall.mp hkey).1
      rw [List.min?_eq_none_iff.mp hmin] at hp
      cases hp
  | some t =>
    obtain ⟨hmem, hle⟩ := List.min?_eq_some_iff.mp hmin
    obtain ⟨p, rfl⟩ := exists_of_mem_prices hmem
    have hkey : b.asks.minKey? = some p := by
      rw [Std.TreeMap.minKey?_eq_some_iff_mem_and_forall]
      refine ⟨(h.mem_lists .sell p).mpr hmem, ?_⟩
      intro q hq
      exact isLE_compare (hle q.toNat ((h.mem_lists .sell q).mp hq))
    rw [hkey]
    rfl

end MockOrderBook
end MarketDataBook
