import MarketDataBook.BookCalls
import MarketDataBook.ReferenceBook

/-! The book refines the reference book. A laid out book is read back as the list of its
linked slots; while no linked slot is orphaned, every call acts on that list as the
reference call does. -/
namespace MarketDataBook.LimitOrderBook
open IndexChain

def resting (b : LimitOrderBook) (x : Side × BitVec 32) : Resting :=
  ⟨x.1, (b.pool x.2).price, (b.pool x.2).orderReferenceNumber, (b.pool x.2).shares⟩

def view (b : LimitOrderBook) (live : List (Side × BitVec 32)) : ReferenceBook :=
  live.map b.resting

def NoOrphan (b : LimitOrderBook) (live : List (Side × BitVec 32)) : Prop :=
  ∀ x ∈ live, ∃ v, b.orders.get (b.pool x.2).orderReferenceNumber = some v ∧
    v &&& indexMask = x.2

theorem find?_eq_of_unique {α : Type*} {l : List α} {p : α → Bool} {y : α} (hy : y ∈ l)
    (hp : p y = true) (hu : ∀ z ∈ l, p z = true → z = y) : l.find? p = some y := by
  cases hf : l.find? p with
  | none => exact absurd hp (List.find?_eq_none.mp hf y hy)
  | some z => rw [hu z (List.mem_of_find?_eq_some hf) (List.find?_some hf)]

section Facts
variable {maxOrders : Nat} {b b' : LimitOrderBook} {free : List (BitVec 32)}
  {live : List (Side × BitVec 32)}

theorem Layout.slot_injective (h : Layout maxOrders b free live) {x y : Side × BitVec 32}
    (hx : x ∈ live) (hy : y ∈ live) (he : x.2 = y.2) : x = y :=
  List.inj_on_of_nodup_map h.live_nodup hx hy he

/-- Without orphans a linked slot is determined by its reference number. -/
theorem NoOrphan.slot_of_id (o : NoOrphan b live) (h : Layout maxOrders b free live)
    {x : Side × BitVec 32} {v : BitVec 32} (hx : x ∈ live)
    (hg : b.orders.get (b.pool x.2).orderReferenceNumber = some v) :
    x = (taggedSide v, v &&& indexMask) := by
  obtain ⟨w, hw, hm⟩ := o x hx
  rw [hg] at hw
  cases hw
  exact h.slot_injective hx (h.target _ v hg).1 hm.symm

theorem NoOrphan.not_mem_view (o : NoOrphan b live) {id : BitVec 64}
    (hg : b.orders.get id = none) : ∀ r ∈ b.view live, r.id ≠ id := by
  intro r hr he
  obtain ⟨x, hx, rfl⟩ := List.mem_map.mp hr
  obtain ⟨v, hv, -⟩ := o x hx
  have hid : (b.pool x.2).orderReferenceNumber = id := he
  rw [hid, hg] at hv
  cases hv

theorem Layout.mem_view (h : Layout maxOrders b free live) {id : BitVec 64} {v : BitVec 32}
    (hg : b.orders.get id = some v) :
    b.resting (taggedSide v, v &&& indexMask) ∈ b.view live ∧
      (b.resting (taggedSide v, v &&& indexMask)).id = id :=
  ⟨List.mem_map_of_mem (h.target id v hg).1, (h.target id v hg).2⟩

theorem NoOrphan.find_view (o : NoOrphan b live) (h : Layout maxOrders b free live)
    {id : BitVec 64} {v : BitVec 32} (hg : b.orders.get id = some v) :
    (b.view live).find? (fun r => r.id = id) =
      some (b.resting (taggedSide v, v &&& indexMask)) := by
  obtain ⟨hm, hid⟩ := h.mem_view hg
  apply find?_eq_of_unique hm (by simpa using hid)
  intro r hr he
  obtain ⟨x, hx, rfl⟩ := List.mem_map.mp hr
  have hxid : (b.pool x.2).orderReferenceNumber = id := of_decide_eq_true he
  rw [o.slot_of_id h hx (hxid ▸ hg)]

theorem view_congr (hr : ∀ x ∈ live, b'.resting x = b.resting x) : b'.view live = b.view live :=
  List.map_congr_left hr

theorem queue_view (b : LimitOrderBook) (live : List (Side × BitVec 32)) (s : Side)
    (p : BitVec 32) : (b.view live).queue s p = (levelSlots b live s p).map
      fun i => ((b.pool i).orderReferenceNumber, (b.pool i).shares) := by
  rw [view, ReferenceBook.queue, List.filter_map, levelSlots, List.map_map, List.map_map]
  rfl

theorem mem_prices_view {s : Side} {t : Nat} : t ∈ (b.view live).prices s ↔
    ∃ i, (s, i) ∈ live ∧ (b.pool i).price.toNat = t := by
  simp only [ReferenceBook.prices, view, List.mem_map, List.mem_filter, decide_eq_true_eq]
  constructor
  · intro h
    obtain ⟨_, ⟨⟨⟨s', i⟩, hx, rfl⟩, hs⟩, ht⟩ := h
    have hs' : s' = s := hs
    subst hs'
    exact ⟨i, hx, ht⟩
  · intro h
    obtain ⟨i, hi, ht⟩ := h
    exact ⟨b.resting (s, i), ⟨⟨(s, i), hi, rfl⟩, rfl⟩, ht⟩

/-- The bitset of a side holds exactly the prices at which an order rests. -/
theorem Layout.test_iff_mem_prices (h : Layout maxOrders b free live) (s : Side) (t : Nat) :
    (b.bitset s).test t = true ↔ t ∈ (b.view live).prices s := by
  rw [h.bit s t, mem_prices_view]
  constructor
  · intro ⟨ht, hne⟩
    obtain ⟨i, hi⟩ := List.exists_mem_of_ne_nil _ hne
    obtain ⟨hlive, hp⟩ := mem_levelSlots.mp hi
    exact ⟨i, hlive, ((ofNat_eq_iff ht _).mp hp).symm⟩
  · intro ⟨i, hi, ht⟩
    have hlt : t < maxTicks := ht ▸ h.price _ hi
    refine ⟨hlt, List.ne_nil_of_mem (mem_levelSlots.mpr ⟨hi, ?_⟩)⟩
    exact (ofNat_eq_iff hlt _).mpr ht.symm

theorem Layout.getBestBid_eq (h : Layout maxOrders b free live) :
    b.getBestBid = (b.view live).bestBid := by
  rw [getBestBid, ReferenceBook.bestBid]
  cases hm : ((b.view live).prices .buy).max? with
  | none =>
    have hnil := List.max?_eq_none_iff.mp hm
    refine ((h.bitset .buy).best_eq_npos ?_).2
    intro t
    rw [Bool.eq_false_iff, ne_eq, h.test_iff_mem_prices, hnil]
    simp
  | some t =>
    obtain ⟨hmem, hmax⟩ := List.max?_eq_some_iff.mp hm
    obtain ⟨hbest, hle⟩ := (h.bitset .buy).getBestBid_spec ((h.test_iff_mem_prices .buy t).mpr hmem)
    exact Nat.le_antisymm (hmax _ ((h.test_iff_mem_prices .buy _).mp hbest)) hle

theorem Layout.getBestOffer_eq (h : Layout maxOrders b free live) :
    b.getBestOffer = (b.view live).bestOffer := by
  rw [getBestOffer, ReferenceBook.bestOffer]
  cases hm : ((b.view live).prices .sell).min? with
  | none =>
    have hnil := List.min?_eq_none_iff.mp hm
    refine ((h.bitset .sell).best_eq_npos ?_).1
    intro t
    rw [Bool.eq_false_iff, ne_eq, h.test_iff_mem_prices, hnil]
    simp
  | some t =>
    obtain ⟨hmem, hmin⟩ := List.min?_eq_some_iff.mp hm
    obtain ⟨hbest, hle⟩ :=
      (h.bitset .sell).getBestOffer_spec ((h.test_iff_mem_prices .sell t).mpr hmem)
    exact Nat.le_antisymm hle (hmin _ ((h.test_iff_mem_prices .sell _).mp hbest))

end Facts

section Effects
variable {maxOrders : Nat} {b b' : LimitOrderBook} {free : List (BitVec 32)}
  {live : List (Side × BitVec 32)} {x : BitVec 32} {side : Side} {order : NormalizedAddOrder}

theorem Layout.added_resting (h : Layout maxOrders b (x::free) live)
    (a : Added order.side order b b') {y : Side × BitVec 32} (hy : y ∈ live) :
    b'.resting y = b.resting y := by
  have hne : y.2 ≠ b.nextFreeIndex := by
    rw [h.freeChain.1]
    intro he
    exact h.head_not_live y.1 (he ▸ hy)
  rw [resting, resting, a.price hne, a.orderReferenceNumber hne, a.shares hne]

theorem Layout.added_view (h : Layout maxOrders b (x::free) live)
    (a : Added order.side order b b') :
    b'.view (live ++ [(order.side, x)]) = b.view live ++ [order.resting] := by
  have hnew : b'.resting (order.side, x) = order.resting := by
    have hx := a.fresh
    rw [h.freeChain.1] at hx
    rw [resting, hx, NormalizedAddOrder.resting]
  rw [view, List.map_append, List.map_singleton, hnew]
  exact congrArg (· ++ [order.resting]) (List.map_congr_left fun y hy => h.added_resting a hy)

theorem NoOrphan.added (o : NoOrphan b live) (h : Layout maxOrders b (x::free) live)
    (hn : maxOrders ≤ 2^31) (a : Added order.side order b b')
    (hget : ∀ id, b'.orders.get id = if id = order.orderReferenceNumber
      then some (taggedIdx order.side ||| x) else b.orders.get id)
    (hfresh : ∀ y ∈ live, (b.pool y.2).orderReferenceNumber ≠ order.orderReferenceNumber) :
    NoOrphan b' (live ++ [(order.side, x)]) := by
  intro y hy
  obtain hy | hy := List.mem_append.mp hy
  · have hid : (b'.pool y.2).orderReferenceNumber = (b.pool y.2).orderReferenceNumber :=
      congrArg Resting.id (h.added_resting a hy)
    rw [hid, hget, if_neg (hfresh y hy)]
    exact o y hy
  · obtain rfl := List.mem_singleton.mp hy
    have hx := a.fresh
    rw [h.freeChain.1] at hx
    have hlt : x.toNat < 2^31 := lt_of_lt_of_le ((h.mem x).mp (by simp)) hn
    rw [hx, hget, if_pos rfl]
    exact ⟨_, rfl, taggedIdx_and_indexMask order.side hlt⟩

theorem Released.resting (r : Released side x b b') (y : Side × BitVec 32) :
    b'.resting y = b.resting y := by
  rw [LimitOrderBook.resting, LimitOrderBook.resting, r.price, r.orderReferenceNumber, r.shares]

/-- Without orphans, removing the slot and removing the reference number agree. -/
theorem NoOrphan.id_eq_iff (o : NoOrphan b live) (h : Layout maxOrders b free live)
    (hx : (side, x) ∈ live) {y : Side × BitVec 32} (hy : y ∈ live) :
    (b.pool y.2).orderReferenceNumber = (b.pool x).orderReferenceNumber ↔ y.2 = x := by
  constructor
  · intro he
    obtain ⟨v, hv, hm⟩ := o (side, x) hx
    rw [o.slot_of_id h hy (he ▸ hv)]
    exact hm
  · intro he
    rw [he]

theorem NoOrphan.released_view (o : NoOrphan b live) (h : Layout maxOrders b free live)
    (hx : (side, x) ∈ live) (r : Released side x b b') :
    b'.view (live.filter fun y => y.2 ≠ x) =
      (b.view live).cancel (b.pool x).orderReferenceNumber := by
  rw [view_congr (fun y _ => r.resting y), view, view, ReferenceBook.cancel, List.filter_map]
  congr 1
  apply List.filter_congr
  intro y hy
  simp only [Function.comp_apply, LimitOrderBook.resting, ne_eq, o.id_eq_iff h hx hy]

theorem NoOrphan.released (o : NoOrphan b live) (h : Layout maxOrders b free live)
    (hx : (side, x) ∈ live) (r : Released side x b b') :
    NoOrphan b' (live.filter fun y => y.2 ≠ x) := by
  intro y hy
  obtain ⟨hy, hne⟩ := List.mem_filter.mp hy
  have hid : ¬ (b.pool y.2).orderReferenceNumber = (b.pool x).orderReferenceNumber := by
    rw [o.id_eq_iff h hx hy]
    exact of_decide_eq_true hne
  rw [r.orderReferenceNumber, r.orders, StaticOrderMap.get_erase h.orders orderMapSize_pos,
    if_neg hid]
  exact o y hy

theorem setShares_id (b : LimitOrderBook) (x : BitVec 32) (n : BitVec 32) (y : BitVec 32) :
    ((b.modifyOrder x fun o => { o with shares := o.shares - n }).pool y).orderReferenceNumber =
      (b.pool y).orderReferenceNumber := by
  obtain ⟨_, hy⟩ := setShares_pool b x y n
  rw [hy]

theorem NoOrphan.setShares (o : NoOrphan b live) (x n : BitVec 32) :
    NoOrphan (b.modifyOrder x fun o => { o with shares := o.shares - n }) live := by
  intro y hy
  rw [setShares_id]
  exact o y hy

theorem NoOrphan.setShares_view (o : NoOrphan b live) (h : Layout maxOrders b free live)
    (hx : (side, x) ∈ live) (n : BitVec 32) :
    (b.modifyOrder x fun o => { o with shares := o.shares - n }).view live =
      (b.view live).reduce (b.pool x).orderReferenceNumber n := by
  rw [view, view, ReferenceBook.reduce, List.map_map]
  apply List.map_congr_left
  intro y hy
  simp only [Function.comp_apply, LimitOrderBook.resting, o.id_eq_iff h hx hy, modifyOrder_pool]
  split_ifs with he
  · rw [he]
  · rfl

end Effects

/-- The linked slots of the book, read in order of arrival, are the reference book. -/
def Simulates (maxOrders : Nat) (b : LimitOrderBook) (ref : ReferenceBook) : Prop :=
  ∃ free live, Layout maxOrders b free live ∧ NoOrphan b live ∧ b.view live = ref

section Simulation
variable {maxOrders : Nat} {b : LimitOrderBook} {ref : ReferenceBook}

theorem Simulates.new (h1 : 1 ≤ maxOrders) (hn : maxOrders ≤ 2^31) :
    Simulates maxOrders (new maxOrders) [] :=
  ⟨_, [], Layout.new h1 hn, fun _ hx => absurd hx List.not_mem_nil, rfl⟩

theorem Simulates.addOrder (s : Simulates maxOrders b ref) (h31 : maxOrders ≤ 2^31)
    (hmap : ref.length < maxOrders → ref.length < orderMapSize) (order : NormalizedAddOrder)
    (hf : ref.Admits maxOrders (.add order)) :
    (b.addOrder order).2 = .returned ∧
      Simulates maxOrders (b.addOrder order).1 (ref.add maxOrders order) := by
  obtain ⟨free, live, h, o, rfl⟩ := s
  have hlen := h.length h31
  have hview : (b.view live).length = live.length := List.length_map _
  by_cases hi : maxTicks ≤ order.price.toNat ∨ free = []
  · have hno : maxTicks ≤ order.price.toNat ∨ maxOrders ≤ (b.view live).length := by
      refine hi.imp_right ?_
      intro he
      rw [he] at hlen
      rw [hview, ← hlen, List.length_nil, Nat.zero_add]
    rw [addOrder_ignored h order hi, ReferenceBook.add, if_pos hno]
    exact ⟨rfl, free, live, h, o, rfl⟩
  · obtain ⟨hp, hfree⟩ := not_or.mp hi
    obtain ⟨x, free, rfl⟩ := List.exists_cons_of_ne_nil hfree
    rw [List.length_cons] at hlen
    have hno : ¬ (maxTicks ≤ order.price.toNat ∨ maxOrders ≤ (b.view live).length) := by omega
    have hroom := hmap (by omega)
    rw [hview] at hroom
    obtain ⟨b', hb', hadd, hget, hl⟩ := addOrder_accepted h h31 order (Or.inr (h.room hroom)) (by omega)
    rw [hb', ReferenceBook.add, if_neg hno]
    refine ⟨rfl, free, _, hl, o.added h h31 hadd hget ?_, h.added_view hadd⟩
    intro y hy
    exact hf (by omega) (by omega) (b.resting y) (List.mem_map_of_mem hy)

theorem Simulates.cancelOrder (s : Simulates maxOrders b ref) (h31 : maxOrders ≤ 2^31)
    (id : BitVec 64) : Simulates maxOrders (b.cancelOrder id) (ref.cancel id) := by
  obtain ⟨free, live, h, o, rfl⟩ := s
  cases hg : b.orders.get id with
  | none =>
    rw [cancelOrder_absent hg, ReferenceBook.cancel_of_absent (o.not_mem_view hg)]
    exact ⟨free, live, h, o, rfl⟩
  | some v =>
    obtain ⟨hx, hid⟩ := h.target id v hg
    obtain ⟨r, hl⟩ := release_layout h h31 hx
    rw [cancelOrder_eq_release hg, ← hid]
    exact ⟨_, _, hl, o.released h hx r, o.released_view h hx r⟩

theorem Simulates.executeOrder (s : Simulates maxOrders b ref) (h31 : maxOrders ≤ 2^31)
    (order : NormalizedOrderExecuted) : (b.executeOrder order).2 = (ref.execute order).2 ∧
      Simulates maxOrders (b.executeOrder order).1 (ref.execute order).1 := by
  obtain ⟨free, live, h, o, rfl⟩ := s
  cases hg : b.orders.get order.orderReferenceNumber with
  | none =>
    rw [executeOrder_absent hg, ReferenceBook.execute_of_absent (o.not_mem_view hg)]
    exact ⟨rfl, free, live, h, o, rfl⟩
  | some v =>
    obtain ⟨hx, hid⟩ := h.target _ v hg
    have hs := h.setShares (v &&& indexMask) order.shares
    have os := o.setShares (v &&& indexMask) order.shares
    have hview := o.setShares_view h hx order.shares
    rw [executeOrder_present hg, ReferenceBook.execute, o.find_view h hg]
    dsimp only [LimitOrderBook.resting]
    split_ifs
    · exact ⟨rfl, free, live, h, o, rfl⟩
    · obtain ⟨r, hl⟩ := release_layout hs h31 hx
      refine ⟨rfl, _, _, hl, os.released hs hx r, ?_⟩
      rw [os.released_view hs hx r, hview, setShares_id, hid, ReferenceBook.cancel_reduce]
    · refine ⟨rfl, free, live, hs, os, ?_⟩
      rw [hview, hid]

theorem Simulates.step (s : Simulates maxOrders b ref) (hn : maxOrders ≤ orderMapSize)
    {c : BookCall} (hf : ref.Admits maxOrders c) : (b.step c).2 = (ref.step maxOrders c).2 ∧
      Simulates maxOrders (b.step c).1 (ref.step maxOrders c).1 := by
  have h31 : maxOrders ≤ 2^31 := hn.trans (by decide)
  cases c with
  | add order => exact s.addOrder h31 (fun hl => hl.trans_le hn) order hf
  | cancel id => exact ⟨rfl, s.cancelOrder h31 id⟩
  | execute order => exact s.executeOrder h31 order

theorem Simulates.run (s : Simulates maxOrders b ref) (hn : maxOrders ≤ orderMapSize)
    {calls : List BookCall}
    (hf : StepRun.Along (ReferenceBook.after maxOrders) (ReferenceBook.Admits maxOrders) ref calls) :
    (b.run calls).2 = (ref.run maxOrders calls).2 ∧
      Simulates maxOrders (b.run calls).1 (ref.run maxOrders calls).1 := by
  induction calls generalizing b ref with
  | nil => exact ⟨rfl, s⟩
  | cons c cs ih =>
    obtain ⟨ho, hs⟩ := s.step hn hf.1
    obtain ⟨hos, hss⟩ := ih hs hf.2
    refine ⟨?_, hss⟩
    simp only [LimitOrderBook.run, ReferenceBook.run, ho, hos]

end Simulation

/-- What a reader of the book sees is the reference book: walking `next` from each level's
head visits its queue, and the best prices are those of the resting orders. -/
structure Represents (maxOrders : Nat) (b : LimitOrderBook) (ref : ReferenceBook) : Prop where
  queue : ∀ s, ∀ p : BitVec 32, p.toNat < maxTicks →
    (walk b.next nullIndex maxOrders (b.levels s p).head).map
      (List.map fun i => ((b.pool i).orderReferenceNumber, (b.pool i).shares)) =
    some (ref.queue s p)
  bestBid : b.getBestBid = ref.bestBid
  bestOffer : b.getBestOffer = ref.bestOffer

theorem Simulates.represents {maxOrders : Nat} {b : LimitOrderBook} {ref : ReferenceBook}
    (s : Simulates maxOrders b ref) (hn : maxOrders ≤ 2^31) : Represents maxOrders b ref := by
  obtain ⟨free, live, h, o, rfl⟩ := s
  refine ⟨?_, h.getBestBid_eq, h.getBestOffer_eq⟩
  intro s p hp
  rw [h.walk_level hn s hp, Option.map_some, queue_view]

/-- The refinement: after every step of a run whose adds are fresh. -/
theorem run_represents (maxOrders : Nat) (h1 : 1 ≤ maxOrders) (hn : maxOrders ≤ 2^22)
    (calls : List BookCall) (hf : ReferenceBook.FreshAdds maxOrders [] calls) (k : Nat) :
    ((new maxOrders).run (calls.take k)).2 =
      (ReferenceBook.run maxOrders [] (calls.take k)).2 ∧
    Represents maxOrders ((new maxOrders).run (calls.take k)).1
      (ReferenceBook.run maxOrders [] (calls.take k)).1 := by
  have hmap : maxOrders ≤ orderMapSize := hn.trans (by decide)
  have h31 : maxOrders ≤ 2^31 := hn.trans (by decide)
  obtain ⟨ho, hs⟩ := (Simulates.new h1 h31).run hmap ((hf.take k).mono fun _ _ h => h.admits)
  exact ⟨ho, hs.represents h31⟩

theorem run_represents_partial_fill :
    Represents 2 ((new 2).run [.add (.plain 66#8 1 7 5), .add (.plain 83#8 2 9 4),
        .execute ⟨0, 1, 0, 3, 0, 0⟩, .cancel 2]).1
      [⟨.buy, 7, 1, 2⟩] :=
  (run_represents 2 (by decide) (by decide) [.add (.plain 66#8 1 7 5), .add (.plain 83#8 2 9 4),
    .execute ⟨0, 1, 0, 3, 0, 0⟩, .cancel 2]
    (by decide) 4).2

end MarketDataBook.LimitOrderBook
