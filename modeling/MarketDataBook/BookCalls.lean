import MarketDataBook.BookLayout
import MarketDataBook.Library.StepRun
import Mathlib.Data.Finset.Card

/-! What each call of the book does to a laid out book, and the structural invariant of
every run of calls. The order map never overflows: a linked slot is the target of at most
one occupied bucket. -/
namespace MarketDataBook.LimitOrderBook
open IndexChain

section Calls
variable {maxOrders : Nat} {b : LimitOrderBook} {free : List (BitVec 32)}
  {live : List (Side × BitVec 32)}

theorem Layout.get_occupied (h : Layout maxOrders b free live) {q : Nat}
    (hq : b.orders.Occupied q) :
    b.orders.get (b.orders.map q).orderId = some (b.orders.map q).poolIdx :=
  (h.orders.get_eq_some_iff orderMapSize_pos).mpr ⟨q, hq, rfl, rfl⟩

/-- Distinct occupied buckets point to distinct linked slots. -/
theorem Layout.target_injective (h : Layout maxOrders b free live) {p q : Nat}
    (hp : b.orders.Occupied p) (hq : b.orders.Occupied q)
    (he : (b.orders.map p).poolIdx &&& indexMask = (b.orders.map q).poolIdx &&& indexMask) :
    p = q := by
  apply h.orders.unique p q hp hq
  rw [← (h.target _ _ (h.get_occupied hp)).2, he, (h.target _ _ (h.get_occupied hq)).2]

/-- Fewer linked slots than buckets leave a bucket unoccupied. -/
theorem Layout.room (h : Layout maxOrders b free live) (hl : live.length < orderMapSize) :
    ∃ q < orderMapSize, (b.orders.map q).state ≠ .occupied := by
  by_contra hno
  have hfull : ∀ q < orderMapSize, b.orders.Occupied q := by
    intro q hq
    refine ⟨hq, ?_⟩
    by_contra hst
    exact hno ⟨q, hq, hst⟩
  have hcard : (Finset.range orderMapSize).card ≤ (live.map Prod.snd).toFinset.card := by
    apply Finset.card_le_card_of_injOn (fun q => (b.orders.map q).poolIdx &&& indexMask)
    · intro q hq
      have ht := (h.target _ _ (h.get_occupied (hfull q (Finset.mem_range.mp hq)))).1
      exact List.mem_toFinset.mpr (List.mem_map_of_mem ht)
    · intro p hp q hq he
      exact h.target_injective (hfull p (Finset.mem_range.mp hp)) (hfull q (Finset.mem_range.mp hq))
        he
  have hle := List.toFinset_card_le (live.map Prod.snd)
  rw [List.length_map] at hle
  rw [Finset.card_range] at hcard
  omega

theorem Layout.length_lt {x : BitVec 32} (h : Layout maxOrders b (x::free) live)
    (hn : maxOrders ≤ orderMapSize) : live.length < orderMapSize := by
  have hlen := h.length (hn.trans (by decide))
  rw [List.length_cons] at hlen
  omega

def MapOverflow (b : LimitOrderBook) : BookCall → Prop
  | .add order => order.price.toNat < maxTicks ∧ b.nextFreeIndex ≠ nullIndex ∧
      b.orders.get order.orderReferenceNumber = none ∧
      ∀ q < orderMapSize, (b.orders.map q).state = .occupied
  | _ => False

theorem Layout.not_mapOverflow (h : Layout maxOrders b free live)
    (hn : maxOrders ≤ orderMapSize) (c : BookCall) : ¬ MapOverflow b c := by
  cases c with
  | add order =>
    rintro ⟨-, hfree, -, hfull⟩
    cases free with
    | nil => exact hfree (h.freeChain.eq_nil_iff.mp rfl)
    | cons x free =>
      obtain ⟨q, hq, hst⟩ := h.room (h.length_lt hn)
      exact hst (hfull q hq)
  | cancel orderId => exact id
  | execute order => exact id

/-- Whatever the map does to a new id, an accepted order that does not overflow it has room. -/
theorem Layout.room_of_not_overflow {x : BitVec 32} (h : Layout maxOrders b (x::free) live)
    {order : NormalizedAddOrder} (hprice : order.price.toNat < maxTicks)
    (hc : ¬ MapOverflow b (.add order)) :
    b.orders.get order.orderReferenceNumber ≠ none ∨
      ∃ q < orderMapSize, (b.orders.map q).state ≠ .occupied := by
  by_contra hno
  push Not at hno
  exact hc ⟨hprice, h.freeChain.1 ▸ h.freeChain.2.1, hno⟩

theorem addOrder_eq_impl (order : NormalizedAddOrder) (hprice : order.price.toNat < maxTicks)
    (hfree : b.nextFreeIndex ≠ nullIndex) :
    b.addOrder order = addOrderImpl order.side b order := by
  have hp : ¬ maxTicks ≤ order.price.toNat := by omega
  rw [addOrder, if_neg hp, if_neg hfree, NormalizedAddOrder.side]
  split_ifs <;> rfl

theorem addOrder_ignored (h : Layout maxOrders b free live) (order : NormalizedAddOrder)
    (hi : maxTicks ≤ order.price.toNat ∨ free = []) : b.addOrder order = (b, .returned) := by
  by_cases hp : maxTicks ≤ order.price.toNat
  · rw [addOrder, if_pos hp]
  · obtain hi | hi := hi
    · exact absurd hi hp
    · rw [addOrder, if_neg hp, if_pos (h.freeChain.eq_nil_iff.mp hi)]

/-- An accepted order takes the head of the free list and the back of its level. -/
theorem addOrder_accepted {x : BitVec 32} (h : Layout maxOrders b (x::free) live)
    (hn : maxOrders ≤ 2^31) (order : NormalizedAddOrder)
    (hroom : b.orders.get order.orderReferenceNumber ≠ none ∨
      ∃ q < orderMapSize, (b.orders.map q).state ≠ .occupied)
    (hprice : order.price.toNat < maxTicks) :
    ∃ b', b.addOrder order = (b', .returned) ∧ Added order.side order b b' ∧
      (∀ id, b'.orders.get id = if id = order.orderReferenceNumber
        then some (taggedIdx order.side ||| x) else b.orders.get id) ∧
      Layout maxOrders b' free (live ++ [(order.side, x)]) := by
  have hx : b.nextFreeIndex = x := h.freeChain.1
  obtain ⟨m, ha, hw, hget⟩ := StaticOrderMap.assign_spec h.orders orderMapSize_pos
    order.orderReferenceNumber (taggedIdx order.side ||| b.nextFreeIndex) hroom
  obtain ⟨b', hb', hm, hadded⟩ :=
    addOrderImpl_added b order.side order ha (h.tail_ne_head _ _)
  have hget' : ∀ id, b'.orders.get id = if id = order.orderReferenceNumber
      then some (taggedIdx order.side ||| x) else b.orders.get id := by
    intro id
    rw [hm, hget, hx]
  refine ⟨b', ?_, hadded, hget', h.added hn hadded hprice (hm ▸ hw) hget'⟩
  rw [addOrder_eq_impl order hprice (hx ▸ h.freeChain.2.1), hb']

theorem find_eq_none_iff_get (id : BitVec 64) : b.orders.find id = none ↔ b.orders.get id = none := by
  rw [StaticOrderMap.get, Option.map_eq_none_iff]

theorem cancelOrder_absent {id : BitVec 64} (hg : b.orders.get id = none) :
    b.cancelOrder id = b := by
  rw [cancelOrder, (find_eq_none_iff_get id).mpr hg]

theorem cancelOrder_eq_release {id : BitVec 64} {v : BitVec 32} (hg : b.orders.get id = some v) :
    b.cancelOrder id = releaseOrderToPool (taggedSide v) b (v &&& indexMask) := by
  obtain ⟨p, hp, hv⟩ := Option.map_eq_some_iff.mp hg
  simp only [cancelOrder, hp, hv]

theorem release_layout {side : Side} {x : BitVec 32} (h : Layout maxOrders b free live)
    (hn : maxOrders ≤ 2^31) (hx : (side, x) ∈ live) :
    Released side x b (releaseOrderToPool side b x) ∧
      Layout maxOrders (releaseOrderToPool side b x) (x::free)
        (live.filter fun y => y.2 ≠ x) := by
  obtain ⟨hp, hq⟩ := h.links_ne_self hn hx
  have hr := releaseOrderToPool_released b side hp hq
  exact ⟨hr, h.released hn hx hr⟩

theorem executeOrder_absent {order : NormalizedOrderExecuted}
    (hg : b.orders.get order.orderReferenceNumber = none) :
    b.executeOrder order = (b, .returned) := by
  rw [executeOrder, (find_eq_none_iff_get _).mpr hg]

theorem executeOrder_present {order : NormalizedOrderExecuted} {v : BitVec 32}
    (hg : b.orders.get order.orderReferenceNumber = some v) :
    b.executeOrder order =
      if (b.pool (v &&& indexMask)).shares < order.shares then (b, overExecution)
      else
        let c := b.modifyOrder (v &&& indexMask) fun o => { o with shares := o.shares - order.shares }
        if (b.pool (v &&& indexMask)).shares = order.shares then
          (releaseOrderToPool (taggedSide v) c (v &&& indexMask), .returned)
        else (c, .returned) := by
  obtain ⟨p, hp, hv⟩ := Option.map_eq_some_iff.mp hg
  simp only [executeOrder, hp, hv, modifyOrder_pool, if_true]
  split_ifs with h1 h2 h3 h3
  · rfl
  · rfl
  · exact absurd (by bv_omega) h3
  · rw [h3, BitVec.sub_self] at h2
    exact absurd rfl h2
  · rfl

/-- An add that does not overflow the map returns and leaves the book laid out. -/
theorem Layout.addOrder (h : Layout maxOrders b free live) (hn : maxOrders ≤ 2^31)
    {order : NormalizedAddOrder} (hc : ¬ MapOverflow b (.add order)) :
    ∃ b' free' live', b.addOrder order = (b', .returned) ∧ Layout maxOrders b' free' live' := by
  by_cases hp : maxTicks ≤ order.price.toNat
  · exact ⟨b, free, live, addOrder_ignored h order (Or.inl hp), h⟩
  · cases free with
    | nil => exact ⟨b, [], live, addOrder_ignored h order (Or.inr rfl), h⟩
    | cons x free =>
      have hprice : order.price.toNat < maxTicks := by omega
      obtain ⟨b', hb', _, _, hl⟩ :=
        addOrder_accepted h hn order (h.room_of_not_overflow hprice hc) hprice
      exact ⟨b', free, _, hb', hl⟩

/-- Every call that does not overflow the map keeps the book laid out. -/
theorem Layout.step_of_room (h : Layout maxOrders b free live) (hn : maxOrders ≤ 2^31)
    {c : BookCall} (hc : ¬ MapOverflow b c) :
    ∃ free' live', Layout maxOrders (b.step c).1 free' live' := by
  cases c with
  | add order =>
    obtain ⟨b', free', live', hb', hl⟩ := h.addOrder hn hc
    rw [LimitOrderBook.step, hb']
    exact ⟨free', live', hl⟩
  | cancel id =>
    cases hg : b.orders.get id with
    | none =>
      refine ⟨free, live, ?_⟩
      rw [LimitOrderBook.step, cancelOrder_absent hg]
      exact h
    | some v =>
      rw [LimitOrderBook.step, cancelOrder_eq_release hg]
      exact ⟨_, _, (release_layout h hn (h.target id v hg).1).2⟩
  | execute order =>
    cases hg : b.orders.get order.orderReferenceNumber with
    | none =>
      refine ⟨free, live, ?_⟩
      rw [LimitOrderBook.step, executeOrder_absent hg]
      exact h
    | some v =>
      have hs := h.setShares (v &&& indexMask) order.shares
      rw [LimitOrderBook.step, executeOrder_present hg]
      split_ifs
      · exact ⟨free, live, h⟩
      · exact ⟨_, _, (release_layout hs hn (h.target _ v hg).1).2⟩
      · exact ⟨free, live, hs⟩

/-- With no more slots than buckets every call keeps the book laid out. -/
theorem Layout.step (h : Layout maxOrders b free live) (hn : maxOrders ≤ orderMapSize)
    (c : BookCall) : ∃ free' live', Layout maxOrders (b.step c).1 free' live' :=
  h.step_of_room (hn.trans (by decide)) (h.not_mapOverflow hn c)

theorem addOrder_returned_of_room (h : Layout maxOrders b free live) (hn : maxOrders ≤ 2^31)
    {order : NormalizedAddOrder} (hc : ¬ MapOverflow b (.add order)) :
    (b.addOrder order).2 = .returned := by
  obtain ⟨b', _, _, hb', _⟩ := h.addOrder hn hc
  rw [hb']

theorem addOrder_returned (h : Layout maxOrders b free live) (hn : maxOrders ≤ orderMapSize)
    (order : NormalizedAddOrder) : (b.addOrder order).2 = .returned :=
  addOrder_returned_of_room h (hn.trans (by decide)) (h.not_mapOverflow hn _)

theorem Layout.run (h : Layout maxOrders b free live) (hn : maxOrders ≤ orderMapSize)
    (calls : List BookCall) : ∃ free' live', Layout maxOrders (b.run calls).1 free' live' := by
  rw [run_fst]
  refine StepRun.invariant (I := fun b => ∃ free live, Layout maxOrders b free live) calls
    ⟨free, live, h⟩ ?_
  intro b c hb
  obtain ⟨free, live, h⟩ := hb
  exact h.step hn c

end Calls

inductive ListName where
  | free
  | level (side : Side) (price : Fin maxTicks)

def listHead (b : LimitOrderBook) : ListName → BitVec 32
  | .free => b.nextFreeIndex
  | .level side price => (b.levels side (BitVec.ofNat 32 price)).head

/-- `slots` gives the content of every list, and the five structures of the book agree
with it. -/
structure WellStructured (maxOrders : Nat) (b : LimitOrderBook)
    (slots : ListName → List (BitVec 32)) : Prop where
  visits : ∀ l, walk b.next nullIndex maxOrders (b.listHead l) = some (slots l)
  acyclic : ∀ l, (slots l).Nodup
  below : ∀ l, ∀ i ∈ slots l, i.toNat < maxOrders
  partition : ∀ i : BitVec 32, i.toNat < maxOrders → ∃! l, i ∈ slots l
  next_prev : ∀ s p, ∀ i ∈ slots (.level s p), b.next i ≠ nullIndex →
    b.next i ∈ slots (.level s p) ∧ b.prev (b.next i) = i
  prev_next : ∀ s p, ∀ i ∈ slots (.level s p), b.prev i ≠ nullIndex →
    b.prev i ∈ slots (.level s p) ∧ b.next (b.prev i) = i
  head : ∀ s p, (slots (.level s p)).head? =
    if (b.levels s (BitVec.ofNat 32 p)).head = nullIndex then none
    else some (b.levels s (BitVec.ofNat 32 p)).head
  tail : ∀ s p, (slots (.level s p)).getLast? =
    if (b.levels s (BitVec.ofNat 32 p)).tail = nullIndex then none
    else some (b.levels s (BitVec.ofNat 32 p)).tail
  ends : ∀ s p, ∀ i ∈ slots (.level s p),
    (b.prev i = nullIndex ↔ i = (b.levels s (BitVec.ofNat 32 p)).head) ∧
    (b.next i = nullIndex ↔ i = (b.levels s (BitVec.ofNat 32 p)).tail)
  price : ∀ s p, ∀ i ∈ slots (.level s p), (b.pool i).price.toNat = p
  bit : ∀ s t, (b.bitset s).test t = true ↔ ∃ h : t < maxTicks, slots (.level s ⟨t, h⟩) ≠ []
  bucket : ∀ q, b.orders.Occupied q →
    (∃ p, (b.orders.map q).poolIdx &&& indexMask ∈
      slots (.level (taggedSide (b.orders.map q).poolIdx) p)) ∧
    (b.pool ((b.orders.map q).poolIdx &&& indexMask)).orderReferenceNumber =
      (b.orders.map q).orderId
  distinct : ∀ q r, b.orders.Occupied q → b.orders.Occupied r →
    (b.orders.map q).poolIdx &&& indexMask = (b.orders.map r).poolIdx &&& indexMask → q = r

section Structured
variable {maxOrders : Nat} {b : LimitOrderBook} {free : List (BitVec 32)}
  {live : List (Side × BitVec 32)}

def layoutSlots (b : LimitOrderBook) (free : List (BitVec 32)) (live : List (Side × BitVec 32)) :
    ListName → List (BitVec 32)
  | .free => free
  | .level side price => levelSlots b live side (BitVec.ofNat 32 price)

theorem toNat_ofNat_price (p : Fin maxTicks) : (BitVec.ofNat 32 p).toNat = p := by
  have hp : p.1 < 2^32 := p.2.trans (by decide)
  rw [BitVec.toNat_ofNat, Nat.mod_eq_of_lt hp]

theorem Layout.chain (h : Layout maxOrders b free live) (hn : maxOrders ≤ 2^31) (l : ListName) :
    Chain b.next nullIndex (b.listHead l) (layoutSlots b free live l) := by
  cases l with
  | free => exact h.freeChain
  | level s p =>
    rw [listHead, (h.level s _).head]
    exact (h.level s _).linked.chain (h.null_not_mem_level hn s _)

theorem Layout.slots_nodup (h : Layout maxOrders b free live) (l : ListName) :
    (layoutSlots b free live l).Nodup := by
  cases l with
  | free => exact (List.nodup_append.mp h.nodup).1
  | level s p => exact h.level_nodup s _

theorem Layout.slots_lt (h : Layout maxOrders b free live) (l : ListName) {i : BitVec 32}
    (hi : i ∈ layoutSlots b free live l) : i.toNat < maxOrders := by
  cases l with
  | free => exact (h.mem i).mp (List.mem_append_left _ hi)
  | level s p => exact h.live_lt (mem_levelSlots.mp hi).1

theorem Layout.slots_length (h : Layout maxOrders b free live) (hn : maxOrders ≤ 2^31)
    (l : ListName) : (layoutSlots b free live l).length ≤ maxOrders := by
  have hlen := h.length hn
  cases l with
  | free =>
    simp only [layoutSlots]
    omega
  | level s p =>
    have hle : (levelSlots b live s (BitVec.ofNat 32 p)).length ≤ live.length := by
      rw [levelSlots, List.length_map]
      exact List.length_filter_le _ _
    simp only [layoutSlots]
    omega

theorem Layout.mem_level_of_live (h : Layout maxOrders b free live) {s : Side} {i : BitVec 32}
    (hi : (s, i) ∈ live) :
    ∃ p : Fin maxTicks, i ∈ layoutSlots b free live (.level s p) := by
  refine ⟨⟨(b.pool i).price.toNat, h.price _ hi⟩, mem_levelSlots.mpr ⟨hi, ?_⟩⟩
  rw [BitVec.ofNat_toNat, BitVec.setWidth_eq]

theorem Layout.slots_unique (h : Layout maxOrders b free live) {i : BitVec 32} {l m : ListName}
    (hl : i ∈ layoutSlots b free live l) (hm : i ∈ layoutSlots b free live m) : l = m := by
  cases l with
  | free =>
    cases m with
    | free => rfl
    | level t q => exact absurd hl (h.not_free_of_live (mem_levelSlots.mp hm).1)
  | level s p =>
    cases m with
    | free => exact absurd hm (h.not_free_of_live (mem_levelSlots.mp hl).1)
    | level t q =>
      obtain ⟨hs, hp⟩ := h.level_unique hl hm
      have hpq : p = q := by
        apply Fin.ext
        rw [← toNat_ofNat_price p, hp, toNat_ofNat_price q]
      rw [hs, hpq]

theorem Layout.slots_partition (h : Layout maxOrders b free live) {i : BitVec 32}
    (hi : i.toNat < maxOrders) : ∃! l, i ∈ layoutSlots b free live l := by
  obtain hf | hl := List.mem_append.mp ((h.mem i).mpr hi)
  · exact ⟨.free, hf, fun m hm => h.slots_unique hm hf⟩
  · obtain ⟨⟨s, _⟩, hx, rfl⟩ := List.mem_map.mp hl
    obtain ⟨p, hp⟩ := h.mem_level_of_live hx
    exact ⟨.level s p, hp, fun m hm => h.slots_unique hm hp⟩

/-- The two null links of a level belong to its ends. -/
theorem Layout.level_ends (h : Layout maxOrders b free live) (hn : maxOrders ≤ 2^31) {s : Side}
    {p i : BitVec 32} (hi : i ∈ levelSlots b live s p) :
    (b.prev i = nullIndex ↔ i = (b.levels s p).head) ∧
    (b.next i = nullIndex ↔ i = (b.levels s p).tail) := by
  obtain ⟨hlive, rfl⟩ := mem_levelSlots.mp hi
  obtain ⟨l, m, hlm, hil, him, hp, hq⟩ := h.split hlive
  have hnull := h.null_not_mem_level hn s (b.pool i).price
  rw [(h.level s _).head, (h.level s _).tail, hp, hq, hlm]
  rw [hlm] at hnull
  constructor
  · cases l with
    | nil => simp
    | cons y ys =>
      have hlast := getLastD_mem (y::ys) nullIndex (by simp)
      refine iff_of_false ?_ (fun he : i = y => hil (he ▸ List.mem_cons_self))
      intro he
      exact hnull (List.mem_append_left _ (he ▸ hlast))
  · rw [getLastD_append, List.getLastD_cons]
    cases m with
    | nil => simp
    | cons y ys =>
      have hlast := getLastD_mem (y::ys) i (by simp)
      refine iff_of_false (fun he : y = nullIndex => hnull (by simp [he])) ?_
      intro he
      exact him (he ▸ hlast)

theorem head?_eq_ite {l : List (BitVec 32)} (h : nullIndex ∉ l) :
    l.head? = if l.headD nullIndex = nullIndex then none else some (l.headD nullIndex) := by
  cases l with
  | nil => rfl
  | cons x xs =>
    have hx : ¬ x = nullIndex := fun he => h (by simp [he])
    simp [hx]

theorem getLast?_eq_ite {l : List (BitVec 32)} (h : nullIndex ∉ l) :
    l.getLast? =
      if l.getLastD nullIndex = nullIndex then none else some (l.getLastD nullIndex) := by
  have hr := head?_eq_ite (l := l.reverse) (by simpa using h)
  simpa [List.getLastD_eq_getLast?] using hr

theorem Layout.wellStructured (h : Layout maxOrders b free live) (hn : maxOrders ≤ 2^31) :
    WellStructured maxOrders b (layoutSlots b free live) where
  visits := fun l => walk_eq_some (h.chain hn l) (h.slots_length hn l)
  acyclic := h.slots_nodup
  below := fun l _ hi => h.slots_lt l hi
  partition := fun _ hi => h.slots_partition hi
  next_prev := fun s _ _ hi hx => (h.level s _).linked.next_mem hi hx
  prev_next := fun s _ _ hi hx => (h.level s _).linked.prev_mem hi hx
  head := fun s p => by
    rw [(h.level s _).head]
    exact head?_eq_ite (h.null_not_mem_level hn s _)
  tail := fun s p => by
    rw [(h.level s _).tail]
    exact getLast?_eq_ite (h.null_not_mem_level hn s _)
  ends := fun _ _ _ hi => h.level_ends hn hi
  price := fun _ p _ hi => by rw [(mem_levelSlots.mp hi).2, toNat_ofNat_price]
  bit := fun s t => by
    rw [h.bit s t]
    exact ⟨fun ⟨ht, hne⟩ => ⟨ht, hne⟩, fun ⟨ht, hne⟩ => ⟨ht, hne⟩⟩
  bucket := fun q hq => by
    obtain ⟨hlive, href⟩ := h.target _ _ (h.get_occupied hq)
    exact ⟨h.mem_level_of_live hlive, href⟩
  distinct := fun _ _ hq hr he => h.target_injective hq hr he

theorem Layout.walk_level (h : Layout maxOrders b free live) (hn : maxOrders ≤ 2^31) (s : Side)
    {p : BitVec 32} (hp : p.toNat < maxTicks) :
    walk b.next nullIndex maxOrders (b.levels s p).head = some (levelSlots b live s p) := by
  have hw := (h.wellStructured hn).visits (.level s ⟨p.toNat, hp⟩)
  have hpp : BitVec.ofNat 32 p.toNat = p := by rw [BitVec.ofNat_toNat, BitVec.setWidth_eq]
  simpa only [listHead, layoutSlots, hpp] using hw

end Structured

/-- No argument of any call can break the structure, and `add_order` never raises. -/
theorem run_wellStructured (maxOrders : Nat) (h1 : 1 ≤ maxOrders) (hn : maxOrders ≤ 2^22)
    (calls : List BookCall) :
    (∀ order, (((new maxOrders).run calls).1.addOrder order).2 = .returned) ∧
    ∃ slots, WellStructured maxOrders ((new maxOrders).run calls).1 slots := by
  have hmap : maxOrders ≤ orderMapSize := hn.trans (by decide)
  have h31 : maxOrders ≤ 2^31 := hn.trans (by decide)
  obtain ⟨free, live, h⟩ := (Layout.new h1 h31).run hmap calls
  exact ⟨fun order => addOrder_returned h hmap order, _, h.wellStructured h31⟩

/-- Two adds with one reference number, a cancel of it and a cancel of an unknown one. -/
theorem run_wellStructured_reused_id :
    ∃ slots, WellStructured 3 ((new 3).run [.add (.plain 66#8 1 7 5), .add (.plain 66#8 1 7 6),
      .cancel 1, .cancel 9]).1 slots :=
  (run_wellStructured 3 (by decide) (by decide) _).2

end MarketDataBook.LimitOrderBook
