import MarketDataBook.BookSteps
import MarketDataBook.Library.IndexChain

/-! The structural invariant of the book. `free` lists the slots of the free list and
`live` the linked slots with their sides in order of arrival; the list of one price
level is a sublist of `live`. Order ids are not assumed to be distinct. -/
namespace MarketDataBook.LimitOrderBook
open IndexChain

def next (b : LimitOrderBook) (i : BitVec 32) : BitVec 32 := (b.pool i).next
def prev (b : LimitOrderBook) (i : BitVec 32) : BitVec 32 := (b.pool i).prev

def levelSlots (b : LimitOrderBook) (live : List (Side × BitVec 32)) (s : Side) (p : BitVec 32) :
    List (BitVec 32) :=
  (live.filter fun x => x.1 = s ∧ (b.pool x.2).price = p).map Prod.snd

structure LevelList (b : LimitOrderBook) (s : Side) (p : BitVec 32) (l : List (BitVec 32)) :
    Prop where
  head : (b.levels s p).head = l.headD nullIndex
  tail : (b.levels s p).tail = l.getLastD nullIndex
  linked : Linked b.next b.prev nullIndex l nullIndex

structure Layout (maxOrders : Nat) (b : LimitOrderBook) (free : List (BitVec 32))
    (live : List (Side × BitVec 32)) : Prop where
  nodup : (free ++ live.map Prod.snd).Nodup
  mem : ∀ i, i ∈ free ++ live.map Prod.snd ↔ i.toNat < maxOrders
  freeChain : Chain b.next nullIndex b.nextFreeIndex free
  level : ∀ s p, LevelList b s p (levelSlots b live s p)
  price : ∀ x ∈ live, (b.pool x.2).price.toNat < maxTicks
  bit : ∀ s t, (b.bitset s).test t = true ↔
    t < maxTicks ∧ levelSlots b live s (BitVec.ofNat 32 t) ≠ []
  bitset : ∀ s, (b.bitset s).WellFormed
  orders : b.orders.WellFormed
  target : ∀ id v, b.orders.get id = some v →
    (taggedSide v, v &&& indexMask) ∈ live ∧
    (b.pool (v &&& indexMask)).orderReferenceNumber = id

theorem orderMapSize_pos : 0 < orderMapSize := by decide

theorem mem_levelSlots {b : LimitOrderBook} {live : List (Side × BitVec 32)} {s : Side}
    {p y : BitVec 32} : y ∈ levelSlots b live s p ↔ (s, y) ∈ live ∧ (b.pool y).price = p := by
  simp only [levelSlots, List.mem_map, List.mem_filter, decide_eq_true_eq]
  constructor
  · intro h
    obtain ⟨x, ⟨hx, hs, hp⟩, hy⟩ := h
    subst hs hy
    exact ⟨hx, hp⟩
  · intro h
    exact ⟨(s, y), ⟨h.1, rfl, h.2⟩, rfl⟩

theorem levelSlots_congr {b b' : LimitOrderBook} {live : List (Side × BitVec 32)}
    (h : ∀ x ∈ live, (b'.pool x.2).price = (b.pool x.2).price) (s : Side) (p : BitVec 32) :
    levelSlots b' live s p = levelSlots b live s p := by
  unfold levelSlots
  congr 1
  apply List.filter_congr
  intro x hx
  rw [h x hx]

theorem levelSlots_append (b : LimitOrderBook) (live : List (Side × BitVec 32)) (z : Side × BitVec 32)
    (s : Side) (p : BitVec 32) : levelSlots b (live ++ [z]) s p =
      levelSlots b live s p ++ if z.1 = s ∧ (b.pool z.2).price = p then [z.2] else [] := by
  unfold levelSlots
  rw [List.filter_append, List.map_append]
  by_cases h : z.1 = s ∧ (b.pool z.2).price = p <;> simp [h]

theorem levelSlots_filter (b : LimitOrderBook) (live : List (Side × BitVec 32)) (x : BitVec 32)
    (s : Side) (p : BitVec 32) : levelSlots b (live.filter fun y => y.2 ≠ x) s p =
      (levelSlots b live s p).filter fun y => y ≠ x := by
  unfold levelSlots
  rw [List.filter_map, List.filter_filter, List.filter_filter]
  congr 1
  apply List.filter_congr
  intro y _
  simp [Bool.and_comm]

section Facts
variable {maxOrders : Nat} {b : LimitOrderBook} {free : List (BitVec 32)}
  {live : List (Side × BitVec 32)}

theorem Layout.live_nodup (h : Layout maxOrders b free live) : (live.map Prod.snd).Nodup :=
  (List.nodup_append.mp h.nodup).2.1

theorem Layout.not_free_of_live (h : Layout maxOrders b free live) {s : Side} {x : BitVec 32}
    (hx : (s, x) ∈ live) : x ∉ free := by
  intro hf
  exact (List.nodup_append.mp h.nodup).2.2 x hf x (List.mem_map_of_mem hx) rfl

theorem Layout.live_lt (h : Layout maxOrders b free live) {s : Side} {x : BitVec 32}
    (hx : (s, x) ∈ live) : x.toNat < maxOrders :=
  (h.mem x).mp (List.mem_append_right free (List.mem_map_of_mem hx))

theorem Layout.side_unique (h : Layout maxOrders b free live) {s t : Side} {x : BitVec 32}
    (hs : (s, x) ∈ live) (ht : (t, x) ∈ live) : s = t :=
  congrArg Prod.fst (List.inj_on_of_nodup_map h.live_nodup hs ht rfl)

theorem nullIndex_not_lt (hn : maxOrders ≤ 2^31) : ¬ nullIndex.toNat < maxOrders := by
  have h : nullIndex.toNat = 2^32 - 1 := rfl
  omega

theorem Layout.ne_null_of_live (h : Layout maxOrders b free live) (hn : maxOrders ≤ 2^31)
    {s : Side} {x : BitVec 32} (hx : (s, x) ∈ live) : x ≠ nullIndex := by
  intro he
  exact nullIndex_not_lt hn (he ▸ h.live_lt hx)

theorem Layout.level_nodup (h : Layout maxOrders b free live) (s : Side) (p : BitVec 32) :
    (levelSlots b live s p).Nodup :=
  h.live_nodup.sublist (List.filter_sublist.map Prod.snd)

theorem Layout.null_not_mem_level (h : Layout maxOrders b free live) (hn : maxOrders ≤ 2^31)
    (s : Side) (p : BitVec 32) : nullIndex ∉ levelSlots b live s p := by
  intro hm
  exact h.ne_null_of_live hn (mem_levelSlots.mp hm).1 rfl

theorem Layout.level_unique (h : Layout maxOrders b free live) {s t : Side} {p q y : BitVec 32}
    (hp : y ∈ levelSlots b live s p) (hq : y ∈ levelSlots b live t q) : s = t ∧ p = q := by
  have h1 := mem_levelSlots.mp hp
  have h2 := mem_levelSlots.mp hq
  exact ⟨h.side_unique h1.1 h2.1, h1.2.symm.trans h2.2⟩

/-- The last slot of a nonempty level is linked there. -/
theorem Layout.tail_mem (h : Layout maxOrders b free live) {s : Side} {p : BitVec 32}
    (ht : (b.levels s p).tail ≠ nullIndex) :
    (b.levels s p).tail ∈ levelSlots b live s p := by
  rw [(h.level s p).tail] at ht ⊢
  apply getLastD_mem
  intro he
  rw [he] at ht
  exact ht rfl

theorem Layout.length (h : Layout maxOrders b free live) (hn : maxOrders ≤ 2^31) :
    free.length + live.length = maxOrders := by
  have hp : ((free ++ live.map Prod.snd).map BitVec.toNat).Perm (List.range maxOrders) := by
    rw [List.perm_ext_iff_of_nodup
      (h.nodup.map (fun _ _ he => BitVec.eq_of_toNat_eq he)) List.nodup_range]
    intro i
    rw [List.mem_map, List.mem_range]
    constructor
    · intro hi
      obtain ⟨x, hx, hxi⟩ := hi
      exact hxi ▸ (h.mem x).mp hx
    · intro hi
      have hto : (BitVec.ofNat 32 i).toNat = i := by
        rw [BitVec.toNat_ofNat, Nat.mod_eq_of_lt (by omega)]
      exact ⟨BitVec.ofNat 32 i, (h.mem _).mpr (hto.symm ▸ hi), hto⟩
  have hlen := hp.length_eq
  simpa using hlen

end Facts

theorem ofNat_eq_iff {t : Nat} (ht : t < maxTicks) (p : BitVec 32) :
    p = BitVec.ofNat 32 t ↔ t = p.toNat := by
  have hlt : t < 2^32 := ht.trans (by decide)
  constructor
  · intro h
    rw [h, BitVec.toNat_ofNat, Nat.mod_eq_of_lt hlt]
  · intro h
    rw [h, BitVec.ofNat_toNat, BitVec.setWidth_eq]

section Add
variable {maxOrders : Nat} {b b' : LimitOrderBook} {free : List (BitVec 32)}
  {live : List (Side × BitVec 32)} {x : BitVec 32} {side : Side} {order : NormalizedAddOrder}

theorem Layout.head_not_live (h : Layout maxOrders b (x::free) live) (s : Side) :
    (s, x) ∉ live := by
  intro hx
  exact h.not_free_of_live hx (List.mem_cons_self ..)

theorem Layout.tail_ne_head (h : Layout maxOrders b (x::free) live) (s : Side) (p : BitVec 32) :
    (b.levels s p).tail ≠ b.nextFreeIndex := by
  rw [h.freeChain.1]
  intro he
  by_cases ht : (b.levels s p).tail = nullIndex
  · exact h.freeChain.2.1 (he.symm.trans ht)
  · exact h.head_not_live s (he ▸ (mem_levelSlots.mp (h.tail_mem ht)).1)

theorem Added.prev (a : Added side order b b') {y : BitVec 32} (hy : y ≠ b.nextFreeIndex) :
    b'.prev y = b.prev y := by
  unfold LimitOrderBook.prev
  rw [a.pool y hy]
  split_ifs <;> rfl

theorem Added.price (a : Added side order b b') {y : BitVec 32} (hy : y ≠ b.nextFreeIndex) :
    (b'.pool y).price = (b.pool y).price := by
  rw [a.pool y hy]
  split_ifs <;> rfl

theorem Added.orderReferenceNumber (a : Added side order b b') {y : BitVec 32}
    (hy : y ≠ b.nextFreeIndex) :
    (b'.pool y).orderReferenceNumber = (b.pool y).orderReferenceNumber := by
  rw [a.pool y hy]
  split_ifs <;> rfl

theorem Added.shares (a : Added side order b b') {y : BitVec 32} (hy : y ≠ b.nextFreeIndex) :
    (b'.pool y).shares = (b.pool y).shares := by
  rw [a.pool y hy]
  split_ifs <;> rfl

theorem Added.next (a : Added side order b b') {y : BitVec 32} (hy : y ≠ b.nextFreeIndex)
    (hnull : y ≠ nullIndex) :
    b'.next y = if y = (b.levels side order.price).tail then b.nextFreeIndex else b.next y := by
  unfold LimitOrderBook.next
  rw [a.pool y hy]
  by_cases ht : y = (b.levels side order.price).tail
  · rw [if_pos ⟨ht, hnull⟩, if_pos ht]
  · rw [if_neg (fun h => ht h.1), if_neg ht]

theorem Layout.added_slots (h : Layout maxOrders b (x::free) live) (a : Added side order b b')
    (s : Side) (p : BitVec 32) : levelSlots b' (live ++ [(side, x)]) s p =
      levelSlots b live s p ++ if s = side ∧ p = order.price then [x] else [] := by
  have hx : b.nextFreeIndex = x := h.freeChain.1
  have hprice : (b'.pool x).price = order.price := by rw [← hx, a.fresh]
  rw [levelSlots_append, hprice]
  congr 1
  · apply levelSlots_congr
    intro z hz
    apply a.price
    rw [hx]
    intro he
    exact h.head_not_live z.1 (he ▸ hz)
  · simp only [eq_comm]

theorem Layout.added_level (h : Layout maxOrders b (x::free) live) (hn : maxOrders ≤ 2^31)
    (a : Added side order b b') (s : Side) (p : BitVec 32) :
    LevelList b' s p (levelSlots b' (live ++ [(side, x)]) s p) := by
  have hx : b.nextFreeIndex = x := h.freeChain.1
  have hold := h.level s p
  have hyx : ∀ y ∈ levelSlots b live s p, y ≠ b.nextFreeIndex := by
    intro y hy he
    rw [hx] at he
    exact h.head_not_live s (he ▸ (mem_levelSlots.mp hy).1)
  have hynull : ∀ y ∈ levelSlots b live s p, y ≠ nullIndex := fun y hy =>
    h.ne_null_of_live hn (mem_levelSlots.mp hy).1
  have hprev : ∀ y ∈ levelSlots b live s p, b'.prev y = b.prev y := fun y hy =>
    a.prev (hyx y hy)
  rw [h.added_slots a]
  by_cases hsp : s = side ∧ p = order.price
  · obtain ⟨hs, hp⟩ := hsp
    subst hs hp
    rw [if_pos ⟨rfl, rfl⟩]
    constructor
    · rw [a.levels, if_pos ⟨rfl, rfl⟩, headD_append, hold.head, hx]
      cases hl : levelSlots b live s order.price with
      | nil => rfl
      | cons y ys =>
        have hy : y ≠ nullIndex := hynull y (by simp [hl])
        simp [hy]
    · rw [a.levels, if_pos ⟨rfl, rfl⟩, getLastD_append, hx]
      rfl
    · refine hold.linked.push_back (h.level_nodup s order.price) ?_ hprev ?_ ?_
      · intro y hy
        rw [a.next (hyx y hy) (hynull y hy), hold.tail, hx]
      · rw [LimitOrderBook.next, ← hx, a.fresh]
      · rw [LimitOrderBook.prev, ← hx, a.fresh]
        exact hold.tail
  · rw [if_neg hsp, List.append_nil]
    refine ⟨?_, ?_, hold.linked.congr ?_ hprev⟩
    · rw [a.levels, if_neg hsp, hold.head]
    · rw [a.levels, if_neg hsp, hold.tail]
    · intro y hy
      rw [a.next (hyx y hy) (hynull y hy), if_neg]
      intro he
      have ht := h.tail_mem (he ▸ hynull y hy)
      exact hsp (h.level_unique hy (he ▸ ht))

theorem Layout.added_free (h : Layout maxOrders b (x::free) live) (a : Added side order b b') :
    Chain b'.next nullIndex b'.nextFreeIndex free := by
  have hx : b.nextFreeIndex = x := h.freeChain.1
  rw [a.free, hx]
  apply h.freeChain.2.2.congr
  intro y hy
  have hyx : y ≠ b.nextFreeIndex := by
    intro he
    rw [hx] at he
    exact (List.nodup_cons.mp (List.nodup_append.mp h.nodup).1).1 (he ▸ hy)
  have hynull : y ≠ nullIndex := fun he => h.freeChain.2.2.null_not_mem (he ▸ hy)
  rw [a.next hyx hynull, if_neg]
  intro he
  have ht := h.tail_mem (he ▸ hynull)
  exact h.not_free_of_live (mem_levelSlots.mp ht).1 (he ▸ List.mem_cons_of_mem x hy)

theorem Layout.added_bit (h : Layout maxOrders b (x::free) live) (a : Added side order b b')
    (hprice : order.price.toNat < maxTicks) (s : Side) (t : Nat) :
    (b'.bitset s).test t = true ↔
      t < maxTicks ∧ levelSlots b' (live ++ [(side, x)]) s (BitVec.ofNat 32 t) ≠ [] := by
  rw [h.added_slots a, a.bitset]
  by_cases hs : s = side
  · rw [if_pos hs, HierarchicalBitset.test_set, h.bit]
    by_cases ht : t < maxTicks
    · simp only [ht, hs, true_and, eq_comm, ofNat_eq_iff ht]
      by_cases hp : t = order.price.toNat <;> simp [hp]
    · have hp : t ≠ order.price.toNat := by omega
      simp [ht, hp]
  · rw [if_neg hs, h.bit]
    simp [hs]

theorem Layout.added (h : Layout maxOrders b (x::free) live) (hn : maxOrders ≤ 2^31)
    (a : Added side order b b') (hprice : order.price.toNat < maxTicks)
    (hw : b'.orders.WellFormed)
    (hget : ∀ id, b'.orders.get id =
      if id = order.orderReferenceNumber then some (taggedIdx side ||| x) else b.orders.get id) :
    Layout maxOrders b' free (live ++ [(side, x)]) := by
  have hx : b.nextFreeIndex = x := h.freeChain.1
  have hxlt : x.toNat < 2^31 := ((h.mem x).mp (by simp)).trans_le hn
  have hfresh : b'.pool x = _ := hx ▸ a.fresh
  have hperm : (free ++ (live ++ [(side, x)]).map Prod.snd).Perm
      (x::free ++ live.map Prod.snd) := by
    rw [List.map_append, ← List.append_assoc]
    exact List.perm_append_singleton x (free ++ live.map Prod.snd)
  have hlivex : ∀ z ∈ live, z.2 ≠ b.nextFreeIndex := by
    intro z hz he
    rw [hx] at he
    exact h.head_not_live z.1 (he ▸ hz)
  refine ⟨hperm.nodup_iff.mpr h.nodup, ?_, h.added_free a, h.added_level hn a, ?_,
    h.added_bit a hprice, ?_, hw, ?_⟩
  · intro i
    rw [hperm.mem_iff, h.mem]
  · intro z hz
    obtain hz | hz := List.mem_append.mp hz
    · rw [a.price (hlivex z hz)]
      exact h.price z hz
    · rw [List.mem_singleton.mp hz, hfresh]
      exact hprice
  · intro s
    rw [a.bitset]
    split_ifs
    · exact HierarchicalBitset.set_wellFormed _ _ (h.bitset s) (hprice.trans (by decide))
    · exact h.bitset s
  · intro id v hv
    rw [hget] at hv
    split_ifs at hv with hid
    · cases hv
      rw [taggedIdx_and_indexMask side hxlt, taggedSide_taggedIdx side hxlt, hfresh]
      exact ⟨by simp, hid.symm⟩
    · obtain ⟨hm, hr⟩ := h.target id v hv
      rw [a.orderReferenceNumber (hlivex _ hm)]
      exact ⟨List.mem_append_left _ hm, hr⟩

end Add

section Release
variable {maxOrders : Nat} {b b' : LimitOrderBook} {free : List (BitVec 32)}
  {live : List (Side × BitVec 32)} {x : BitVec 32} {side : Side}

theorem Released.price (r : Released side x b b') (y : BitVec 32) :
    (b'.pool y).price = (b.pool y).price := by
  by_cases hy : y = x
  · rw [hy, r.self]
  · rw [r.pool y hy]

theorem Released.orderReferenceNumber (r : Released side x b b') (y : BitVec 32) :
    (b'.pool y).orderReferenceNumber = (b.pool y).orderReferenceNumber := by
  by_cases hy : y = x
  · rw [hy, r.self]
  · rw [r.pool y hy]

theorem Released.shares (r : Released side x b b') (y : BitVec 32) :
    (b'.pool y).shares = (b.pool y).shares := by
  by_cases hy : y = x
  · rw [hy, r.self]
  · rw [r.pool y hy]

theorem Released.next (r : Released side x b b') {y : BitVec 32} (hy : y ≠ x)
    (hnull : y ≠ nullIndex) : b'.next y = if y = b.prev x then b.next x else b.next y := by
  unfold LimitOrderBook.next LimitOrderBook.prev
  rw [r.pool y hy]
  simp [hnull]

theorem Released.prev (r : Released side x b b') {y : BitVec 32} (hy : y ≠ x)
    (hnull : y ≠ nullIndex) : b'.prev y = if y = b.next x then b.prev x else b.prev y := by
  unfold LimitOrderBook.next LimitOrderBook.prev
  rw [r.pool y hy]
  simp [hnull]

/-- A linked slot splits its level; its links lead to the neighbouring halves. -/
theorem Layout.split (h : Layout maxOrders b free live) (hx : (side, x) ∈ live) :
    ∃ l m, levelSlots b live side (b.pool x).price = l ++ x::m ∧ x ∉ l ∧ x ∉ m ∧
      b.prev x = l.getLastD nullIndex ∧ b.next x = m.headD nullIndex := by
  obtain ⟨l, m, hl⟩ := List.append_of_mem (mem_levelSlots.mpr ⟨hx, rfl⟩)
  have hd := h.level_nodup side (b.pool x).price
  have hlink := (h.level side (b.pool x).price).linked
  rw [hl] at hd hlink
  rw [linked_append] at hlink
  obtain ⟨_, hdm, hdis⟩ := List.nodup_append.mp hd
  refine ⟨l, m, hl, ?_, (List.nodup_cons.mp hdm).1, hlink.2.1, hlink.2.2.1⟩
  intro hm
  exact hdis x hm x (by simp) rfl

/-- A link of a linked slot that is not null leads to a slot of the same level. -/
theorem Layout.neighbour_mem (h : Layout maxOrders b free live) (hx : (side, x) ∈ live)
    {y : BitVec 32} (hy : y = b.prev x ∨ y = b.next x) (hnull : y ≠ nullIndex) :
    y ∈ levelSlots b live side (b.pool x).price ∧ y ≠ x := by
  obtain ⟨l, m, hl, hxl, hxm, hp, hq⟩ := h.split hx
  rw [hl]
  obtain hy | hy := hy
  · rw [hy, hp] at hnull
    have hmem : y ∈ l := by
      rw [hy, hp]
      apply getLastD_mem
      intro he
      exact hnull (by rw [he]; rfl)
    exact ⟨List.mem_append_left _ hmem, fun he => hxl (he ▸ hmem)⟩
  · rw [hy, hq] at hnull
    have hmem : y ∈ m := by
      rw [hy, hq]
      apply headD_mem
      intro he
      exact hnull (by rw [he]; rfl)
    exact ⟨List.mem_append_right _ (List.mem_cons_of_mem x hmem), fun he => hxm (he ▸ hmem)⟩

theorem Layout.links_ne_self (h : Layout maxOrders b free live) (hn : maxOrders ≤ 2^31)
    (hx : (side, x) ∈ live) : (b.pool x).prev ≠ x ∧ (b.pool x).next ≠ x := by
  have hnull := h.ne_null_of_live hn hx
  constructor
  · intro he
    exact (h.neighbour_mem hx (Or.inl he.symm) hnull).2 rfl
  · intro he
    exact (h.neighbour_mem hx (Or.inr he.symm) hnull).2 rfl

theorem Layout.released_slots (r : Released side x b b') (s : Side) (p : BitVec 32) :
    levelSlots b' (live.filter fun y => y.2 ≠ x) s p =
      (levelSlots b live s p).filter fun y => y ≠ x := by
  rw [levelSlots_congr (fun z _ => r.price z.2), levelSlots_filter]

theorem filter_ne_of_not_mem {l : List (BitVec 32)} (h : x ∉ l) :
    (l.filter fun y => y ≠ x) = l := by
  rw [List.filter_eq_self]
  intro y hy
  simpa using fun he : y = x => h (he ▸ hy)

/-- The level the slot was linked in. -/
theorem Layout.released_level_own (h : Layout maxOrders b free live) (hn : maxOrders ≤ 2^31)
    (hx : (side, x) ∈ live) (r : Released side x b b') :
    LevelList b' side (b.pool x).price
      ((levelSlots b live side (b.pool x).price).filter fun y => y ≠ x) := by
  have hold := h.level side (b.pool x).price
  have hnull := h.null_not_mem_level hn side (b.pool x).price
  have hd := h.level_nodup side (b.pool x).price
  obtain ⟨l, m, hl, hxl, hxm, hp, hq⟩ := h.split hx
  rw [hl] at hold hnull hd ⊢
  have hfilter : ((l ++ x::m).filter fun y => y ≠ x) = l ++ m := by
    rw [List.filter_append, filter_ne_of_not_mem hxl, List.filter_cons_of_neg (by simp),
      filter_ne_of_not_mem hxm]
  have hyx : ∀ y ∈ l ++ m, y ≠ x := by
    intro y hy he
    exact (List.mem_append.mp hy).elim (fun hy => hxl (he ▸ hy)) (fun hy => hxm (he ▸ hy))
  have hsub : l ++ m ⊆ l ++ x::m := ((List.sublist_cons_self x m).append_left l).subset
  have hyn : ∀ y ∈ l ++ m, y ≠ nullIndex := fun y hy he => hnull (he ▸ hsub hy)
  rw [hfilter]
  constructor
  · rw [r.levels, if_pos ⟨rfl, rfl⟩, hold.head]
    cases l with
    | nil => exact (if_pos rfl).trans hq
    | cons z zs =>
      have hzx : z ≠ x := fun he => hxl (by simp [he])
      exact if_neg hzx
  · rw [r.levels, if_pos ⟨rfl, rfl⟩, hold.tail, getLastD_append, getLastD_append,
      List.getLastD_cons]
    by_cases hm : m = []
    · subst hm
      exact (if_pos rfl).trans hp
    · have hlast : ∀ a, m.getLastD a = m.getLast hm := by
        intro a
        rw [List.getLastD_eq_getLast?, List.getLast?_eq_some_getLast hm]
        rfl
      have hne : m.getLast hm ≠ x := fun he => hxm (he ▸ List.getLast_mem hm)
      rw [hlast, hlast]
      exact if_neg hne
  · exact hold.linked.unlink hd hnull (fun y hy => r.next (hyx y hy) (hyn y hy))
      (fun y hy => r.prev (hyx y hy) (hyn y hy))

/-- Every other level is as it was. -/
theorem Layout.released_level_other (h : Layout maxOrders b free live) (hn : maxOrders ≤ 2^31)
    (hx : (side, x) ∈ live) (r : Released side x b b') {s : Side} {p : BitVec 32}
    (hsp : ¬ (s = side ∧ p = (b.pool x).price)) : LevelList b' s p (levelSlots b live s p) := by
  have hold := h.level s p
  have hxmem : x ∈ levelSlots b live side (b.pool x).price := mem_levelSlots.mpr ⟨hx, rfl⟩
  have hyl : ∀ y ∈ levelSlots b live s p, y ∉ levelSlots b live side (b.pool x).price :=
    fun y hy hy' => hsp (h.level_unique hy hy')
  have hyx : ∀ y ∈ levelSlots b live s p, y ≠ x := fun y hy he => hyl y hy (he ▸ hxmem)
  have hyn : ∀ y ∈ levelSlots b live s p, y ≠ nullIndex := fun y hy =>
    h.ne_null_of_live hn (mem_levelSlots.mp hy).1
  refine ⟨?_, ?_, hold.linked.congr ?_ ?_⟩
  · rw [r.levels, if_neg hsp, hold.head]
  · rw [r.levels, if_neg hsp, hold.tail]
  · intro y hy
    rw [r.next (hyx y hy) (hyn y hy), if_neg]
    exact fun he => hyl y hy (h.neighbour_mem hx (Or.inl he) (hyn y hy)).1
  · intro y hy
    rw [r.prev (hyx y hy) (hyn y hy), if_neg]
    exact fun he => hyl y hy (h.neighbour_mem hx (Or.inr he) (hyn y hy)).1

/-- The slot is in no other level. -/
theorem Layout.released_slots_other (h : Layout maxOrders b free live) (hx : (side, x) ∈ live)
    (r : Released side x b b') {s : Side} {p : BitVec 32}
    (hsp : ¬ (s = side ∧ p = (b.pool x).price)) :
    levelSlots b' (live.filter fun y => y.2 ≠ x) s p = levelSlots b live s p := by
  rw [Layout.released_slots r, filter_ne_of_not_mem]
  exact fun hm => hsp (h.level_unique hm (mem_levelSlots.mpr ⟨hx, rfl⟩))

theorem Layout.released_level (h : Layout maxOrders b free live) (hn : maxOrders ≤ 2^31)
    (hx : (side, x) ∈ live) (r : Released side x b b') (s : Side) (p : BitVec 32) :
    LevelList b' s p (levelSlots b' (live.filter fun y => y.2 ≠ x) s p) := by
  by_cases hsp : s = side ∧ p = (b.pool x).price
  · rw [hsp.1, hsp.2, Layout.released_slots r]
    exact h.released_level_own hn hx r
  · rw [h.released_slots_other hx r hsp]
    exact h.released_level_other hn hx r hsp

theorem Layout.released_free (h : Layout maxOrders b free live) (hn : maxOrders ≤ 2^31)
    (hx : (side, x) ∈ live) (r : Released side x b b') :
    Chain b'.next nullIndex b'.nextFreeIndex (x::free) := by
  have hself : b'.next x = b.nextFreeIndex := by rw [LimitOrderBook.next, r.self]
  rw [r.free]
  refine ⟨rfl, h.ne_null_of_live hn hx, ?_⟩
  rw [hself]
  apply h.freeChain.congr
  intro y hy
  have hyx : y ≠ x := fun he => h.not_free_of_live hx (he ▸ hy)
  have hynull : y ≠ nullIndex := fun he => h.freeChain.null_not_mem (he ▸ hy)
  rw [r.next hyx hynull, if_neg]
  intro he
  have hnb := (h.neighbour_mem hx (Or.inl he) hynull).1
  exact h.not_free_of_live (mem_levelSlots.mp hnb).1 hy

/-- The bit of the level the slot was linked in says whether the level is still quoted. -/
theorem Layout.released_bit_own (h : Layout maxOrders b free live) (hn : maxOrders ≤ 2^31)
    (hx : (side, x) ∈ live) (r : Released side x b b') :
    (b'.bitset side).test (b.pool x).price.toNat = true ↔
      levelSlots b' (live.filter fun y => y.2 ≠ x) side (b.pool x).price ≠ [] := by
  have hprice := h.price (side, x) hx
  have hto : BitVec.ofNat 32 (b.pool x).price.toNat = (b.pool x).price :=
    ((ofNat_eq_iff hprice _).mpr rfl).symm
  have hset : (b.bitset side).test (b.pool x).price.toNat = true := by
    rw [h.bit, hto]
    exact ⟨hprice, List.ne_nil_of_mem (mem_levelSlots.mpr ⟨hx, rfl⟩)⟩
  rw [r.bitset, (h.released_level hn hx r side (b.pool x).price).head]
  cases hl : levelSlots b' (live.filter fun y => y.2 ≠ x) side (b.pool x).price with
  | nil =>
    rw [if_pos ⟨rfl, rfl⟩, HierarchicalBitset.test_clear]
    simp
  | cons z zs =>
    have hm : z ∈ levelSlots b' (live.filter fun y => y.2 ≠ x) side (b.pool x).price := by
      rw [hl]
      exact List.mem_cons_self
    have hz : (side, z) ∈ live := (List.mem_filter.mp (mem_levelSlots.mp hm).1).1
    rw [if_neg (fun hc => h.ne_null_of_live hn hz hc.2), hset]
    simp

theorem Layout.released_bit (h : Layout maxOrders b free live) (hn : maxOrders ≤ 2^31)
    (hx : (side, x) ∈ live) (r : Released side x b b') (s : Side) (t : Nat) :
    (b'.bitset s).test t = true ↔ t < maxTicks ∧
      levelSlots b' (live.filter fun y => y.2 ≠ x) s (BitVec.ofNat 32 t) ≠ [] := by
  have hprice := h.price (side, x) hx
  by_cases hst : s = side ∧ t = (b.pool x).price.toNat
  · obtain ⟨hs, ht⟩ := hst
    subst hs ht
    rw [h.released_bit_own hn hx r, ((ofNat_eq_iff hprice _).mpr rfl).symm]
    exact (and_iff_right hprice).symm
  · have htest : (b'.bitset s).test t = (b.bitset s).test t := by
      rw [r.bitset]
      split_ifs with hc
      · rw [Bool.eq_iff_iff, HierarchicalBitset.test_clear]
        exact and_iff_right (fun he => hst ⟨hc.1, he⟩)
      · rfl
    rw [htest, h.bit]
    apply and_congr_right
    intro ht
    rw [h.released_slots_other hx r fun hsp => hst ⟨hsp.1, (ofNat_eq_iff ht _).mp hsp.2.symm⟩]

theorem Layout.released (h : Layout maxOrders b free live) (hn : maxOrders ≤ 2^31)
    (hx : (side, x) ∈ live) (r : Released side x b b') :
    Layout maxOrders b' (x::free) (live.filter fun y => y.2 ≠ x) := by
  have hlive : ((live.filter fun y => y.2 ≠ x).map Prod.snd) =
      (live.map Prod.snd).filter fun y => y ≠ x := by
    rw [List.filter_map]
    rfl
  refine ⟨?_, ?_, h.released_free hn hx r, h.released_level hn hx r, ?_, h.released_bit hn hx r,
    ?_, ?_, ?_⟩
  · rw [hlive, List.cons_append, List.nodup_cons]
    refine ⟨by simp [h.not_free_of_live hx], ?_⟩
    exact h.nodup.sublist (List.filter_sublist.append_left free)
  · intro i
    rw [← h.mem, hlive]
    by_cases hi : i = x
    · simp [hi, List.mem_map_of_mem hx]
    · simp [hi]
  · intro z hz
    rw [r.price]
    exact h.price z (List.mem_filter.mp hz).1
  · intro s
    rw [r.bitset]
    split_ifs
    · exact HierarchicalBitset.clear_wellFormed _ _ (h.bitset s)
        ((h.price (side, x) hx).trans (by decide))
    · exact h.bitset s
  · rw [r.orders]
    exact StaticOrderMap.erase_wellFormed h.orders _
  · intro id v hv
    rw [r.orders, StaticOrderMap.get_erase h.orders orderMapSize_pos] at hv
    split_ifs at hv with hid
    obtain ⟨hm, href⟩ := h.target id v hv
    rw [r.orderReferenceNumber]
    refine ⟨List.mem_filter.mpr ⟨hm, ?_⟩, href⟩
    simp only [decide_eq_true_eq]
    intro he
    exact hid (by rw [← href, he])

end Release

/-- Nothing in the layout depends on share counts. -/
theorem Layout.setShares {maxOrders : Nat} {b : LimitOrderBook} {free : List (BitVec 32)}
    {live : List (Side × BitVec 32)} (h : Layout maxOrders b free live) (x : BitVec 32)
    (n : BitVec 32) :
    Layout maxOrders (b.modifyOrder x fun o => { o with shares := o.shares - n }) free live := by
  have hpool := fun y => setShares_pool b x y n
  have hnext : (b.modifyOrder x fun o => { o with shares := o.shares - n }).next = b.next := by
    funext y
    obtain ⟨_, hy⟩ := hpool y
    rw [LimitOrderBook.next, hy]
    rfl
  have hprev : (b.modifyOrder x fun o => { o with shares := o.shares - n }).prev = b.prev := by
    funext y
    obtain ⟨_, hy⟩ := hpool y
    rw [LimitOrderBook.prev, hy]
    rfl
  have hprice : ∀ y, ((b.modifyOrder x fun o => { o with shares := o.shares - n }).pool y).price =
      (b.pool y).price := by
    intro y
    obtain ⟨_, hy⟩ := hpool y
    rw [hy]
  have hslots := fun s p => levelSlots_congr (fun z (_ : z ∈ live) => hprice z.2) s p
  refine ⟨h.nodup, h.mem, ?_, ?_, ?_, ?_, h.bitset, h.orders, ?_⟩
  · rw [hnext]
    exact h.freeChain
  · intro s p
    rw [hslots]
    refine ⟨(h.level s p).head, (h.level s p).tail, ?_⟩
    rw [hnext, hprev]
    exact (h.level s p).linked
  · intro z hz
    rw [hprice]
    exact h.price z hz
  · intro s t
    rw [hslots]
    exact h.bit s t
  · intro id v hv
    obtain ⟨_, hy⟩ := hpool (v &&& indexMask)
    rw [hy]
    exact h.target id v hv

section Start

theorem linkPool_next (count i : Nat) (hi : i < 2^32) (hc : count ≤ 2^32) :
    ((linkPool count blank).pool (BitVec.ofNat 32 i)).next =
      if i < count then BitVec.ofNat 32 (i+1) else 0 := by
  induction count with
  | zero => rfl
  | succ count ih =>
    rw [linkPool, modifyOrder_pool]
    by_cases he : i = count
    · subst he
      simp
    · have hne : BitVec.ofNat 32 i ≠ BitVec.ofNat 32 count := by
        intro h
        have h' := congrArg BitVec.toNat h
        rw [BitVec.toNat_ofNat, BitVec.toNat_ofNat, Nat.mod_eq_of_lt hi,
          Nat.mod_eq_of_lt (by omega)] at h'
        exact he h'
      have hiff : i < count + 1 ↔ i < count := by omega
      rw [if_neg hne, ih (by omega)]
      simp only [hiff]

theorem new_next {maxOrders i : Nat} (hn : maxOrders ≤ 2^31) (hi : i < maxOrders) :
    (new maxOrders).next (BitVec.ofNat 32 i) =
      if i + 1 < maxOrders then BitVec.ofNat 32 (i+1) else nullIndex := by
  rw [LimitOrderBook.next, new, modifyOrder_pool]
  by_cases he : i = maxOrders - 1
  · have hlast : ¬ i + 1 < maxOrders := by omega
    rw [he, if_pos rfl, ← he, if_neg hlast]
  · have hne : BitVec.ofNat 32 i ≠ BitVec.ofNat 32 (maxOrders - 1) := by
      intro h
      have h' := congrArg BitVec.toNat h
      rw [BitVec.toNat_ofNat, BitVec.toNat_ofNat, Nat.mod_eq_of_lt (by omega),
        Nat.mod_eq_of_lt (by omega)] at h'
      exact he h'
    have h1 : i < maxOrders - 1 := by omega
    have h2 : i + 1 < maxOrders := by omega
    rw [if_neg hne, linkPool_next _ _ (by omega) (by omega), if_pos h1, if_pos h2]

theorem linkPool_frame (count : Nat) (b : LimitOrderBook) :
    (linkPool count b).levels = b.levels ∧ (linkPool count b).orders = b.orders ∧
    (linkPool count b).bitset = b.bitset ∧ (linkPool count b).nextFreeIndex = b.nextFreeIndex := by
  induction count with
  | zero => exact ⟨rfl, rfl, rfl, rfl⟩
  | succ count ih => exact ih

theorem new_chain {maxOrders : Nat} (hn : maxOrders ≤ 2^31) (k m : Nat) (h : k + m = maxOrders) :
    Chain (new maxOrders).next nullIndex (if m = 0 then nullIndex else BitVec.ofNat 32 k)
      ((List.range' k m).map (BitVec.ofNat 32)) := by
  induction m generalizing k with
  | zero => rfl
  | succ m ih =>
    have hnull : BitVec.ofNat 32 k ≠ nullIndex := by
      intro he
      have h' := congrArg BitVec.toNat he
      rw [BitVec.toNat_ofNat, Nat.mod_eq_of_lt (by omega)] at h'
      exact nullIndex_not_lt hn (h' ▸ by omega)
    refine ⟨rfl, hnull, ?_⟩
    have hnext : (new maxOrders).next (BitVec.ofNat 32 k) =
        if m = 0 then nullIndex else BitVec.ofNat 32 (k+1) := by
      rw [new_next hn (by omega)]
      by_cases hm : m = 0
      · rw [if_pos hm, if_neg (by omega)]
      · rw [if_neg hm, if_pos (by omega)]
    rw [hnext]
    exact ih (k+1) (by omega)

theorem Layout.new {maxOrders : Nat} (h1 : 1 ≤ maxOrders) (hn : maxOrders ≤ 2^31) :
    Layout maxOrders (new maxOrders) ((List.range' 0 maxOrders).map (BitVec.ofNat 32)) [] := by
  obtain ⟨hl, ho, hb, hf⟩ := linkPool_frame (maxOrders - 1) blank
  have hlevels : (LimitOrderBook.new maxOrders).levels = blank.levels := hl
  have horders : (LimitOrderBook.new maxOrders).orders = blank.orders := ho
  have hbitset : (LimitOrderBook.new maxOrders).bitset = blank.bitset := hb
  have hfree : (LimitOrderBook.new maxOrders).nextFreeIndex = 0 := hf
  constructor
  · rw [List.map_nil, List.append_nil]
    refine List.Nodup.map_on ?_ List.nodup_range'
    intro i hi j hj he
    rw [List.mem_range'_1] at hi hj
    have h' := congrArg BitVec.toNat he
    rw [BitVec.toNat_ofNat, BitVec.toNat_ofNat, Nat.mod_eq_of_lt (by omega),
      Nat.mod_eq_of_lt (by omega)] at h'
    exact h'
  · intro i
    rw [List.map_nil, List.append_nil, List.mem_map]
    constructor
    · intro h
      obtain ⟨j, hj, hji⟩ := h
      rw [List.mem_range'_1] at hj
      rw [← hji, BitVec.toNat_ofNat, Nat.mod_eq_of_lt (by omega)]
      omega
    · intro h
      refine ⟨i.toNat, ?_, by simp⟩
      rw [List.mem_range'_1]
      omega
  · have hc := new_chain hn 0 maxOrders (by omega)
    rw [if_neg (by omega)] at hc
    rw [hfree]
    exact hc
  · intro s p
    refine ⟨?_, ?_, trivial⟩ <;> rw [hlevels] <;> rfl
  · simp
  · intro s t
    have htest : (blank.bitset s).test t = false := HierarchicalBitset.new_test t
    rw [hbitset, htest]
    simp [levelSlots]
  · intro s
    rw [hbitset]
    exact HierarchicalBitset.new_wellFormed
  · rw [horders]
    exact StaticOrderMap.new_wellFormed
  · intro id v hv
    rw [horders] at hv
    obtain ⟨p, hp, _⟩ :=
      (StaticOrderMap.new_wellFormed.get_eq_some_iff orderMapSize_pos).mp hv
    cases hp.2

end Start

end MarketDataBook.LimitOrderBook
