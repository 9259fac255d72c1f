import MarketDataBook.OrphanedOrders
import Mathlib.Algebra.BigOperators.Group.List.Basic
import Mathlib.Data.List.Perm.Subperm

/-! Share accounting over a stream of decoded messages. A ledger of remaining shares is kept
beside the book; an 'X' message takes its stated shares off the ledger, and the whole order out
of the book. -/
namespace MarketDataBook
open LimitOrderBook

def NormalizedOrder.added : NormalizedOrder → Option (BitVec 64)
  | .addOrder order => some order.orderReferenceNumber
  | .executeOrder _ => none
  | .cancelOrder _ => none

def NormalizedOrder.sharesAdded (orderId : BitVec 64) : NormalizedOrder → Nat
  | .addOrder order => if order.orderReferenceNumber = orderId then order.shares.toNat else 0
  | .executeOrder _ => 0
  | .cancelOrder _ => 0

def NormalizedOrder.sharesRemoved (orderId : BitVec 64) : NormalizedOrder → Nat
  | .addOrder _ => 0
  | .executeOrder order => if order.orderReferenceNumber = orderId then order.shares.toNat else 0
  | .cancelOrder order => if order.orderReferenceNumber = orderId then order.shares.toNat else 0

def sharesAdded (done : List NormalizedOrder) (orderId : BitVec 64) : Nat :=
  (done.map (NormalizedOrder.sharesAdded orderId)).sum

def sharesRemoved (done : List NormalizedOrder) (orderId : BitVec 64) : Nat :=
  (done.map (NormalizedOrder.sharesRemoved orderId)).sum

def remainder (done : List NormalizedOrder) (orderId : BitVec 64) : Nat :=
  sharesAdded done orderId - sharesRemoved done orderId

def openOrders (done : List NormalizedOrder) : Nat :=
  ((done.filterMap NormalizedOrder.added).filter fun orderId => 0 < remainder done orderId).length

/-- The message that may follow `done`: an 'A' has a fresh number, positive shares, a price in
range and finds a free slot in the pool and in the order map, and an 'E' or an 'X' asks for no
more than remains. -/
def Follow (maxOrders : Nat) (done : List NormalizedOrder) : NormalizedOrder → Prop
  | .addOrder order => order.orderReferenceNumber ∉ done.filterMap NormalizedOrder.added ∧
      0 < order.shares.toNat ∧ order.price.toNat < maxTicks ∧ openOrders done < maxOrders ∧
      openOrders done < orderMapSize
  | .executeOrder order => order.shares.toNat ≤ remainder done order.orderReferenceNumber
  | .cancelOrder order => order.shares.toNat ≤ remainder done order.orderReferenceNumber

def WholeCancel (done : List NormalizedOrder) : NormalizedOrder → Prop
  | .addOrder _ => True
  | .executeOrder _ => True
  | .cancelOrder order => order.shares.toNat = remainder done order.orderReferenceNumber

instance decidableFollow (maxOrders : Nat) (done : List NormalizedOrder) :
    (o : NormalizedOrder) → Decidable (Follow maxOrders done o)
  | .addOrder _ => inferInstanceAs (Decidable (_ ∧ _ ∧ _ ∧ _ ∧ _))
  | .executeOrder _ => inferInstanceAs (Decidable (_ ≤ _))
  | .cancelOrder _ => inferInstanceAs (Decidable (_ ≤ _))

instance decidableWholeCancel (done : List NormalizedOrder) :
    (o : NormalizedOrder) → Decidable (WholeCancel done o)
  | .addOrder _ => isTrue trivial
  | .executeOrder _ => isTrue trivial
  | .cancelOrder _ => inferInstanceAs (Decidable (_ = _))

structure Dispatched where
  book : LimitOrderBook
  done : List NormalizedOrder

def Dispatched.dispatch (s : Dispatched) (order : NormalizedOrder) : Dispatched :=
  ⟨s.book.after (dispatchTable order), s.done ++ [order]⟩

def RestingWith (maxOrders : Nat) (b : LimitOrderBook) (orderId : BitVec 64) (shares : BitVec 32) :
    Prop :=
  ∃ s p i, OnLevel maxOrders b s p i ∧ (b.pool i).orderReferenceNumber = orderId ∧
    (b.pool i).shares = shares

/-- Every order rests exactly if shares remain of it, and then with these shares. -/
def SharesAccounted (maxOrders : Nat) (s : Dispatched) : Prop :=
  ∀ orderId shares, RestingWith maxOrders s.book orderId shares ↔
    0 < shares.toNat ∧ shares.toNat = remainder s.done orderId

structure Accounted (ref : ReferenceBook) (ledger : BitVec 64 → Nat) : Prop where
  nodup : (ref.map Resting.id).Nodup
  shares : ∀ r ∈ ref, 0 < ledger r.id ∧ r.shares.toNat = ledger r.id
  resting : ∀ orderId, 0 < ledger orderId → ∃ r ∈ ref, r.id = orderId

section Ledger
variable {ref : ReferenceBook} {ledger : BitVec 64 → Nat}

theorem Accounted.absent (h : Accounted ref ledger) {orderId : BitVec 64}
    (hz : ledger orderId = 0) : ∀ r ∈ ref, r.id ≠ orderId := by
  intro r hr he
  have hpos := (h.shares r hr).1
  rw [he, hz] at hpos
  exact Nat.lt_irrefl 0 hpos

theorem Accounted.add (h : Accounted ref ledger) {r : Resting} (hz : ledger r.id = 0)
    (hpos : 0 < r.shares.toNat) :
    Accounted (ref ++ [r]) (Function.update ledger r.id r.shares.toNat) where
  nodup := by
    rw [List.map_append, List.map_singleton, List.nodup_append_comm]
    refine List.nodup_cons.mpr ⟨?_, h.nodup⟩
    intro hm
    obtain ⟨q, hq, he⟩ := List.mem_map.mp hm
    exact h.absent hz q hq he
  shares := by
    intro q hq
    obtain hq | hq := List.mem_append.mp hq
    · rw [Function.update_of_ne (h.absent hz q hq)]
      exact h.shares q hq
    · rw [List.mem_singleton.mp hq, Function.update_self]
      exact ⟨hpos, rfl⟩
  resting := by
    intro orderId ho
    by_cases he : orderId = r.id
    · exact ⟨r, by simp, he.symm⟩
    · rw [Function.update_of_ne he] at ho
      obtain ⟨q, hq, hid⟩ := h.resting orderId ho
      exact ⟨q, List.mem_append_left _ hq, hid⟩

theorem Accounted.cancel (h : Accounted ref ledger) (orderId : BitVec 64) :
    Accounted (ref.cancel orderId) (Function.update ledger orderId 0) where
  nodup := h.nodup.sublist (List.filter_sublist.map _)
  shares := by
    intro r hr
    obtain ⟨hr, hne⟩ := List.mem_filter.mp hr
    rw [Function.update_of_ne (of_decide_eq_true hne)]
    exact h.shares r hr
  resting := by
    intro orderId' ho
    by_cases he : orderId' = orderId
    · rw [he, Function.update_self] at ho
      exact absurd ho (Nat.lt_irrefl 0)
    · rw [Function.update_of_ne he] at ho
      obtain ⟨r, hr, rfl⟩ := h.resting orderId' ho
      exact ⟨r, List.mem_filter.mpr ⟨hr, decide_eq_true he⟩, rfl⟩

theorem Accounted.reduce (h : Accounted ref ledger) {orderId : BitVec 64} {n : BitVec 32}
    (hn : n.toNat < ledger orderId) :
    Accounted (ref.reduce orderId n)
      (Function.update ledger orderId (ledger orderId - n.toNat)) where
  nodup := by
    have hid : (ref.reduce orderId n).map Resting.id = ref.map Resting.id := by
      rw [ReferenceBook.reduce, List.map_map]
      apply List.map_congr_left
      intro r _
      rw [Function.comp_apply]
      split_ifs <;> rfl
    rw [hid]
    exact h.nodup
  shares := by
    intro r hr
    obtain ⟨q, hq, rfl⟩ := List.mem_map.mp hr
    obtain ⟨hpos, hs⟩ := h.shares q hq
    by_cases he : q.id = orderId
    · rw [if_pos he]
      dsimp only
      rw [he, Function.update_self]
      rw [he] at hs
      have hle : n ≤ q.shares := by
        rw [BitVec.le_def]
        omega
      rw [BitVec.toNat_sub_of_le hle]
      omega
    · rw [if_neg he, Function.update_of_ne he]
      exact ⟨hpos, hs⟩
  resting := by
    intro orderId' ho
    have hpos : 0 < ledger orderId' := by
      by_cases he : orderId' = orderId
      · rw [he]
        omega
      · rwa [Function.update_of_ne he] at ho
    obtain ⟨r, hr, rfl⟩ := h.resting orderId' hpos
    refine ⟨_, List.mem_map_of_mem hr, ?_⟩
    split_ifs <;> rfl

/-- An execution for no more than remains takes its shares off. -/
theorem Accounted.execute (h : Accounted ref ledger) {order : NormalizedOrderExecuted}
    (hn : order.shares.toNat ≤ ledger order.orderReferenceNumber) :
    Accounted (ref.execute order).1 (Function.update ledger order.orderReferenceNumber
      (ledger order.orderReferenceNumber - order.shares.toNat)) := by
  rw [ReferenceBook.execute]
  cases hf : ref.find? fun r => r.id = order.orderReferenceNumber with
  | none =>
    have hz : ledger order.orderReferenceNumber = 0 := by
      by_contra hne
      obtain ⟨r, hr, he⟩ := h.resting _ (Nat.pos_of_ne_zero hne)
      exact List.find?_eq_none.mp hf r hr (decide_eq_true he)
    rw [hz, Nat.zero_sub, ← hz, Function.update_eq_self]
    exact h
  | some r =>
    have hid : r.id = order.orderReferenceNumber := by simpa using List.find?_some hf
    obtain ⟨hpos, hs⟩ := h.shares r (List.mem_of_find?_eq_some hf)
    rw [hid] at hs
    have hlt : ¬ r.shares < order.shares := by
      rw [BitVec.lt_def]
      omega
    dsimp only
    rw [if_neg hlt]
    split_ifs with he
    · rw [he] at hs
      rw [← hs, Nat.sub_self]
      exact h.cancel _
    · have hne : r.shares.toNat ≠ order.shares.toNat := mt BitVec.eq_of_toNat_eq he
      exact h.reduce (by omega)

end Ledger

section Remainder
variable {done : List NormalizedOrder} {orderId : BitVec 64}

theorem sharesAdded_append (done : List NormalizedOrder) (o : NormalizedOrder)
    (orderId : BitVec 64) :
    sharesAdded (done ++ [o]) orderId = sharesAdded done orderId + o.sharesAdded orderId := by
  simp [sharesAdded]

theorem sharesRemoved_append (done : List NormalizedOrder) (o : NormalizedOrder)
    (orderId : BitVec 64) :
    sharesRemoved (done ++ [o]) orderId = sharesRemoved done orderId + o.sharesRemoved orderId := by
  simp [sharesRemoved]

theorem sharesAdded_eq_zero (h : orderId ∉ done.filterMap NormalizedOrder.added) :
    sharesAdded done orderId = 0 := by
  rw [sharesAdded, List.sum_eq_zero]
  intro n hn
  obtain ⟨o, ho, rfl⟩ := List.mem_map.mp hn
  cases o with
  | addOrder order =>
    have hne : order.orderReferenceNumber ≠ orderId := fun he =>
      h (List.mem_filterMap.mpr ⟨_, ho, congrArg some he⟩)
    exact if_neg hne
  | executeOrder order => rfl
  | cancelOrder order => rfl

def Covered (done : List NormalizedOrder) : Prop :=
  ∀ orderId, sharesRemoved done orderId ≤ sharesAdded done orderId

theorem Covered.remove (h : Covered done) {o : NormalizedOrder} {number : BitVec 64} {n : Nat}
    (ha : ∀ orderId, o.sharesAdded orderId = 0)
    (hr : ∀ orderId, o.sharesRemoved orderId = if number = orderId then n else 0)
    (hn : n ≤ remainder done number) : Covered (done ++ [o]) := by
  intro orderId
  have hid := h orderId
  rw [sharesAdded_append, sharesRemoved_append, ha, hr]
  split_ifs with he
  · rw [remainder, he] at hn
    omega
  · exact hid

theorem Covered.append {maxOrders : Nat} (h : Covered done) {o : NormalizedOrder}
    (hf : Follow maxOrders done o) : Covered (done ++ [o]) := by
  cases o with
  | addOrder order =>
    intro orderId
    rw [sharesAdded_append, sharesRemoved_append, NormalizedOrder.sharesRemoved]
    exact (h orderId).trans (Nat.le_add_right _ _)
  | executeOrder order => exact h.remove (fun _ => rfl) (fun _ => rfl) hf
  | cancelOrder order => exact h.remove (fun _ => rfl) (fun _ => rfl) hf

theorem remainder_eq_zero (h : orderId ∉ done.filterMap NormalizedOrder.added) :
    remainder done orderId = 0 := by
  rw [remainder, sharesAdded_eq_zero h, Nat.zero_sub]

theorem remainder_add (hc : Covered done) {order : NormalizedAddOrder}
    (h : order.orderReferenceNumber ∉ done.filterMap NormalizedOrder.added) :
    remainder (done ++ [.addOrder order]) =
      Function.update (remainder done) order.orderReferenceNumber order.shares.toNat := by
  funext orderId
  rw [remainder, sharesAdded_append, sharesRemoved_append, NormalizedOrder.sharesAdded,
    NormalizedOrder.sharesRemoved]
  by_cases he : order.orderReferenceNumber = orderId
  · have ha := sharesAdded_eq_zero h
    have hr := hc order.orderReferenceNumber
    rw [he] at ha hr
    rw [if_pos he, he, Function.update_self]
    omega
  · rw [if_neg he, Function.update_of_ne (Ne.symm he)]
    rfl

/-- Taking shares off the ledger, for an 'E' and an 'X' alike. -/
theorem remainder_remove {o : NormalizedOrder} {number : BitVec 64} {n : Nat}
    (ha : ∀ orderId, o.sharesAdded orderId = 0)
    (hr : ∀ orderId, o.sharesRemoved orderId = if number = orderId then n else 0) :
    remainder (done ++ [o]) = Function.update (remainder done) number (remainder done number - n) := by
  funext orderId
  rw [remainder, sharesAdded_append, sharesRemoved_append, ha, hr]
  by_cases he : number = orderId
  · rw [if_pos he, he, Function.update_self, remainder]
    omega
  · rw [if_neg he, Function.update_of_ne (Ne.symm he)]
    rfl

/-- The reference book has no more orders than the ledger has open ones. -/
theorem Accounted.length_le {ref : ReferenceBook} (h : Accounted ref (remainder done)) :
    ref.length ≤ openOrders done := by
  have hsub : ref.map Resting.id ⊆
      (done.filterMap NormalizedOrder.added).filter fun orderId => 0 < remainder done orderId := by
    intro orderId ho
    obtain ⟨r, hr, rfl⟩ := List.mem_map.mp ho
    have hpos := (h.shares r hr).1
    have hmem : r.id ∈ done.filterMap NormalizedOrder.added := by
      by_contra hn
      rw [remainder_eq_zero hn] at hpos
      exact Nat.lt_irrefl 0 hpos
    exact List.mem_filter.mpr ⟨hmem, decide_eq_true hpos⟩
  have hle := (h.nodup.subperm hsub).length_le
  rwa [List.length_map] at hle

end Remainder

theorem LimitOrderBook.Simulates.restingWith_iff {maxOrders : Nat} {b : LimitOrderBook}
    {ref : ReferenceBook} (s : Simulates maxOrders b ref) (hn : maxOrders ≤ 2^31)
    {orderId : BitVec 64} {shares : BitVec 32} :
    RestingWith maxOrders b orderId shares ↔ ∃ r ∈ ref, r.id = orderId ∧ r.shares = shares := by
  obtain ⟨free, live, h, _, rfl⟩ := s
  constructor
  · intro ⟨s, p, i, hi, hid, hs⟩
    exact ⟨_, List.mem_map_of_mem ((h.onLevel_iff hn).mp hi).1, hid, hs⟩
  · intro ⟨r, hr, hid, hs⟩
    obtain ⟨x, hx, rfl⟩ := List.mem_map.mp hr
    exact ⟨x.1, _, x.2, (h.onLevel_iff hn).mpr ⟨hx, rfl⟩, hid, hs⟩

def Balanced (maxOrders : Nat) (s : Dispatched) : Prop :=
  ∃ ref, Simulates maxOrders s.book ref ∧ Accounted ref (remainder s.done) ∧ Covered s.done

section Stream
variable {maxOrders : Nat} {s : Dispatched} {o : NormalizedOrder}

theorem Balanced.new (h1 : 1 ≤ maxOrders) (hn : maxOrders ≤ 2^31) :
    Balanced maxOrders ⟨.new maxOrders, []⟩ := by
  refine ⟨[], Simulates.new h1 hn, ⟨List.nodup_nil, ?_, ?_⟩, fun _ => Nat.le_refl 0⟩
  · exact fun r hr => absurd hr List.not_mem_nil
  · exact fun _ hpos => absurd hpos (Nat.lt_irrefl 0)

theorem Balanced.sharesAccounted (h : Balanced maxOrders s) (hn : maxOrders ≤ 2^31) :
    SharesAccounted maxOrders s := by
  obtain ⟨ref, hs, ha, _⟩ := h
  intro orderId shares
  rw [hs.restingWith_iff hn]
  constructor
  · intro ⟨r, hr, hid, he⟩
    obtain ⟨hpos, hsh⟩ := ha.shares r hr
    rw [hid, he] at hsh
    rw [hid] at hpos
    exact ⟨hsh ▸ hpos, hsh⟩
  · intro ⟨hpos, hsh⟩
    obtain ⟨r, hr, hid⟩ := ha.resting orderId (hsh ▸ hpos)
    refine ⟨r, hr, hid, ?_⟩
    apply BitVec.eq_of_toNat_eq
    rw [(ha.shares r hr).2, hid, hsh]

theorem Balanced.dispatch (h : Balanced maxOrders s) (hn : maxOrders ≤ 2^31)
    (hf : Follow maxOrders s.done o) (hw : WholeCancel s.done o) :
    Balanced maxOrders (s.dispatch o) := by
  obtain ⟨ref, hs, ha, hc⟩ := h
  have hc' : Covered (s.done ++ [o]) := hc.append hf
  cases o with
  | addOrder order =>
    obtain ⟨hfresh, hpos, hprice, hopen, hmap⟩ := hf
    have hz := remainder_eq_zero hfresh
    have hlen := ha.length_le
    have hroom : ¬ (maxTicks ≤ order.price.toNat ∨ maxOrders ≤ ref.length) := by omega
    have hstep := (hs.addOrder hn (fun _ => hlen.trans_lt hmap) order fun _ _ => ha.absent hz).2
    refine ⟨_, hstep, ?_, hc'⟩
    rw [Dispatched.dispatch, remainder_add hc hfresh, ReferenceBook.add, if_neg hroom]
    exact ha.add (r := order.resting) hz hpos
  | executeOrder order =>
    have hstep := (hs.executeOrder hn order).2
    refine ⟨_, hstep, ?_, hc'⟩
    rw [Dispatched.dispatch, remainder_remove (fun _ => rfl) fun _ => rfl]
    exact ha.execute hf
  | cancelOrder order =>
    have hall : order.shares.toNat = remainder s.done order.orderReferenceNumber := hw
    have hstep := hs.cancelOrder hn order.orderReferenceNumber
    refine ⟨_, hstep, ?_, hc'⟩
    rw [Dispatched.dispatch, remainder_remove (fun _ => rfl) fun _ => rfl, ← hall, Nat.sub_self]
    exact ha.cancel _

/-- An 'X' for less than remains leaves nothing of the order in the book. -/
theorem Balanced.cancel_part (h : Balanced maxOrders s) (hn : maxOrders ≤ 2^31)
    (hf : Follow maxOrders s.done o) (hw : ¬ WholeCancel s.done o) :
    ¬ SharesAccounted maxOrders (s.dispatch o) := by
  obtain ⟨ref, hs, ha, hc⟩ := h
  cases o with
  | addOrder order => exact absurd trivial hw
  | executeOrder order => exact absurd trivial hw
  | cancelOrder order =>
    have hle : order.shares.toNat ≤ remainder s.done order.orderReferenceNumber := hf
    have hne : order.shares.toNat ≠ remainder s.done order.orderReferenceNumber := hw
    obtain ⟨r, hr, hid⟩ := ha.resting order.orderReferenceNumber (by omega)
    have hshares := (ha.shares r hr).2
    rw [hid] at hshares
    have hlt := r.shares.isLt
    have hstep := hs.cancelOrder hn order.orderReferenceNumber
    intro hacc
    have hrest := (hacc order.orderReferenceNumber (r.shares - order.shares)).mpr ?_
    · obtain ⟨q, hq, hqid, _⟩ := (hstep.restingWith_iff hn).mp hrest
      exact of_decide_eq_true (List.mem_filter.mp hq).2 hqid
    · have hsub : order.shares ≤ r.shares := by
        rw [BitVec.le_def]
        omega
      rw [Dispatched.dispatch, remainder_remove (fun _ => rfl) fun _ => rfl, Function.update_self,
        BitVec.toNat_sub_of_le hsub]
      omega

end Stream

/-- Over any stream the feed may send, the shares are accounted for after every message if and
only if every 'X' asks for all that remains of its order. -/
theorem sharesAccounted_iff_wholeCancels (maxOrders : Nat) (h1 : 1 ≤ maxOrders)
    (hn : maxOrders ≤ 2^31) (stream : List NormalizedOrder)
    (hf : StepRun.Along Dispatched.dispatch (fun s => Follow maxOrders s.done)
      ⟨.new maxOrders, []⟩ stream) :
    (∀ k, SharesAccounted maxOrders
      ((stream.take k).foldl Dispatched.dispatch ⟨.new maxOrders, []⟩)) ↔
    StepRun.Along Dispatched.dispatch (fun s => WholeCancel s.done) ⟨.new maxOrders, []⟩ stream := by
  apply StepRun.visited_iff_along_of_legal hf (Balanced.new h1 hn)
  · exact fun _ h => h.sharesAccounted hn
  · exact fun _ _ h hv hp => h.dispatch hn hv hp
  · exact fun _ _ h hv hp => h.cancel_part hn hv hp

theorem sharesAccounted_filled_and_cancelled :
    remainder [.addOrder (.plain 66#8 1 7 10), .executeOrder ⟨0, 1, 0, 4, 0, 0⟩] 1 = 6 ∧
    SharesAccounted 1 (([.addOrder (.plain 66#8 1 7 10), .executeOrder ⟨0, 1, 0, 4, 0, 0⟩,
      .cancelOrder ⟨0, 1, 6, 0, 0⟩].take 2).foldl Dispatched.dispatch ⟨.new 1, []⟩) :=
  ⟨by decide +kernel, (sharesAccounted_iff_wholeCancels 1 (by decide) (by decide)
    [.addOrder (.plain 66#8 1 7 10), .executeOrder ⟨0, 1, 0, 4, 0, 0⟩,
      .cancelOrder ⟨0, 1, 6, 0, 0⟩] (by decide +kernel)).mpr (by decide +kernel) 2⟩

/-- Ten shares added and four cancelled: the feed says six remain, the book has none. -/
theorem part_cancelled_order_gone :
    StepRun.Along Dispatched.dispatch (fun s => Follow 1 s.done) ⟨.new 1, []⟩
      [.addOrder (.plain 66#8 1 7 10), .cancelOrder ⟨0, 1, 4, 0, 0⟩] ∧
    remainder [.addOrder (.plain 66#8 1 7 10), .cancelOrder ⟨0, 1, 4, 0, 0⟩] 1 = 6 ∧
    ¬ SharesAccounted 1 ([.addOrder (.plain 66#8 1 7 10), .cancelOrder ⟨0, 1, 4, 0, 0⟩].foldl
      Dispatched.dispatch ⟨.new 1, []⟩) := by
  have hadd : Balanced 1 (Dispatched.dispatch ⟨.new 1, []⟩ (.addOrder (.plain 66#8 1 7 10))) :=
    (Balanced.new (by decide) (by decide)).dispatch (by decide) (by decide +kernel) trivial
  exact ⟨by decide +kernel, by decide +kernel,
    hadd.cancel_part (by decide) (by decide +kernel) (by decide +kernel)⟩

end MarketDataBook
