import MarketDataBook.BookRefinement

/-! Reused reference numbers. The order map keeps one entry per number, so an add that
reuses a resting number leaves the older slot linked with no entry leading to it; this is
the only way an order can be orphaned. -/
namespace MarketDataBook.LimitOrderBook
open IndexChain

def OnLevel (maxOrders : Nat) (b : LimitOrderBook) (s : Side) (p i : BitVec 32) : Prop :=
  p.toNat < maxTicks ∧
    ∃ l, walk b.next nullIndex maxOrders (b.levels s p).head = some l ∧ i ∈ l

/-- Every slot linked in a price level is the target of the map's entry for its number. -/
def NoneOrphaned (maxOrders : Nat) (b : LimitOrderBook) : Prop :=
  ∀ s p i, OnLevel maxOrders b s p i → ∃ v,
    b.orders.get (b.pool i).orderReferenceNumber = some v ∧ v &&& indexMask = i

/-- An add the book accepts although a linked slot carries its reference number. -/
def Reuses (maxOrders : Nat) (b : LimitOrderBook) : BookCall → Prop
  | .add order => order.price.toNat < maxTicks ∧ b.nextFreeIndex ≠ nullIndex ∧
      ∃ s p i, OnLevel maxOrders b s p i ∧
        (b.pool i).orderReferenceNumber = order.orderReferenceNumber
  | .cancel _ => False
  | .execute _ => False

def Emptied (maxOrders : Nat) (b : LimitOrderBook) : Prop :=
  b.getBestBid = npos ∧ b.getBestOffer = npos ∧
    ∃ l, walk b.next nullIndex maxOrders b.nextFreeIndex = some l ∧
      ∀ i, i ∈ l ↔ i.toNat < maxOrders

section Layouts
variable {maxOrders : Nat} {b : LimitOrderBook} {free : List (BitVec 32)}
  {live : List (Side × BitVec 32)}

theorem Layout.onLevel_iff (h : Layout maxOrders b free live) (hn : maxOrders ≤ 2^31) {s : Side}
    {p i : BitVec 32} :
    OnLevel maxOrders b s p i ↔ (s, i) ∈ live ∧ (b.pool i).price = p := by
  rw [← mem_levelSlots]
  constructor
  · intro ⟨hp, l, hl, hi⟩
    rw [h.walk_level hn s hp] at hl
    exact Option.some.inj hl ▸ hi
  · intro hi
    obtain ⟨hlive, rfl⟩ := mem_levelSlots.mp hi
    exact ⟨h.price _ hlive, _, h.walk_level hn s (h.price _ hlive), hi⟩

theorem Layout.noneOrphaned_iff (h : Layout maxOrders b free live) (hn : maxOrders ≤ 2^31) :
    NoneOrphaned maxOrders b ↔ NoOrphan b live := by
  constructor
  · intro hno x hx
    exact hno x.1 _ x.2 ((h.onLevel_iff hn).mpr ⟨hx, rfl⟩)
  · intro o s p i hi
    exact o (s, i) ((h.onLevel_iff hn).mp hi).1

theorem Layout.admits_of_not_reuses (h : Layout maxOrders b free live) (hn : maxOrders ≤ 2^31)
    {c : BookCall} (hr : ¬ Reuses maxOrders b c) : (b.view live).Admits maxOrders c := by
  cases c with
  | add order =>
    intro hp hl r hrm he
    obtain ⟨x, hx, rfl⟩ := List.mem_map.mp hrm
    refine hr ⟨hp, ?_, x.1, _, x.2, (h.onLevel_iff hn).mpr ⟨hx, rfl⟩, he⟩
    intro hnull
    have hlen := h.length hn
    rw [view, List.length_map] at hl
    rw [h.freeChain.eq_nil_iff.mpr hnull, List.length_nil] at hlen
    omega
  | cancel id => trivial
  | execute order => trivial

/-- The reused number's older slot is left linked with no entry. -/
theorem Layout.orphaned_of_reuses (h : Layout maxOrders b free live)
    (hn : maxOrders ≤ orderMapSize) {c : BookCall} (hr : Reuses maxOrders b c) :
    ¬ NoneOrphaned maxOrders (b.after c) := by
  have h31 : maxOrders ≤ 2^31 := hn.trans (by decide)
  cases c with
  | add order =>
    obtain ⟨hp, hfree, s, p, i, hi, hid⟩ := hr
    obtain ⟨x, free, rfl⟩ :=
      List.exists_cons_of_ne_nil (fun he => hfree (h.freeChain.eq_nil_iff.mp he))
    obtain ⟨b', hb', hadd, hget, hl⟩ :=
      addOrder_accepted h h31 order (Or.inr (h.room (h.length_lt hn))) hp
    have hlive := ((h.onLevel_iff h31).mp hi).1
    have hid' : (b'.pool i).orderReferenceNumber = order.orderReferenceNumber :=
      (congrArg Resting.id (h.added_resting hadd hlive)).trans hid
    have hxlt : x.toNat < 2^31 := lt_of_lt_of_le ((h.mem x).mp (by simp)) h31
    rw [after, LimitOrderBook.step, hb', hl.noneOrphaned_iff h31]
    intro o
    obtain ⟨v, hv, hvi⟩ := o (s, i) (List.mem_append_left _ hlive)
    rw [hid', hget, if_pos rfl, Option.some.injEq] at hv
    rw [← hv, taggedIdx_and_indexMask order.side hxlt] at hvi
    exact h.head_not_live s (hvi ▸ hlive)
  | cancel id => exact hr.elim
  | execute order => exact hr.elim

end Layouts

section Runs
variable {maxOrders : Nat} {b : LimitOrderBook} {ref : ReferenceBook}

theorem Simulates.noneOrphaned (s : Simulates maxOrders b ref) (hn : maxOrders ≤ 2^31) :
    NoneOrphaned maxOrders b := by
  obtain ⟨free, live, h, o, _⟩ := s
  exact (h.noneOrphaned_iff hn).mpr o

theorem Simulates.step_of_not_reuses (s : Simulates maxOrders b ref)
    (hn : maxOrders ≤ orderMapSize) {c : BookCall} (hr : ¬ Reuses maxOrders b c) :
    Simulates maxOrders (b.after c) (ref.after maxOrders c) := by
  have hadm : ref.Admits maxOrders c := by
    obtain ⟨free, live, h, _, rfl⟩ := s
    exact h.admits_of_not_reuses (hn.trans (by decide)) hr
  exact (s.step hn hadm).2

theorem Simulates.run_of_no_reuse (s : Simulates maxOrders b ref) (hn : maxOrders ≤ orderMapSize)
    {calls : List BookCall}
    (hr : StepRun.Along after (fun b c => ¬ Reuses maxOrders b c) b calls) :
    Simulates maxOrders (calls.foldl after b) (calls.foldl (ReferenceBook.after maxOrders) ref) := by
  induction calls generalizing b ref with
  | nil => exact s
  | cons c cs ih => exact ih (s.step_of_not_reuses hn hr.1) hr.2

theorem Simulates.not_reuses_of_fresh (s : Simulates maxOrders b ref) (hn : maxOrders ≤ 2^31)
    {c : BookCall} (hf : ref.Fresh c) : ¬ Reuses maxOrders b c := by
  obtain ⟨free, live, h, _, rfl⟩ := s
  cases c with
  | add order =>
    rintro ⟨-, -, side, p, i, hi, hid⟩
    exact hf _ (List.mem_map_of_mem ((h.onLevel_iff hn).mp hi).1) hid
  | cancel id => exact not_false
  | execute order => exact not_false

theorem Simulates.no_reuse_of_freshAdds (s : Simulates maxOrders b ref)
    (hn : maxOrders ≤ orderMapSize) {calls : List BookCall}
    (hf : ref.FreshAdds maxOrders calls) :
    StepRun.Along after (fun b c => ¬ Reuses maxOrders b c) b calls := by
  induction calls generalizing b ref with
  | nil => trivial
  | cons c cs ih =>
    have hr := s.not_reuses_of_fresh (hn.trans (by decide)) hf.1
    exact ⟨hr, ih (s.step_of_not_reuses hn hr) hf.2⟩

theorem Simulates.cancel_all (s : Simulates maxOrders b ref) (hn : maxOrders ≤ orderMapSize)
    (ids : List (BitVec 64)) : Simulates maxOrders ((ids.map BookCall.cancel).foldl after b)
      ((ids.map BookCall.cancel).foldl (ReferenceBook.after maxOrders) ref) := by
  induction ids generalizing b ref with
  | nil => exact s
  | cons id ids ih => exact ih (s.cancelOrder (hn.trans (by decide)) id)

theorem Simulates.emptied (s : Simulates maxOrders b []) (hn : maxOrders ≤ 2^31) :
    Emptied maxOrders b := by
  have hr := s.represents hn
  obtain ⟨free, live, h, _, hv⟩ := s
  have hlive : live = [] := List.map_eq_nil_iff.mp hv
  refine ⟨hr.bestBid, hr.bestOffer, free, (h.wellStructured hn).visits .free, ?_⟩
  intro i
  rw [← h.mem i, hlive, List.map_nil, List.append_nil]

end Runs

/-- No order is orphaned exactly as long as no accepted add reuses a resting number; then
cancelling every number ever added empties the book. -/
theorem noneOrphaned_iff_no_reuse (maxOrders : Nat) (h1 : 1 ≤ maxOrders) (hn : maxOrders ≤ 2^22)
    (calls : List BookCall) :
    ((∀ k, NoneOrphaned maxOrders ((new maxOrders).run (calls.take k)).1) ↔
      StepRun.Along after (fun b c => ¬ Reuses maxOrders b c) (new maxOrders) calls) ∧
    (StepRun.Along after (fun b c => ¬ Reuses maxOrders b c) (new maxOrders) calls →
      ∀ ids : List (BitVec 64), (∀ order, .add order ∈ calls → order.orderReferenceNumber ∈ ids) →
        Emptied maxOrders ((new maxOrders).run (calls ++ ids.map .cancel)).1) := by
  have hmap : maxOrders ≤ orderMapSize := hn.trans (by decide)
  have h31 : maxOrders ≤ 2^31 := hn.trans (by decide)
  have hnew := Simulates.new h1 h31
  constructor
  · simp only [run_fst]
    refine StepRun.visited_iff_along (I := fun b => ∃ ref, Simulates maxOrders b ref)
      ⟨[], hnew⟩ ?_ ?_ ?_
    · intro b ⟨_, s⟩
      exact s.noneOrphaned h31
    · intro b c ⟨_, s⟩ hr
      exact ⟨_, s.step_of_not_reuses hmap hr⟩
    · intro b c ⟨_, _, _, h, _⟩ hr
      exact h.orphaned_of_reuses hmap (not_not.mp hr)
  · intro hr ids hids
    have s := (hnew.run_of_no_reuse hmap hr).cancel_all hmap ids
    have hnil : (ids.map BookCall.cancel).foldl (ReferenceBook.after maxOrders)
        (calls.foldl (ReferenceBook.after maxOrders) []) = [] := by
      rw [List.eq_nil_iff_forall_not_mem]
      intro r hrm
      obtain ⟨hrun, hid⟩ := ReferenceBook.mem_cancel_all hrm
      obtain ⟨q, hq, _⟩ | ⟨order, ho, he⟩ := ReferenceBook.mem_run hrun
      · exact List.not_mem_nil hq
      · exact hid (he ▸ hids order ho)
    rw [hnil] at s
    rw [run_fst, List.foldl_append]
    exact s.emptied h31

def refilledCalls : List BookCall :=
  [.add (.plain 66#8 1 7 5), .add (.plain 83#8 2 9 4), .execute ⟨0, 1, 0, 5, 0, 0⟩,
    .add (.plain 66#8 1 8 6), .execute ⟨0, 2, 0, 1, 0, 0⟩]

theorem noneOrphaned_iff_no_reuse_refilled :
    (∀ k, NoneOrphaned 2 ((new 2).run (refilledCalls.take k)).1) ∧
      Emptied 2 ((new 2).run (refilledCalls ++ [1, 2].map .cancel)).1 := by
  have hfresh : StepRun.Along after (fun b c => ¬ Reuses 2 b c) (new 2) refilledCalls :=
    (Simulates.new (by decide) (by decide)).no_reuse_of_freshAdds (by decide) (by decide)
  obtain ⟨hiff, hempty⟩ := noneOrphaned_iff_no_reuse 2 (by decide) (by decide) refilledCalls
  refine ⟨hiff.mpr hfresh, hempty hfresh [1, 2] ?_⟩
  intro order ho
  simp only [refilledCalls, List.mem_cons, BookCall.add.injEq, reduceCtorEq, false_or,
    List.not_mem_nil, or_false] at ho
  obtain rfl | rfl | rfl := ho <;> decide

/-- Two resting orders share number 1: the older one is orphaned, and cancelling number 1
leaves it resting at price 7. -/
theorem reused_number_orphans :
    ¬ NoneOrphaned 2 ((new 2).run [.add (.plain 66#8 1 7 5), .add (.plain 66#8 1 7 6)]).1 ∧
    ((new 2).run [.add (.plain 66#8 1 7 5), .add (.plain 66#8 1 7 6), .cancel 1]).1.getBestBid =
      7 := by
  refine ⟨?_, by decide +kernel⟩
  intro h
  obtain ⟨v, hv, hm⟩ := h .buy 7 0 ⟨by decide, [0, 1], by decide +kernel, by decide⟩
  have hget : ((new 2).run [.add (.plain 66#8 1 7 5), .add (.plain 66#8 1 7 6)]).1.orders.get
      (((new 2).run [.add (.plain 66#8 1 7 5), .add (.plain 66#8 1 7 6)]).1.pool 0
        ).orderReferenceNumber = some 1 := by decide +kernel
  rw [hget, Option.some.injEq] at hv
  rw [← hv] at hm
  exact absurd hm (by decide)

end MarketDataBook.LimitOrderBook
