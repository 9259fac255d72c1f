import MarketDataBook.BookRefinement
import MarketDataBook.MockOrderBook

/-! The random test of `tests/test_limit_order_book.cpp`. The generator is a parameter: whatever
numbers it produces, the distributions bring them into their ranges. -/
namespace MarketDataBook

structure Draws where
  op : Nat
  price : Nat
  shares : Nat
  side : Nat
  idx : Nat
  executed : Nat

/-- `std::uniform_int_distribution`, undefined for an empty range. -/
def uniformInt (lo hi : Nat) (raw : Nat) : Option Nat :=
  if lo ≤ hi then some (lo + raw % (hi - lo + 1)) else none

inductive TestFailure where
  | require (bid offer : Bool)
  | raised (what : String)
  | undefined
  deriving DecidableEq

/-- The state of the loop; `id_to_vector_idx` is only ever written. -/
structure LobTest where
  lob : LimitOrderBook
  testBook : MockOrderBook
  activeIds : List (BitVec 64)
  nextOrderId : BitVec 64

namespace LobTest

def start : Except TestFailure LobTest :=
  match LimitOrderBook.construct 2000000 with
  | .ok lob => .ok ⟨lob, .new, [], 1#64⟩
  | .error what => .error (.raised what)

def returned (t : LobTest) : Outcome → Except TestFailure LobTest
  | .returned => .ok t
  | .raised what => .error (.raised what)

def dropActive (ids : List (BitVec 64)) (randomIdx : Nat) : List (BitVec 64) :=
  (ids.set randomIdx (ids.getLastD 0#64)).dropLast

def addTurn (t : LobTest) (price shares : BitVec 32) (side : Byte) : Except TestFailure LobTest :=
  let id := t.nextOrderId
  let enumSide := if side = 66#8 then Side.buy else Side.sell
  let (lob, out) := t.lob.addOrder ⟨0, id, shares, price, 0, 0, List.replicate 8 0#8, side⟩
  returned ⟨lob, t.testBook.addOrder ⟨id, shares, price, enumSide⟩, t.activeIds ++ [id], id + 1⟩ out

def cancelTurn (t : LobTest) (targetId : BitVec 64) (randomIdx : Nat) :
    Except TestFailure LobTest :=
  .ok { t with lob := t.lob.cancelOrder targetId
               testBook := t.testBook.cancelOrder targetId
               activeIds := dropActive t.activeIds randomIdx }

def executeTurn (t : LobTest) (targetId : BitVec 64) (randomIdx raw : Nat) :
    Except TestFailure LobTest :=
  let (testBook, currentShares) := t.testBook.getShares targetId
  match uniformInt 1 currentShares.toNat raw with
  | none => .error .undefined
  | some executed =>
    let executedShares := BitVec.ofNat 32 executed
    let (lob, out) := t.lob.executeOrder ⟨0, targetId, 0, executedShares, 0, 0⟩
    returned { t with lob := lob
                      testBook := testBook.executeOrder targetId executedShares
                      activeIds := if currentShares = executedShares
                        then dropActive t.activeIds randomIdx else t.activeIds } out

def operation (t : LobTest) (d : Draws) : Except TestFailure LobTest :=
  let op := if t.activeIds = [] then 0 else d.op % 100
  if op < 50 then
    t.addTurn (BitVec.ofNat 32 (d.price % 100000)) (BitVec.ofNat 32 (100 + d.shares % 9901))
      (if d.side % 2 = 0 then 66#8 else 83#8)
  else
    match uniformInt 0 (t.activeIds.length - 1) d.idx with
    | none => .error .undefined
    | some randomIdx =>
      match t.activeIds[randomIdx]? with
      | none => .error .undefined
      | some targetId =>
        if op < 75 then t.cancelTurn targetId randomIdx
        else t.executeTurn targetId randomIdx d.executed

def require (t : LobTest) : Except TestFailure LobTest :=
  if t.lob.getBestBid = t.testBook.getBestBid ∧ t.lob.getBestOffer = t.testBook.getBestOffer then
    .ok t
  else
    .error (.require (t.lob.getBestBid = t.testBook.getBestBid)
      (t.lob.getBestOffer = t.testBook.getBestOffer))

def turn (t : LobTest) (d : Draws) : Except TestFailure LobTest :=
  (t.operation d).bind require

def run : List Draws → LobTest → Except TestFailure LobTest
  | [], t => .ok t
  | d::ds, t => (t.turn d).bind (run ds)

def test (draws : List Draws) : Except TestFailure LobTest := start.bind (run draws)

structure Ok (n : Nat) (ref : ReferenceBook) (t : LobTest) : Prop where
  lob : t.lob.Simulates 2000000 ref
  mock : t.testBook.Mirrors ref
  active : t.activeIds.Perm (ref.map Resting.id)
  nodup : (ref.map Resting.id).Nodup
  next : t.nextOrderId.toNat ≤ n + 1
  older : ∀ r ∈ ref, r.id.toNat < t.nextOrderId.toNat
  shares : ∀ r ∈ ref, 0 < r.shares.toNat
  count : ref.length ≤ n

section Turns
variable {n : Nat} {ref : ReferenceBook} {t : LobTest}

theorem set_perm {ids : List (BitVec 64)} {idx : Nat} {targetId : BitVec 64}
    (h : ids[idx]? = some targetId) (last : BitVec 64) :
    (targetId :: ids.set idx last).Perm (ids ++ [last]) := by
  induction ids generalizing idx with
  | nil => simp at h
  | cons a ids ih =>
    cases idx with
    | zero =>
      rw [List.getElem?_cons_zero, Option.some.injEq] at h
      rw [h, List.set_cons_zero, List.cons_append]
      exact (List.perm_append_singleton last ids).symm.cons targetId
    | succ idx =>
      rw [List.getElem?_cons_succ] at h
      rw [List.set_cons_succ, List.cons_append]
      exact (List.Perm.swap a targetId _).trans ((ih h).cons a)

theorem dropActive_perm {ids : List (BitVec 64)} {idx : Nat} {targetId : BitVec 64}
    (h : ids[idx]? = some targetId) : (targetId :: dropActive ids idx).Perm ids := by
  obtain rfl | ⟨init, last, rfl⟩ := ids.eq_nil_or_concat
  · simp at h
  · rw [List.concat_eq_append] at h ⊢
    rw [dropActive, List.getLastD_concat]
    by_cases hidx : idx < init.length
    · rw [List.getElem?_append_left hidx] at h
      rw [List.set_append_left _ _ hidx, List.dropLast_concat]
      exact set_perm h last
    · have heq : idx = init.length := by
        have hlt := (List.getElem?_eq_some_iff.mp h).1
        rw [List.length_append, List.length_singleton] at hlt
        omega
      rw [heq, List.getElem?_concat_length, Option.some.injEq] at h
      rw [heq, h, List.set_append_right _ _ (Nat.le_refl _), Nat.sub_self, List.set_cons_zero,
        List.dropLast_concat]
      exact (List.perm_append_singleton targetId init).symm

/-- The numbers left when one is dropped are those of the orders left. -/
theorem Ok.dropped (h : Ok n ref t) {idx : Nat} {targetId : BitVec 64}
    (hidx : t.activeIds[idx]? = some targetId) :
    (dropActive t.activeIds idx).Perm ((ref.cancel targetId).map Resting.id) := by
  have hperm := dropActive_perm hidx
  have hall := hperm.trans h.active
  have hnodup : (targetId :: dropActive t.activeIds idx).Nodup := hall.nodup_iff.mpr h.nodup
  have hkeep : (dropActive t.activeIds idx).filter (fun id => id ≠ targetId) =
      dropActive t.activeIds idx :=
    MockOrderBook.filter_of_not_mem (List.nodup_cons.mp hnodup).1
  have hfilter := hall.filter fun id => id ≠ targetId
  rw [List.filter_cons_of_neg (by simp), hkeep, List.filter_map] at hfilter
  exact hfilter

theorem Ok.found (h : Ok n ref t) {idx : Nat} {targetId : BitVec 64}
    (hidx : t.activeIds[idx]? = some targetId) :
    ∃ r ∈ ref, ref.find? (fun q => q.id = targetId) = some r := by
  have hmem : targetId ∈ ref.map Resting.id := h.active.subset (List.mem_of_getElem? hidx)
  obtain ⟨r, hr, hid⟩ := List.mem_map.mp hmem
  refine ⟨r, hr, LimitOrderBook.find?_eq_of_unique hr (by simpa using hid) ?_⟩
  intro q hq hqid
  have hqid : q.id = targetId := of_decide_eq_true hqid
  exact List.inj_on_of_nodup_map h.nodup hq hr (hqid.trans hid.symm)

theorem Ok.require (h : Ok n ref t) : t.require = .ok t := by
  have hrep := h.lob.represents (by decide)
  rw [LobTest.require, if_pos]
  rw [hrep.bestBid, hrep.bestOffer, h.mock.getBestBid, h.mock.getBestOffer]
  exact ⟨rfl, rfl⟩

/-- An order joins both books. -/
theorem Ok.added (h : Ok n ref t) (hn : n < 1000000) {r : Resting} (hid : r.id = t.nextOrderId)
    (hshares : 0 < r.shares.toNat) {lob : LimitOrderBook} {testBook : MockOrderBook}
    (hlob : lob.Simulates 2000000 (ref ++ [r])) (hmock : testBook.Mirrors (ref ++ [r])) :
    Ok (n+1) (ref ++ [r])
      ⟨lob, testBook, t.activeIds ++ [t.nextOrderId], t.nextOrderId + 1⟩ := by
  have hnext := h.next
  have hcount := h.count
  have hsucc : (t.nextOrderId + 1).toNat = t.nextOrderId.toNat + 1 := by
    rw [BitVec.toNat_add]
    exact Nat.mod_eq_of_lt (by simp; omega)
  refine ⟨hlob, hmock, ?_, ?_, ?_, ?_, ?_, ?_⟩
  · rw [List.map_append, List.map_singleton, hid]
    exact h.active.append_right _
  · rw [List.map_append, List.map_singleton]
    refine List.Nodup.append h.nodup (List.nodup_singleton _) ?_
    intro id hmem hlast
    obtain ⟨q, hq, rfl⟩ := List.mem_map.mp hmem
    have hlt := h.older q hq
    rw [List.mem_singleton.mp hlast, hid] at hlt
    exact Nat.lt_irrefl _ hlt
  · dsimp only
    omega
  · intro q hq
    dsimp only
    rw [hsucc]
    obtain hq | hq := List.mem_append.mp hq
    · exact Nat.lt_succ_of_lt (h.older q hq)
    · rw [List.mem_singleton.mp hq, hid]
      exact Nat.lt_succ_self _
  · intro q hq
    obtain hq | hq := List.mem_append.mp hq
    · exact h.shares q hq
    · rw [List.mem_singleton.mp hq]
      exact hshares
  · rw [List.length_append, List.length_singleton]
    omega

theorem Ok.addTurn (h : Ok n ref t) (hn : n < 1000000) {price shares : BitVec 32} (side : Byte)
    (hprice : price.toNat < maxTicks) (hshares : 0 < shares.toNat) :
    ∃ t' ref', t.addTurn price shares side = .ok t' ∧ Ok (n+1) ref' t' := by
  have hcount := h.count
  have hfresh : ∀ r ∈ ref, r.id ≠ t.nextOrderId := by
    intro r hr he
    exact Nat.lt_irrefl _ (he ▸ h.older r hr)
  have hno : ¬ (maxTicks ≤ price.toNat ∨ 2000000 ≤ ref.length) := by omega
  have hmap : ref.length < 2000000 → ref.length < orderMapSize := fun hlt =>
    Nat.lt_trans hlt (by decide)
  let order : NormalizedAddOrder :=
    ⟨0, t.nextOrderId, shares, price, 0, 0, List.replicate 8 0#8, side⟩
  obtain ⟨hout, hsim⟩ := h.lob.addOrder (by decide) hmap order fun _ _ => hfresh
  rw [ReferenceBook.add, if_neg hno] at hsim
  have hturn : t.addTurn price shares side =
      .ok ⟨(t.lob.addOrder order).1, t.testBook.addOrder order.resting.mockOrder,
        t.activeIds ++ [t.nextOrderId], t.nextOrderId + 1⟩ := by
    rw [LobTest.addTurn]
    dsimp only
    rw [hout]
    rfl
  exact ⟨_, _, hturn, h.added hn rfl hshares hsim (h.mock.addOrder hfresh)⟩

/-- An order leaves both books. -/
theorem Ok.removed (h : Ok n ref t) {idx : Nat} {targetId : BitVec 64}
    (hidx : t.activeIds[idx]? = some targetId) {lob : LimitOrderBook} {testBook : MockOrderBook}
    (hlob : lob.Simulates 2000000 (ref.cancel targetId))
    (hmock : testBook.Mirrors (ref.cancel targetId)) :
    Ok (n+1) (ref.cancel targetId)
      ⟨lob, testBook, dropActive t.activeIds idx, t.nextOrderId⟩ where
  lob := hlob
  mock := hmock
  active := h.dropped hidx
  nodup := h.nodup.sublist (List.filter_sublist.map _)
  next := Nat.le_succ_of_le h.next
  older := fun r hr => h.older r (List.mem_filter.mp hr).1
  shares := fun r hr => h.shares r (List.mem_filter.mp hr).1
  count := Nat.le_succ_of_le (Nat.le_trans (List.length_filter_le ..) h.count)

theorem Ok.cancelTurn (h : Ok n ref t) {idx : Nat} {targetId : BitVec 64}
    (hidx : t.activeIds[idx]? = some targetId) :
    ∃ t' ref', t.cancelTurn targetId idx = .ok t' ∧ Ok (n+1) ref' t' := by
  obtain ⟨r, -, hfind⟩ := h.found hidx
  exact ⟨_, _, rfl, h.removed hidx (h.lob.cancelOrder (by decide) targetId)
    (h.mock.cancelOrder h.nodup hfind)⟩

/-- A part of an order is executed in both books. -/
theorem Ok.reduced (h : Ok n ref t) {r : Resting} (hr : r ∈ ref) {shares : BitVec 32}
    (hle : shares ≤ r.shares) (hne : r.shares ≠ shares) {lob : LimitOrderBook}
    {testBook : MockOrderBook} (hlob : lob.Simulates 2000000 (ref.reduce r.id shares))
    (hmock : testBook.Mirrors (ref.reduce r.id shares)) :
    Ok (n+1) (ref.reduce r.id shares) { t with lob := lob, testBook := testBook } where
  lob := hlob
  mock := hmock
  active := by
    rw [MockOrderBook.map_id_reduce]
    exact h.active
  nodup := by
    rw [MockOrderBook.map_id_reduce]
    exact h.nodup
  next := Nat.le_succ_of_le h.next
  older := by
    intro q hq
    have hmem := List.mem_map_of_mem (f := Resting.id) hq
    rw [MockOrderBook.map_id_reduce] at hmem
    obtain ⟨q', hq', hid⟩ := List.mem_map.mp hmem
    rw [← hid]
    exact h.older q' hq'
  shares := by
    intro q hq
    obtain ⟨q', hq', rfl⟩ := List.mem_map.mp hq
    split_ifs with hid
    · have hsame : q' = r := List.inj_on_of_nodup_map h.nodup hq' hr hid
      rw [BitVec.le_def] at hle
      have hne' : r.shares.toNat ≠ shares.toNat := fun he => hne (BitVec.eq_of_toNat_eq he)
      rw [hsame]
      dsimp only
      rw [BitVec.toNat_sub_of_le (by rw [BitVec.le_def]; exact hle)]
      omega
    · exact h.shares q' hq'
  count := by
    rw [ReferenceBook.reduce, List.length_map]
    exact Nat.le_succ_of_le h.count

theorem uniformInt_spec {lo hi : Nat} (h : lo ≤ hi) (raw : Nat) :
    ∃ v, uniformInt lo hi raw = some v ∧ lo ≤ v ∧ v ≤ hi := by
  have hlt : raw % (hi - lo + 1) < hi - lo + 1 := Nat.mod_lt raw (Nat.succ_pos _)
  exact ⟨_, if_pos h, by omega, by omega⟩

theorem Ok.executeTurn (h : Ok n ref t) {idx : Nat} {targetId : BitVec 64}
    (hidx : t.activeIds[idx]? = some targetId) (raw : Nat) :
    ∃ t' ref', t.executeTurn targetId idx raw = .ok t' ∧ Ok (n+1) ref' t' := by
  obtain ⟨r, hr, hfind⟩ := h.found hidx
  have hid : r.id = targetId := by simpa using List.find?_some hfind
  have hget : t.testBook.getShares targetId = (t.testBook, r.shares) := by
    rw [MockOrderBook.getShares, h.mock.orders, hfind]
    rfl
  obtain ⟨executed, hdraw, hlo, hhi⟩ := uniformInt_spec (h.shares r hr) raw
  have hexec : (BitVec.ofNat 32 executed).toNat = executed := by
    rw [BitVec.toNat_ofNat]
    exact Nat.mod_eq_of_lt (Nat.lt_of_le_of_lt hhi r.shares.isLt)
  have hle : BitVec.ofNat 32 executed ≤ r.shares := by
    rw [BitVec.le_def, hexec]
    exact hhi
  let order : NormalizedOrderExecuted := ⟨0, targetId, 0, BitVec.ofNat 32 executed, 0, 0⟩
  obtain ⟨hout, hsim⟩ := h.lob.executeOrder (by decide) order
  have hmock := h.mock.executeOrder h.nodup order hfind hle
  have hexecute : ref.execute order = if r.shares = order.shares then
      (ref.cancel targetId, .returned) else (ref.reduce targetId order.shares, .returned) := by
    rw [ReferenceBook.execute, hfind]
    dsimp only
    rw [if_neg (BitVec.not_lt.mpr hle)]
  have hturn : (t.lob.executeOrder order).2 = .returned → t.executeTurn targetId idx raw =
      .ok { t with lob := (t.lob.executeOrder order).1
                   testBook := t.testBook.executeOrder targetId order.shares
                   activeIds := if r.shares = order.shares
                     then dropActive t.activeIds idx else t.activeIds } := by
    intro hret
    rw [LobTest.executeTurn, hget]
    dsimp only
    rw [hdraw]
    dsimp only
    rw [hret]
    rfl
  rw [hexecute] at hout hsim hmock
  by_cases hall : r.shares = order.shares
  · rw [if_pos hall] at hout hsim hmock hturn
    exact ⟨_, _, hturn hout, h.removed hidx hsim hmock⟩
  · rw [if_neg hall] at hout hsim hmock hturn
    rw [← hid] at hsim hmock
    exact ⟨_, _, hturn hout, h.reduced hr hle hall hsim hmock⟩

theorem Ok.operation (h : Ok n ref t) (hn : n < 1000000) (d : Draws) :
    ∃ t' ref', t.operation d = .ok t' ∧ Ok (n+1) ref' t' := by
  rw [LobTest.operation]
  by_cases hadd : (if t.activeIds = [] then 0 else d.op % 100) < 50
  · rw [if_pos hadd]
    apply h.addTurn hn
    · rw [BitVec.toNat_ofNat, maxTicks]
      omega
    · rw [BitVec.toNat_ofNat]
      omega
  · rw [if_neg hadd]
    have hne : t.activeIds ≠ [] := by
      intro hnil
      rw [if_pos hnil] at hadd
      exact hadd (by decide)
    have hpos := List.length_pos_of_ne_nil hne
    obtain ⟨idx, hdraw, -, hidx⟩ := uniformInt_spec (Nat.zero_le (t.activeIds.length - 1)) d.idx
    have hlt : idx < t.activeIds.length := by omega
    have hget : t.activeIds[idx]? = some _ := List.getElem?_eq_getElem hlt
    rw [hdraw]
    dsimp only
    rw [hget]
    dsimp only
    by_cases hcancel : (if t.activeIds = [] then 0 else d.op % 100) < 75
    · rw [if_pos hcancel]
      exact h.cancelTurn hget
    · rw [if_neg hcancel]
      exact h.executeTurn hget d.executed

theorem Ok.turn (h : Ok n ref t) (hn : n < 1000000) (d : Draws) :
    ∃ t' ref', t.turn d = .ok t' ∧ Ok (n+1) ref' t' := by
  obtain ⟨t', ref', hop, hok⟩ := h.operation hn d
  refine ⟨t', ref', ?_, hok⟩
  rw [LobTest.turn, hop]
  exact hok.require

theorem Ok.run (h : Ok n ref t) {draws : List Draws} (hlen : n + draws.length ≤ 1000000) :
    ∃ t', LobTest.run draws t = .ok t' := by
  induction draws generalizing n ref t with
  | nil => exact ⟨t, rfl⟩
  | cons d ds ih =>
    rw [List.length_cons] at hlen
    obtain ⟨t', ref', hturn, hok⟩ := h.turn (by omega) d
    rw [LobTest.run, hturn]
    exact ih hok (by omega)

end Turns

/-- The random test passes whatever the generator produces: in none of its turns a check fails, the
book throws or a draw is made from an empty range. -/
theorem run_passes (draws : List Draws) (hlen : draws.length ≤ 1000000) :
    ∃ t, test draws = .ok t := by
  have hstart : start = .ok ⟨.new 2000000, .new, [], 1#64⟩ := rfl
  have hok : Ok 0 [] ⟨.new 2000000, .new, [], 1#64⟩ :=
    ⟨.new (by decide) (by decide), .new, .nil, List.nodup_nil, Nat.le_refl 1,
      fun _ hr => absurd hr List.not_mem_nil, fun _ hr => absurd hr List.not_mem_nil, Nat.le_refl 0⟩
  rw [test, hstart]
  exact hok.run (by omega)

/-- Two orders are added, one is executed in part and the other cancelled. -/
theorem fourDraws_pass :
    ∃ t, test [⟨0, 7, 3, 0, 0, 0⟩, ⟨10, 9, 5, 1, 0, 0⟩, ⟨80, 0, 0, 0, 1, 50⟩, ⟨60, 0, 0, 0, 0, 0⟩] =
      .ok t :=
  run_passes _ (by decide)

end LobTest

end MarketDataBook
