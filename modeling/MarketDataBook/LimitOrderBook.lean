import MarketDataBook.HierarchicalBitset
import MarketDataBook.ItchOrderTypes
import MarketDataBook.StaticOrderMap

/-! `book/LimitOrderBook.{h,cpp}`. The pool, the price levels and the bitsets are maps
from indices; `bids_` and `asks_` are the two values of one map over `Side`. A function
that can throw returns the state it leaves behind together with its outcome. -/
namespace MarketDataBook

inductive Side where
  | buy | sell
  deriving DecidableEq

inductive Outcome where
  | returned
  | raised (what : String)
  deriving DecidableEq

def overExecution : Outcome := .raised
  "LimitOrderBook::execute_order(): Current order has less shares than required from execute order"

def NormalizedAddOrder.side (order : NormalizedAddOrder) : Side :=
  if order.indicator = 66#8 then .buy else .sell

structure Order where
  orderReferenceNumber : BitVec 64
  shares : BitVec 32
  price : BitVec 32
  next : BitVec 32
  prev : BitVec 32
  deriving DecidableEq

structure PriceLevel where
  head : BitVec 32
  tail : BitVec 32
  deriving DecidableEq

def nullIndex : BitVec 32 := 0xFFFFFFFF#32
def maxTicks : Nat := 100000
def sideMask : BitVec 32 := 1#32 <<< 31
def indexMask : BitVec 32 := ~~~ sideMask
def orderMapSize : Nat := 2 <<< 21

structure LimitOrderBook where
  pool : BitVec 32 → Order
  levels : Side → BitVec 32 → PriceLevel
  orders : StaticOrderMap orderMapSize
  bitset : Side → HierarchicalBitset maxTicks
  nextFreeIndex : BitVec 32

namespace LimitOrderBook

def modifyOrder (b : LimitOrderBook) (idx : BitVec 32) (f : Order → Order) : LimitOrderBook :=
  { b with pool := Function.update b.pool idx (f (b.pool idx)) }

def modifyLevel (b : LimitOrderBook) (side : Side) (price : BitVec 32)
    (f : PriceLevel → PriceLevel) : LimitOrderBook :=
  let level := f (b.levels side price)
  { b with levels := Function.update b.levels side (Function.update (b.levels side) price level) }

def modifyBitset (b : LimitOrderBook) (side : Side)
    (f : HierarchicalBitset maxTicks → HierarchicalBitset maxTicks) : LimitOrderBook :=
  { b with bitset := Function.update b.bitset side (f (b.bitset side)) }

/-- The members before the constructor's body: the pool is zeroed memory. -/
def blank : LimitOrderBook where
  pool := fun _ => ⟨0, 0, 0, 0, 0⟩
  levels := fun _ _ => ⟨nullIndex, nullIndex⟩
  orders := .new
  bitset := fun _ => .new
  nextFreeIndex := 0

/-- The constructor's loop `pool_[i - 1].next = i`, run for `i` from 1 to `count`. -/
def linkPool : Nat → LimitOrderBook → LimitOrderBook
  | 0, b => b
  | count+1, b => (linkPool count b).modifyOrder (BitVec.ofNat 32 count)
      fun o => { o with next := BitVec.ofNat 32 (count+1) }

def new (maxOrders : Nat) : LimitOrderBook :=
  (linkPool (maxOrders - 1) blank).modifyOrder (BitVec.ofNat 32 (maxOrders - 1))
    fun o => { o with next := nullIndex }

def construct (maxOrders : Nat) : Except String LimitOrderBook :=
  if maxOrders = 0 then
    .error "LimitOrderBook(): Max Orders should be a positive value."
  else .ok (new maxOrders)

def getBestBid (b : LimitOrderBook) : Nat := (b.bitset .buy).getBestBid
def getBestOffer (b : LimitOrderBook) : Nat := (b.bitset .sell).getBestOffer

def addUpdatePriceLevel (b : LimitOrderBook) (side : Side) (price newOrderIdx : BitVec 32) :
    LimitOrderBook :=
  let b := b.modifyOrder newOrderIdx fun o => { o with prev := nullIndex, next := nullIndex }
  let b :=
    if (b.levels side price).head = nullIndex then
      b.modifyLevel side price fun l => { l with head := newOrderIdx }
    else b
  let tail := (b.levels side price).tail
  let b :=
    if tail ≠ nullIndex then
      (b.modifyOrder tail fun o => { o with next := newOrderIdx }).modifyOrder newOrderIdx
        fun o => { o with prev := tail }
    else b
  b.modifyLevel side price fun l => { l with tail := newOrderIdx }

/-- The 31st bit represents the side for cancel and execute orders. -/
def taggedIdx (side : Side) : BitVec 32 := if side = .buy then 0 else 1#32 <<< 31

def addOrderImpl (side : Side) (b : LimitOrderBook) (order : NormalizedAddOrder) :
    LimitOrderBook × Outcome :=
  let newOrderIdx := b.nextFreeIndex
  let b := { b with nextFreeIndex := (b.pool b.nextFreeIndex).next }
  let b := b.modifyOrder newOrderIdx fun o =>
    { o with orderReferenceNumber := order.orderReferenceNumber
             price := order.price
             shares := order.shares }
  match b.orders.assign (b.pool newOrderIdx).orderReferenceNumber
      (taggedIdx side ||| newOrderIdx) with
  | (orders, .error what) => ({ b with orders := orders }, .raised what)
  | (orders, .ok ()) =>
    let b := { b with orders := orders }
    let price := (b.pool newOrderIdx).price
    let b := b.addUpdatePriceLevel side price newOrderIdx
    (b.modifyBitset side (·.setPriceLevel price.toNat), .returned)

def addOrder (b : LimitOrderBook) (order : NormalizedAddOrder) : LimitOrderBook × Outcome :=
  if maxTicks ≤ order.price.toNat then (b, .returned)
  else if b.nextFreeIndex = nullIndex then (b, .returned)
  else if order.indicator = 66#8 then addOrderImpl .buy b order
  else addOrderImpl .sell b order

def executeUpdatePriceLevel (b : LimitOrderBook) (side : Side) (price orderIdx : BitVec 32) :
    LimitOrderBook :=
  let order := b.pool orderIdx
  let b :=
    if (b.levels side price).head = orderIdx then
      b.modifyLevel side price fun l => { l with head := order.next }
    else b
  if (b.levels side price).tail = orderIdx then
    b.modifyLevel side price fun l => { l with tail := order.prev }
  else b

/-- The first part of `release_order_to_pool`. `order` is a reference into the pool, so
its links are read again after the first write. -/
def updateNeighbours (b : LimitOrderBook) (orderIdx : BitVec 32) : LimitOrderBook :=
  let b :=
    if (b.pool orderIdx).prev ≠ nullIndex then
      b.modifyOrder (b.pool orderIdx).prev fun o => { o with next := (b.pool orderIdx).next }
    else b
  if (b.pool orderIdx).next ≠ nullIndex then
    b.modifyOrder (b.pool orderIdx).next fun o => { o with prev := (b.pool orderIdx).prev }
  else b

def releaseOrderToPool (side : Side) (b : LimitOrderBook) (orderIdx : BitVec 32) :
    LimitOrderBook :=
  let b := b.updateNeighbours orderIdx
  let price := (b.pool orderIdx).price
  let b := b.executeUpdatePriceLevel side price orderIdx
  let b :=
    if (b.levels side price).head = nullIndex then
      b.modifyBitset side (·.clearPriceLevel price.toNat)
    else b
  let b := { b with orders := b.orders.erase (b.pool orderIdx).orderReferenceNumber }
  let b := b.modifyOrder orderIdx fun o => { o with next := b.nextFreeIndex }
  { b with nextFreeIndex := orderIdx }

def taggedSide (taggedOrderIdx : BitVec 32) : Side :=
  if taggedOrderIdx &&& sideMask ≠ 0 then .sell else .buy

def cancelOrder (b : LimitOrderBook) (orderId : BitVec 64) : LimitOrderBook :=
  match b.orders.find orderId with
  | none => b
  | some it =>
    let taggedOrderIdx := (b.orders.map it).poolIdx
    let orderIdx := taggedOrderIdx &&& indexMask
    releaseOrderToPool (taggedSide taggedOrderIdx) b orderIdx

def executeOrder (b : LimitOrderBook) (order : NormalizedOrderExecuted) :
    LimitOrderBook × Outcome :=
  match b.orders.find order.orderReferenceNumber with
  | none => (b, .returned)
  | some it =>
    let taggedOrderIdx := (b.orders.map it).poolIdx
    let orderIdx := taggedOrderIdx &&& indexMask
    if (b.pool orderIdx).shares < order.shares then
      (b, overExecution)
    else
      let b := b.modifyOrder orderIdx fun o => { o with shares := o.shares - order.shares }
      if (b.pool orderIdx).shares = 0 then
        (releaseOrderToPool (taggedSide taggedOrderIdx) b orderIdx, .returned)
      else (b, .returned)

end LimitOrderBook

inductive BookCall where
  | add (order : NormalizedAddOrder)
  | cancel (orderId : BitVec 64)
  | execute (order : NormalizedOrderExecuted)

/-- The `dispatch_table` of `main.cpp`; `run_recovery` makes the same calls. -/
def dispatchTable : NormalizedOrder → BookCall
  | .addOrder order => .add order
  | .executeOrder order => .execute order
  | .cancelOrder order => .cancel order.orderReferenceNumber

namespace LimitOrderBook

def step (b : LimitOrderBook) : BookCall → LimitOrderBook × Outcome
  | .add order => b.addOrder order
  | .cancel orderId => (b.cancelOrder orderId, .returned)
  | .execute order => b.executeOrder order

def after (b : LimitOrderBook) (c : BookCall) : LimitOrderBook := (b.step c).1

/-- A run of calls; the caller goes on after an exception. -/
def run (b : LimitOrderBook) : List BookCall → LimitOrderBook × List Outcome
  | [] => (b, [])
  | c::cs =>
    let (b', o) := b.step c
    let (b'', os) := b'.run cs
    (b'', o::os)

theorem run_fst (b : LimitOrderBook) (calls : List BookCall) :
    (b.run calls).1 = calls.foldl after b := by
  induction calls generalizing b with
  | nil => rfl
  | cons c cs ih => exact ih (b.step c).1

end LimitOrderBook
end MarketDataBook
