import Mathlib.Init

/-! `protocol/ItchOrderTypes.h`: the decoded messages. The tag of the union
`NormalizedOrder` is the constructor; the packed wire structs appear only as byte
offsets of the parser. -/
namespace MarketDataBook

abbrev Byte := BitVec 8

structure Header where
  timestamp : BitVec 64
  orderReferenceNumber : BitVec 64
  stockLocate : BitVec 16
  trackingNumber : BitVec 16
  deriving DecidableEq

structure NormalizedAddOrder where
  timestamp : BitVec 64
  orderReferenceNumber : BitVec 64
  shares : BitVec 32
  price : BitVec 32
  stockLocate : BitVec 16
  trackingNumber : BitVec 16
  stock : List Byte
  indicator : Byte
  deriving DecidableEq

def NormalizedAddOrder.plain (indicator : Byte) (orderId : BitVec 64) (price shares : BitVec 32) :
    NormalizedAddOrder :=
  ⟨0, orderId, shares, price, 0, 0, [], indicator⟩

structure NormalizedOrderExecuted where
  timestamp : BitVec 64
  orderReferenceNumber : BitVec 64
  matchNumber : BitVec 64
  shares : BitVec 32
  stockLocate : BitVec 16
  trackingNumber : BitVec 16
  deriving DecidableEq

structure NormalizedCancelOrder where
  timestamp : BitVec 64
  orderReferenceNumber : BitVec 64
  shares : BitVec 32
  stockLocate : BitVec 16
  trackingNumber : BitVec 16
  deriving DecidableEq

inductive NormalizedOrder where
  | addOrder (order : NormalizedAddOrder)
  | executeOrder (order : NormalizedOrderExecuted)
  | cancelOrder (order : NormalizedCancelOrder)
  deriving DecidableEq

end MarketDataBook
