import MarketDataBook.BlockFraming

/-! The packed structs of `protocol/ItchOrderTypes.h` as a sender fills them in, in network
order, against what the decoders of `protocol/ItchParser.h` make of them. -/
namespace MarketDataBook
open ByteMemory

structure AddOrder where
  stockLocate : BitVec 16
  trackingNumber : BitVec 16
  timestamp : BitVec 48
  orderReferenceNumber : BitVec 64
  indicator : Byte
  shares : BitVec 32
  stock : Fin 8 → Byte
  price : BitVec 32

structure OrderExecuted where
  stockLocate : BitVec 16
  trackingNumber : BitVec 16
  timestamp : BitVec 48
  orderReferenceNumber : BitVec 64
  shares : BitVec 32
  matchNumber : BitVec 64

structure CancelOrder where
  stockLocate : BitVec 16
  trackingNumber : BitVec 16
  timestamp : BitVec 48
  orderReferenceNumber : BitVec 64
  shares : BitVec 32

def AddOrder.encode (m : AddOrder) : List Byte :=
  [65#8] ++ beBytes 2 m.stockLocate ++ beBytes 2 m.trackingNumber ++ beBytes 6 m.timestamp ++
    beBytes 8 m.orderReferenceNumber ++ [m.indicator] ++ beBytes 4 m.shares ++
    List.ofFn m.stock ++ beBytes 4 m.price

def OrderExecuted.encode (m : OrderExecuted) : List Byte :=
  [69#8] ++ beBytes 2 m.stockLocate ++ beBytes 2 m.trackingNumber ++ beBytes 6 m.timestamp ++
    beBytes 8 m.orderReferenceNumber ++ beBytes 4 m.shares ++ beBytes 8 m.matchNumber

def CancelOrder.encode (m : CancelOrder) : List Byte :=
  [88#8] ++ beBytes 2 m.stockLocate ++ beBytes 2 m.trackingNumber ++ beBytes 6 m.timestamp ++
    beBytes 8 m.orderReferenceNumber ++ beBytes 4 m.shares

inductive WireOrder where
  | addOrder (m : AddOrder)
  | orderExecuted (m : OrderExecuted)
  | cancelOrder (m : CancelOrder)

namespace WireOrder

def encode : WireOrder → List Byte
  | .addOrder m => m.encode
  | .orderExecuted m => m.encode
  | .cancelOrder m => m.encode

def parse (rawData : List Byte) : WireOrder → Option NormalizedOrder
  | .addOrder _ => (extractHeader rawData).bind (parseAddOrder rawData)
  | .orderExecuted _ => (extractHeader rawData).bind (parseExecutedOrder rawData)
  | .cancelOrder _ => (extractHeader rawData).bind (parseCancelOrder rawData)

def header : WireOrder → Header
  | .addOrder m => ⟨m.timestamp.setWidth 64, m.orderReferenceNumber, m.stockLocate, m.trackingNumber⟩
  | .orderExecuted m =>
      ⟨m.timestamp.setWidth 64, m.orderReferenceNumber, m.stockLocate, m.trackingNumber⟩
  | .cancelOrder m =>
      ⟨m.timestamp.setWidth 64, m.orderReferenceNumber, m.stockLocate, m.trackingNumber⟩

def normalized : WireOrder → NormalizedOrder
  | .addOrder m => .addOrder
      { timestamp := m.timestamp.setWidth 64
        orderReferenceNumber := m.orderReferenceNumber
        shares := m.shares
        price := m.price
        stockLocate := m.stockLocate
        trackingNumber := m.trackingNumber
        stock := List.ofFn m.stock
        indicator := m.indicator }
  | .orderExecuted m => .executeOrder
      { timestamp := m.timestamp.setWidth 64
        orderReferenceNumber := m.orderReferenceNumber
        matchNumber := m.matchNumber
        shares := m.shares
        stockLocate := m.stockLocate
        trackingNumber := m.trackingNumber }
  | .cancelOrder m => .cancelOrder
      { timestamp := m.timestamp.setWidth 64
        orderReferenceNumber := m.orderReferenceNumber
        shares := m.shares
        stockLocate := m.stockLocate
        trackingNumber := m.trackingNumber }

/-- An add order carries no stock locate code and no tracking number. -/
def LocateUnused : WireOrder → Prop
  | .addOrder m => m.stockLocate = 0#16 ∧ m.trackingNumber = 0#16
  | _ => True

end WireOrder

/-- A field that a message holds in network order. -/
theorem bswap_readWord {m : List Byte} (offset n : Nat) (v : BitVec (8 * n))
    (hlen : offset + n ≤ m.length) (hf : (m.drop offset).take n = beBytes n v) :
    ∃ w, readWord m offset n = some w ∧ bswap n w = v := by
  obtain ⟨w, hw⟩ := readWord_some offset n hlen
  refine ⟨w, hw, ?_⟩
  apply BitVec.eq_of_toNat_eq
  rw [toNat_bswap_readWord hw, fieldValue, hf, bigEndian_beBytes]

theorem timestamp_readWord {m : List Byte} (offset : Nat) (v : BitVec 48)
    (hlen : offset + 6 ≤ m.length) (hf : (m.drop offset).take 6 = beBytes 6 v) :
    ∃ w, readWord m offset 6 = some w ∧ bswap 8 (w.setWidth 64) >>> 16 = v.setWidth 64 := by
  obtain ⟨w, hw⟩ := readWord_some offset 6 hlen
  refine ⟨w, hw, ?_⟩
  apply BitVec.eq_of_toNat_eq
  have hv : v.toNat < 2^64 := Nat.lt_of_lt_of_le v.isLt (by decide)
  have hbe : bigEndian (beBytes 6 v) = v.toNat := bigEndian_beBytes 6 v
  rw [toNat_timestamp hw, fieldValue, hf, hbe, BitVec.toNat_setWidth, Nat.mod_eq_of_lt hv]

/-- What the five leading members have in common. -/
theorem extractHeader_encoded {m rest : List Byte} {t : Byte} {locate tracking : BitVec 16}
    {timestamp : BitVec 48} {ref : BitVec 64}
    (hm : m = [t] ++ beBytes 2 locate ++ beBytes 2 tracking ++ beBytes 6 timestamp ++
      beBytes 8 ref ++ rest) :
    extractHeader m = some ⟨timestamp.setWidth 64, ref, locate, tracking⟩ := by
  have hlen : 19 ≤ m.length := by
    rw [hm]
    simp only [List.length_append, List.length_singleton, length_beBytes]
    omega
  obtain ⟨w1, h1, e1⟩ := timestamp_readWord (m := m) 5 timestamp (by omega) (by rw [hm]; rfl)
  obtain ⟨w2, h2, e2⟩ := bswap_readWord (m := m) 11 8 ref (by omega) (by rw [hm]; rfl)
  obtain ⟨w3, h3, e3⟩ := bswap_readWord (m := m) 1 2 locate (by omega) (by rw [hm]; rfl)
  obtain ⟨w4, h4, e4⟩ := bswap_readWord (m := m) 3 2 tracking (by omega) (by rw [hm]; rfl)
  simp only [extractHeader, h1, h2, h3, h4, bind, Option.bind_some, pure, e1, e2, e3, e4]

theorem WireOrder.extractHeader_encode (w : WireOrder) :
    extractHeader w.encode = some w.header := by
  cases w with
  | addOrder m =>
    apply extractHeader_encoded
    simp only [encode, AddOrder.encode, List.append_assoc]
    rfl
  | orderExecuted m =>
    apply extractHeader_encoded
    simp only [encode, OrderExecuted.encode, List.append_assoc]
    rfl
  | cancelOrder m =>
    apply extractHeader_encoded
    simp only [encode, CancelOrder.encode, List.append_assoc]
    rfl

/-- The decoder keeps every member but the first two of the header. -/
theorem AddOrder.parse_encode (m : AddOrder) : (WireOrder.addOrder m).parse m.encode =
    some (.addOrder ⟨m.timestamp.setWidth 64, m.orderReferenceNumber, m.shares, m.price, 0#16, 0#16,
      List.ofFn m.stock, m.indicator⟩) := by
  have hlen : m.encode.length = 36 := rfl
  obtain ⟨w1, h1, e1⟩ := bswap_readWord (m := m.encode) 20 4 m.shares (by omega) rfl
  obtain ⟨w2, h2, e2⟩ := bswap_readWord (m := m.encode) 32 4 m.price (by omega) rfl
  have hheader : extractHeader m.encode = some (WireOrder.addOrder m).header :=
    (WireOrder.addOrder m).extractHeader_encode
  have h3 : readBytes m.encode 24 8 = some (List.ofFn m.stock) := rfl
  have h4 : m.encode[19]? = some m.indicator := rfl
  simp only [WireOrder.parse, hheader, Option.bind_some, parseAddOrder, h1, h2, h3, h4, bind, pure,
    e1, e2, WireOrder.header]

theorem OrderExecuted.parse_encode (m : OrderExecuted) :
    (WireOrder.orderExecuted m).parse m.encode = some (WireOrder.orderExecuted m).normalized := by
  have hlen : m.encode.length = 31 := rfl
  have hheader : extractHeader m.encode = some (WireOrder.orderExecuted m).header :=
    (WireOrder.orderExecuted m).extractHeader_encode
  obtain ⟨w1, h1, e1⟩ := bswap_readWord (m := m.encode) 23 8 m.matchNumber (by omega) rfl
  obtain ⟨w2, h2, e2⟩ := bswap_readWord (m := m.encode) 19 4 m.shares (by omega) rfl
  simp only [WireOrder.parse, hheader, Option.bind_some, parseExecutedOrder, h1, h2, bind, pure,
    e1, e2, WireOrder.header, WireOrder.normalized]

theorem CancelOrder.parse_encode (m : CancelOrder) :
    (WireOrder.cancelOrder m).parse m.encode = some (WireOrder.cancelOrder m).normalized := by
  have hlen : m.encode.length = 23 := rfl
  have hheader : extractHeader m.encode = some (WireOrder.cancelOrder m).header :=
    (WireOrder.cancelOrder m).extractHeader_encode
  obtain ⟨w1, h1, e1⟩ := bswap_readWord (m := m.encode) 19 4 m.shares (by omega) rfl
  simp only [WireOrder.parse, hheader, Option.bind_some, parseCancelOrder, h1, bind, pure, e1,
    WireOrder.header, WireOrder.normalized]

/-- Decoding undoes the encoding exactly for the messages that lose nothing in it: all executions
and cancels, and the add orders whose locate code and tracking number are zero. -/
theorem parse_encode_iff (w : WireOrder) :
    w.parse w.encode = some w.normalized ↔ w.LocateUnused := by
  cases w with
  | orderExecuted m => exact iff_of_true m.parse_encode trivial
  | cancelOrder m => exact iff_of_true m.parse_encode trivial
  | addOrder m =>
    rw [WireOrder.encode, m.parse_encode, WireOrder.normalized, WireOrder.LocateUnused]
    simp only [Option.some.injEq, NormalizedOrder.addOrder.injEq, NormalizedAddOrder.mk.injEq,
      true_and, and_true]
    constructor
    · rintro ⟨hlocate, htracking⟩
      exact ⟨hlocate.symm, htracking.symm⟩
    · rintro ⟨hlocate, htracking⟩
      exact ⟨hlocate.symm, htracking.symm⟩

def locatedOrder : AddOrder := ⟨1#16, 2#16, 3#48, 4#64, 66#8, 100#32, fun _ => 32#8, 7#32⟩

/-- Both numbers are zero after decoding. -/
theorem located_order_forgotten :
    (WireOrder.addOrder locatedOrder).parse locatedOrder.encode =
        some (.addOrder ⟨3#64, 4#64, 100#32, 7#32, 0#16, 0#16, List.replicate 8 32#8, 66#8⟩) ∧
      (WireOrder.addOrder locatedOrder).parse locatedOrder.encode ≠
        some (WireOrder.addOrder locatedOrder).normalized := by
  rw [locatedOrder.parse_encode]
  exact ⟨by decide, by decide⟩

end MarketDataBook
