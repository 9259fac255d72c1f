import MarketDataBook.ItchOrderTypes
import MarketDataBook.Library.ByteMemory

/-! `protocol/ItchParser.h`: decoding, and one turn of the loop of `parse_block`. A payload is
the bytes from `payload_ptr` on; an access outside them, or outside the length table, yields
`none`. What the loop does to the log and the queue belongs to later modules. -/
namespace MarketDataBook
open ByteMemory

def readWord (payload : List Byte) (offset n : Nat) : Option (BitVec (8 * n)) :=
  if offset + n ≤ payload.length then some (load (fun i => payload.getD i 0#8) offset n) else none

def readBytes (payload : List Byte) (offset n : Nat) : Option (List Byte) :=
  if offset + n ≤ payload.length then some ((payload.drop offset).take n) else none

/-- `__builtin_bswap16`, `__builtin_bswap32` and `__builtin_bswap64`. -/
def bswap (n : Nat) (v : BitVec (8 * n)) : BitVec (8 * n) :=
  load (fun i => v.extractLsb' (8 * (n - 1 - i)) 8) 0 n

theorem bswap_load (m : Memory) (addr n : Nat) :
    bswap n (load m addr n) = load (fun i => m (addr + (n - 1 - i))) 0 n := by
  apply load_congr
  intro i hi
  rw [Nat.zero_add, extractLsb'_load (by omega)]

/-- A swapped load reads the bytes in network order. -/
theorem toNat_bswap_load (m : Memory) (addr n : Nat) :
    (bswap n (load m addr n)).toNat = bigEndian (slice m addr n) := by
  rw [bswap_load, toNat_load_reverse]

def extractHeader (payload : List Byte) : Option Header := do
  let ts ← readWord payload 5 6
  let orderReferenceNumber ← readWord payload 11 8
  let stockLocate ← readWord payload 1 2
  let trackingNumber ← readWord payload 3 2
  return { timestamp := bswap 8 (ts.setWidth 64) >>> 16
           orderReferenceNumber := bswap 8 orderReferenceNumber
           stockLocate := bswap 2 stockLocate
           trackingNumber := bswap 2 trackingNumber }

/-- `stock_locate` and `tracking_number` keep the zeros of the value initialisation. -/
def parseAddOrder (rawData : List Byte) (header : Header) : Option NormalizedOrder := do
  let shares ← readWord rawData 20 4
  let price ← readWord rawData 32 4
  let stock ← readBytes rawData 24 8
  let indicator ← rawData[19]?
  return .addOrder
    { timestamp := header.timestamp
      orderReferenceNumber := header.orderReferenceNumber
      shares := bswap 4 shares
      price := bswap 4 price
      stockLocate := 0#16
      trackingNumber := 0#16
      stock := stock
      indicator := indicator }

def parseExecutedOrder (rawData : List Byte) (header : Header) : Option NormalizedOrder := do
  let matchNumber ← readWord rawData 23 8
  let shares ← readWord rawData 19 4
  return .executeOrder
    { timestamp := header.timestamp
      orderReferenceNumber := header.orderReferenceNumber
      matchNumber := bswap 8 matchNumber
      shares := bswap 4 shares
      stockLocate := header.stockLocate
      trackingNumber := header.trackingNumber }

def parseCancelOrder (rawData : List Byte) (header : Header) : Option NormalizedOrder := do
  let shares ← readWord rawData 19 4
  return .cancelOrder
    { timestamp := header.timestamp
      orderReferenceNumber := header.orderReferenceNumber
      shares := bswap 4 shares
      stockLocate := header.stockLocate
      trackingNumber := header.trackingNumber }

/-- The switch over the supported types that `parse_block` and `run_recovery` make;
the inner `none` is its default. -/
def parseOrder (messageType : Byte) (payload : List Byte) (header : Header) :
    Option (Option NormalizedOrder) :=
  if messageType = 65#8 then (parseAddOrder payload header).map some
  else if messageType = 69#8 then (parseExecutedOrder payload header).map some
  else if messageType = 88#8 then (parseCancelOrder payload header).map some
  else some none

def decode (messageType : Byte) (payload : List Byte) : Option (Option NormalizedOrder) :=
  (extractHeader payload).bind (parseOrder messageType payload)

def messageLengthTable : List Nat := [
    0,   0,   0,   0,   0,   0,   0,   0,   0,   0,   0,   0,   0,   0,   0,   0,
    0,   0,   0,   0,   0,   0,   0,   0,   0,   0,   0,   0,   0,   0,   0,   0,
    0,   0,   0,   0,   0,   0,   0,   0,   0,   0,   0,   0,   0,   0,   0,   0,
    0,   0,   0,   0,   0,   0,   0,   0,   0,   0,   0,   0,   0,   0,   0,   0,
    0,  36,  19,  36,  19,  31,  40,   0,  25,  50,  35,  28,  26,   0,  20,  48,
   44,  40,  39,  12,   0,  35,  35,  12,  23,  20,   0,   0,   0,   0,   0,   0,
    0,   0,   0,   0,   0,   0,   0,   0,  21,   0,   0,   0,   0,   0,   0,   0,
    0,   0,   0,   0,   0,   0,   0,   0,   0,   0,   0,   0,   0,   0,   0,   0,
    0,   0,   0,   0,   0,   0,   0,   0,   0,   0,   0,   0,   0,   0,   0,   0,
    0,   0,   0,   0,   0,   0,   0,   0,   0,   0,   0,   0,   0,   0,   0,   0,
    0,   0,   0,   0,   0,   0,   0,   0,   0,   0,   0,   0,   0,   0,   0,   0,
    0,   0,   0,   0,   0,   0,   0,   0,   0,   0,   0,   0,   0,   0,   0,   0,
    0,   0,   0,   0,   0,   0,   0,   0,   0,   0,   0,   0,   0,   0,   0,   0,
    0,   0,   0,   0,   0,   0,   0,   0,   0,   0,   0,   0,   0,   0,   0,   0,
    0,   0,   0,   0,   0,   0,   0,   0,   0,   0,   0,   0,   0,   0,   0,   0,
    0,   0,   0,   0,   0,   0,   0,   0,   0,   0,   0,   0,   0,   0,   0,   0]

/-- `message_length_table[message_type - '\0']` with a signed `char`. -/
def messageLength (messageType : Byte) : Option Nat :=
  if messageType.toInt < 0 then none else messageLengthTable[messageType.toInt.toNat]?

inductive ParseTurn where
  | stop
  | outOfBounds
  | unsupported (message rest : List Byte)
  | order (messageType : Byte) (message : List Byte) (newOrder : NormalizedOrder)
      (rest : List Byte)
  deriving DecidableEq

def orderLength (messageType : Byte) : Option Nat :=
  if messageType = 65#8 then some 36
  else if messageType = 69#8 then some 31
  else if messageType = 88#8 then some 23
  else none

def parseOrderTurn (messageType : Byte) (len : Nat) (payload : List Byte) : ParseTurn :=
  match readBytes payload 0 len, decode messageType payload with
  | some message, some (some newOrder) => .order messageType message newOrder (payload.drop len)
  | _, _ => .outOfBounds

def parseTurn (payload : List Byte) : ParseTurn :=
  match payload with
  | [] => .stop
  | messageType::_ =>
    match messageLength messageType with
    | none => .outOfBounds
    | some messageLen =>
      if payload.length < messageLen then .stop
      else
        match orderLength messageType with
        | none => .unsupported (payload.take messageLen) (payload.drop messageLen)
        | some len => parseOrderTurn messageType len payload

end MarketDataBook
