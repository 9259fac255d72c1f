import MarketDataBook.BlockFraming
import MarketDataBook.MockMode

/-! What the book depends on: of the messages their type, the order number and, for adds and
executions, shares, price and side; of the threads nothing but how far the book thread has come.
Two runs of mock mode that agree on this have the same book. -/
namespace MarketDataBook
open ByteMemory

/-- Offset and length of the numbers the book takes from a message of a type. The cancelled
shares of a cancel are not among them. -/
def bookFields (messageType : Byte) : List (Nat × Nat) :=
  if messageType = 65#8 then [(11, 8), (20, 4), (32, 4)]
  else if messageType = 69#8 then [(11, 8), (19, 4)]
  else if messageType = 88#8 then [(11, 8)]
  else []

/-- The messages differ at most in what the book does not look at: locate and tracking number,
time, stock, match number, which byte other than `B` stands for a sell, and all of a message of
another type. -/
structure SameForBook (m m' : List Byte) : Prop where
  head : m.head? = m'.head?
  fields : ∀ field ∈ m.head?.elim [] bookFields,
    fieldValue m field.1 field.2 = fieldValue m' field.1 field.2
  side : m.head? = some 65#8 → (m[19]? = some 66#8 ↔ m'[19]? = some 66#8)

def SameEffect (o o' : NormalizedOrder) : Prop :=
  ∀ b : LimitOrderBook, b.step (dispatchTable o) = b.step (dispatchTable o')

section Orders
variable {m m' : List Byte}

theorem sameEffect_add {o o' : NormalizedAddOrder}
    (href : o.orderReferenceNumber = o'.orderReferenceNumber) (hshares : o.shares = o'.shares)
    (hprice : o.price = o'.price) (hside : o.indicator = 66#8 ↔ o'.indicator = 66#8) :
    SameEffect (.addOrder o) (.addOrder o') := by
  intro b
  simp only [dispatchTable, LimitOrderBook.step, LimitOrderBook.addOrder,
    LimitOrderBook.addOrderImpl, href, hshares, hprice, hside]

theorem sameEffect_execute {o o' : NormalizedOrderExecuted}
    (href : o.orderReferenceNumber = o'.orderReferenceNumber) (hshares : o.shares = o'.shares) :
    SameEffect (.executeOrder o) (.executeOrder o') := by
  intro b
  simp only [dispatchTable, LimitOrderBook.step, LimitOrderBook.executeOrder, href, hshares]

theorem sameEffect_cancel {o o' : NormalizedCancelOrder}
    (href : o.orderReferenceNumber = o'.orderReferenceNumber) :
    SameEffect (.cancelOrder o) (.cancelOrder o') := by
  intro b
  simp only [dispatchTable, href]

/-- A field both messages have gives both orders the same value. -/
theorem SameForBook.value {n offset size : Nat} {v v' : BitVec n} {t : Byte}
    (h : SameForBook m m') (ht : m.head? = some t) (hmem : (offset, size) ∈ bookFields t)
    (hv : v.toNat = fieldValue m offset size) (hv' : v'.toNat = fieldValue m' offset size) :
    v = v' := by
  apply BitVec.eq_of_toNat_eq
  rw [hv, hv']
  exact h.fields (offset, size) (by rw [ht]; exact hmem)

/-- The messages are decoded to orders with the same effect, or both to none. -/
theorem SameForBook.messageOrder (h : SameForBook m m') (hm : Complete m) (hm' : Complete m') :
    Option.Rel SameEffect (messageOrder m) (messageOrder m') := by
  have hc := hm.carriesFields
  have hc' := hm'.carriesFields
  -- `CarriesFields` fixes the type of the message, and the types are the same
  cases ho : MarketDataBook.messageOrder m with
  | none =>
    cases ho' : MarketDataBook.messageOrder m' with
    | none => exact .none
    | some o' =>
      rw [ho, CarriesFields, h.head] at hc
      rw [ho'] at hc'
      obtain ⟨hadd, hexecute, hcancel⟩ := hc
      cases o' with
      | addOrder o' => exact absurd hc'.1 hadd
      | executeOrder o' => exact absurd hc'.1 hexecute
      | cancelOrder o' => exact absurd hc'.1 hcancel
  | some o =>
    rw [ho] at hc
    cases ho' : MarketDataBook.messageOrder m' with
    | none =>
      rw [ho', CarriesFields, ← h.head] at hc'
      obtain ⟨hadd, hexecute, hcancel⟩ := hc'
      cases o with
      | addOrder o => exact absurd hc.1 hadd
      | executeOrder o => exact absurd hc.1 hexecute
      | cancelOrder o => exact absurd hc.1 hcancel
    | some o' =>
      rw [ho'] at hc'
      refine .some ?_
      cases o with
      | addOrder o =>
        obtain ⟨ht, -, href, hshares, hprice, -, hside⟩ := hc
        cases o' with
        | addOrder o' =>
          obtain ⟨-, -, href', hshares', hprice', -, hside'⟩ := hc'
          have hs := h.side ht
          rw [hside, hside', Option.some.injEq, Option.some.injEq] at hs
          exact sameEffect_add (h.value ht (by decide) href href')
            (h.value ht (by decide) hshares hshares') (h.value ht (by decide) hprice hprice') hs
        | executeOrder o' => exact absurd (ht.symm.trans (h.head.trans hc'.1)) (by decide)
        | cancelOrder o' => exact absurd (ht.symm.trans (h.head.trans hc'.1)) (by decide)
      | executeOrder o =>
        obtain ⟨ht, -, href, -, hshares⟩ := hc
        cases o' with
        | executeOrder o' =>
          obtain ⟨-, -, href', -, hshares'⟩ := hc'
          exact sameEffect_execute (h.value ht (by decide) href href')
            (h.value ht (by decide) hshares hshares')
        | addOrder o' => exact absurd (ht.symm.trans (h.head.trans hc'.1)) (by decide)
        | cancelOrder o' => exact absurd (ht.symm.trans (h.head.trans hc'.1)) (by decide)
      | cancelOrder o =>
        obtain ⟨ht, -, href, -⟩ := hc
        cases o' with
        | cancelOrder o' =>
          obtain ⟨-, -, href', -⟩ := hc'
          exact sameEffect_cancel (h.value ht (by decide) href href')
        | addOrder o' => exact absurd (ht.symm.trans (h.head.trans hc'.1)) (by decide)
        | executeOrder o' => exact absurd (ht.symm.trans (h.head.trans hc'.1)) (by decide)

theorem orders_sameEffect {ms ms' : List (List Byte)} (h : List.Forall₂ SameForBook ms ms')
    (hc : ∀ m ∈ ms, Complete m) (hc' : ∀ m ∈ ms', Complete m) :
    List.Forall₂ SameEffect (ms.filterMap messageOrder) (ms'.filterMap messageOrder) := by
  induction h with
  | nil => exact .nil
  | @cons m m' ms ms' hhead htail ih =>
    have hrest := ih (fun m hm => hc m (.tail _ hm)) (fun m hm => hc' m (.tail _ hm))
    have hone := hhead.messageOrder (hc m (.head _)) (hc' m' (.head _))
    cases ho : messageOrder m with
    | none =>
      rw [ho] at hone
      cases ho' : messageOrder m' with
      | none =>
        rw [List.filterMap_cons_none ho, List.filterMap_cons_none ho']
        exact hrest
      | some o' =>
        rw [ho'] at hone
        cases hone
    | some o =>
      rw [ho] at hone
      cases ho' : messageOrder m' with
      | none =>
        rw [ho'] at hone
        cases hone
      | some o' =>
        rw [ho'] at hone
        cases hone with
        | some heffect =>
          rw [List.filterMap_cons_some ho, List.filterMap_cons_some ho']
          exact .cons heffect hrest

theorem replay_sameEffect {os os' : List NormalizedOrder} (h : List.Forall₂ SameEffect os os')
    (b : LimitOrderBook) : replay b (os.map some) = replay b (os'.map some) := by
  induction h generalizing b with
  | nil => rfl
  | cons hhead htail ih =>
    rw [List.map_cons, List.map_cons, replay, replay, hhead b]
    split
    · rfl
    · rw [ih]

end Orders

def ConsumerPc.underWay : ConsumerPc → Nat
  | .pop => 0
  | .dispatch _ => 1
  | .terminated _ => 0

def ConsumerPc.outcome : ConsumerPc → Outcome
  | .pop => .returned
  | .dispatch _ => .returned
  | .terminated what => .raised what

def InPlaceFeed.applied (s : InPlaceFeed) : Nat :=
  s.channel.popped.length - s.consumer.underWay

structure SameBook (s s' : InPlaceFeed) : Prop where
  book : s.book = s'.book
  outcome : s.consumer.outcome = s'.consumer.outcome

section Runs
variable {b : LimitOrderBook} {s s' : InPlaceFeed} {ms ms' : List (List Byte)}

theorem ConsumerOk.replayed {popped : List NormalizedOrder} {book : LimitOrderBook}
    {pc : ConsumerPc} (h : ConsumerOk b popped book pc) :
    (replay b ((popped.take (popped.length - pc.underWay)).map some)).book = book ∧
      (replay b ((popped.take (popped.length - pc.underWay)).map some)).outcome = pc.outcome := by
  cases pc with
  | pop =>
    rw [ConsumerOk] at h
    rw [ConsumerPc.underWay, Nat.sub_zero, List.take_length, h]
    exact ⟨rfl, rfl⟩
  | dispatch order =>
    obtain ⟨done, rfl, hr⟩ := h
    have hlen : (done ++ [order]).length - 1 = done.length := by
      rw [List.length_append, List.length_singleton, Nat.add_sub_cancel]
    rw [ConsumerPc.underWay, hlen, List.take_left, hr]
    exact ⟨rfl, rfl⟩
  | terminated what =>
    obtain ⟨done, order, -, hr⟩ := h
    rw [ConsumerPc.underWay, Nat.sub_zero, List.take_length, hr]
    exact ⟨rfl, rfl⟩

/-- With no order turned away, those popped are the first ones of the messages. -/
theorem Carried.popped_eq (h : Carried ms b s) (hpush : ∀ p ∈ s.channel.pushes, p.2 = true) :
    s.channel.popped.take s.applied = (ms.filterMap messageOrder).take s.applied := by
  have hpopped := h.popped
  rw [Channel.pushed_of_all hpush] at hpopped
  obtain ⟨rest, hrest⟩ := hpopped.trans h.handed
  have hle : s.applied ≤ s.channel.popped.length := Nat.sub_le _ _
  rw [← hrest, List.take_append_of_le_length hle]

theorem Carried.sameBook (h : Carried ms b s) (h' : Carried ms' b s')
    (hsame : List.Forall₂ SameForBook ms ms') (hc : ∀ m ∈ ms, Complete m)
    (hc' : ∀ m ∈ ms', Complete m) (hpush : ∀ p ∈ s.channel.pushes, p.2 = true)
    (hpush' : ∀ p ∈ s'.channel.pushes, p.2 = true) (happlied : s.applied = s'.applied) :
    SameBook s s' := by
  obtain ⟨hbook, houtcome⟩ := h.book.replayed
  obtain ⟨hbook', houtcome'⟩ := h'.book.replayed
  have horders : List.Forall₂ SameEffect (s.channel.popped.take s.applied)
      (s'.channel.popped.take s'.applied) := by
    rw [h.popped_eq hpush, h'.popped_eq hpush', happlied]
    exact List.forall₂_take _ (orders_sameEffect hsame hc hc')
  have hreplay := replay_sameEffect horders b
  refine ⟨?_, ?_⟩
  · rw [← hbook, ← hbook']
    exact congrArg Replay.book hreplay
  · rw [← houtcome, ← houtcome']
    exact congrArg Replay.outcome hreplay

theorem flatMap_messages_complete (blocks : List Block) :
    ∀ m ∈ blocks.flatMap Block.messages, Complete m := by
  intro m hm
  obtain ⟨block, -, hmem⟩ := List.mem_flatMap.mp hm
  exact block.complete m hmem

end Runs

/-- Two runs of mock mode, on files whose messages the book cannot tell apart, with queues,
clocks, memory and schedules of their own: whenever their book threads have dealt with equally
many orders, and no order was turned away, they have the same book. -/
theorem MockMode.run_blind (k k' : Nat) (clock clock' : Nat → BitVec 64) {file file' : List Byte}
    (hfit : RecordsFit file) (hfit' : RecordsFit file') {blocks blocks' : List Block}
    (hblocks : completeRecords file = blocks.map Block.bytes)
    (hblocks' : completeRecords file' = blocks'.map Block.bytes)
    (hsame : List.Forall₂ SameForBook (blocks.flatMap Block.messages)
      (blocks'.flatMap Block.messages))
    (data data' : Nat → NormalizedOrder) (b : LimitOrderBook)
    (schedule schedule' : List MockThread) :
    let s := MockMode.run (2^k) clock file data b schedule
    let s' := MockMode.run (2^k') clock' file' data' b schedule'
    (∀ p ∈ s.channel.pushes, p.2 = true) → (∀ p ∈ s'.channel.pushes, p.2 = true) →
      s.applied = s'.applied → SameBook s.toInPlaceFeed s'.toInPlaceFeed := by
  intro s s' hpush hpush' happlied
  obtain ⟨h, -⟩ := MockMode.run_carried k clock hfit hblocks data b schedule
  obtain ⟨h', -⟩ := MockMode.run_carried k' clock' hfit' hblocks' data' b schedule'
  exact h.sameBook h' hsame (flatMap_messages_complete blocks) (flatMap_messages_complete blocks')
    hpush hpush' happlied

def otherStockBlock : Block where
  messages := [65#8 :: List.replicate 10 7#8 ++ List.replicate 8 0#8 ++ 66#8 ::
      List.replicate 4 0#8 ++ List.replicate 8 77#8 ++ List.replicate 4 0#8,
    83#8 :: List.replicate 11 9#8, 88#8 :: List.replicate 10 8#8 ++ List.replicate 8 0#8 ++
      List.replicate 4 1#8]
  tail := []
  complete := by
    intro m hm
    simp only [List.mem_cons, List.not_mem_nil, or_false] at hm
    obtain rfl | rfl | rfl := hm
    · exact ⟨65#8, rfl, by decide⟩
    · exact ⟨83#8, rfl, by decide⟩
    · exact ⟨88#8, rfl, by decide⟩
  truncated := truncated_nil

def otherStockFile : List Byte := 0#8 :: 71#8 :: otherStockBlock.bytes

theorem completeRecords_otherStockFile :
    completeRecords otherStockFile = [otherStockBlock].map Block.bytes :=
  completeRecords_singleton (by decide +kernel)

theorem recordsFit_otherStockFile : RecordsFit otherStockFile := by
  intro m hm
  rw [completeRecords_otherStockFile] at hm
  rw [List.mem_singleton.mp hm]
  decide +kernel

theorem otherStockBlock_same :
    List.Forall₂ SameForBook addCancelBlock.messages otherStockBlock.messages := by
  refine .cons ⟨rfl, by decide +kernel, fun _ => by decide⟩
    (.cons ⟨rfl, by decide +kernel, fun _ => by decide⟩
      (.cons ⟨rfl, by decide +kernel, fun _ => by decide⟩ .nil))

def addCancelRun : MockMode :=
  MockMode.run (2^2) (fun _ => 0#64) addCancelFile
    (fun _ => .addOrder (.plain 66#8 1#64 5#32 3#32)) (.new 1)
    (List.replicate 6 .simulate ++ List.replicate 17 .main ++ List.replicate 12 .consume)

def overlappedRun : MockMode :=
  MockMode.run (2^3) (fun n => BitVec.ofNat 64 n) otherStockFile
    (fun _ => .addOrder (.plain 83#8 2#64 6#32 4#32)) (.new 1)
    (List.replicate 6 .simulate ++ List.replicate 8 .main ++ List.replicate 6 .consume ++
      List.replicate 9 .main ++ List.replicate 6 .consume)

theorem otherStockFile_blind :
    addCancelRun.applied = 2 ∧ overlappedRun.applied = 2 ∧
      SameBook addCancelRun.toInPlaceFeed overlappedRun.toInPlaceFeed := by
  have hsame : List.Forall₂ SameForBook ([addCancelBlock].flatMap Block.messages)
      ([otherStockBlock].flatMap Block.messages) := by
    rw [List.flatMap_singleton, List.flatMap_singleton]
    exact otherStockBlock_same
  have happlied : addCancelRun.applied = 2 := by decide +kernel
  have happlied' : overlappedRun.applied = 2 := by decide +kernel
  have hpush : ∀ p ∈ addCancelRun.channel.pushes, p.2 = true := by decide +kernel
  have hpush' : ∀ p ∈ overlappedRun.channel.pushes, p.2 = true := by
    decide +kernel
  exact ⟨happlied, happlied', MockMode.run_blind 2 3 _ _ recordsFit_addCancelFile
    recordsFit_otherStockFile completeRecords_addCancelFile completeRecords_otherStockFile hsame
    _ _ (.new 1) _ _ hpush hpush' (happlied.trans happlied'.symm)⟩

end MarketDataBook
