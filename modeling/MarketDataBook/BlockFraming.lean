import MarketDataBook.FeedPipeline
import MarketDataBook.ParseBlock

/-! What `parse_block` makes of a well formed block: a frame for every message, and an order
with the message's field values for every message of a supported type. -/
namespace MarketDataBook
open ByteMemory

def fieldValue (message : List Byte) (offset n : Nat) : Nat :=
  bigEndian ((message.drop offset).take n)

structure HeaderFields (m : List Byte) (header : Header) : Prop where
  timestamp : header.timestamp.toNat = fieldValue m 5 6
  orderReferenceNumber : header.orderReferenceNumber.toNat = fieldValue m 11 8
  stockLocate : header.stockLocate.toNat = fieldValue m 1 2
  trackingNumber : header.trackingNumber.toNat = fieldValue m 3 2

def CarriesFields (m : List Byte) : Option NormalizedOrder → Prop
  | none => m.head? ≠ some 65#8 ∧ m.head? ≠ some 69#8 ∧ m.head? ≠ some 88#8
  | some (.addOrder o) => m.head? = some 65#8 ∧
      o.timestamp.toNat = fieldValue m 5 6 ∧
      o.orderReferenceNumber.toNat = fieldValue m 11 8 ∧
      o.shares.toNat = fieldValue m 20 4 ∧
      o.price.toNat = fieldValue m 32 4 ∧
      o.stock = (m.drop 24).take 8 ∧
      m[19]? = some o.indicator
  | some (.executeOrder o) => m.head? = some 69#8 ∧
      o.timestamp.toNat = fieldValue m 5 6 ∧
      o.orderReferenceNumber.toNat = fieldValue m 11 8 ∧
      o.matchNumber.toNat = fieldValue m 23 8 ∧
      o.shares.toNat = fieldValue m 19 4
  | some (.cancelOrder o) => m.head? = some 88#8 ∧
      o.timestamp.toNat = fieldValue m 5 6 ∧
      o.orderReferenceNumber.toNat = fieldValue m 11 8 ∧
      o.shares.toNat = fieldValue m 19 4

section Fields
variable {m : List Byte} {offset : Nat}

theorem readWord_eq_some {n : Nat} {v : BitVec (8 * n)} (h : readWord m offset n = some v) :
    offset + n ≤ m.length ∧ v = load (fun i => m.getD i 0#8) offset n := by
  rw [readWord] at h
  split_ifs at h with hle
  exact ⟨hle, (Option.some.inj h).symm⟩

theorem toNat_bswap_readWord {n : Nat} {v : BitVec (8 * n)} (h : readWord m offset n = some v) :
    (bswap n v).toNat = fieldValue m offset n := by
  obtain ⟨hle, rfl⟩ := readWord_eq_some h
  rw [toNat_bswap_load, slice_getD hle, fieldValue]

/-- Six bytes swapped in a 64-bit word end up in its upper part. -/
theorem toNat_timestamp {v : BitVec (8 * 6)} (h : readWord m offset 6 = some v) :
    (bswap 8 (v.setWidth 64) >>> 16).toNat = fieldValue m offset 6 := by
  obtain ⟨hle, rfl⟩ := readWord_eq_some h
  let wide : Memory := fun i => if i < 6 then m.getD (offset + i) 0#8 else 0#8
  have hload : (load (fun i => m.getD i 0#8) offset 6).setWidth 64 = load wide 0 8 :=
    setWidth_load (fun i => m.getD i 0#8) offset 6 2
  have hslice : slice wide 0 8 = slice (fun i => m.getD i 0#8) offset 6 ++ [0#8, 0#8] := rfl
  have hzero : bigEndian [0#8, 0#8] = 0 := rfl
  rw [hload, BitVec.toNat_ushiftRight, toNat_bswap_load, hslice, bigEndian_append, hzero,
    Nat.shiftRight_eq_div_pow, slice_getD hle, fieldValue]
  simp

theorem extractHeader_fields {header : Header} (h : extractHeader m = some header) :
    HeaderFields m header := by
  simp only [extractHeader, bind, Option.bind_eq_some_iff, pure, Option.some.injEq] at h
  obtain ⟨ts, h1, ref, h2, locate, h3, tracking, h4, rfl⟩ := h
  exact ⟨toNat_timestamp h1, toNat_bswap_readWord h2, toNat_bswap_readWord h3,
    toNat_bswap_readWord h4⟩

theorem parseAddOrder_carries {header : Header} {o : NormalizedOrder}
    (hh : HeaderFields m header) (hm : m.head? = some 65#8)
    (h : parseAddOrder m header = some o) : CarriesFields m (some o) := by
  simp only [parseAddOrder, bind, Option.bind_eq_some_iff, pure, Option.some.injEq] at h
  obtain ⟨shares, h1, price, h2, stock, h3, indicator, h4, rfl⟩ := h
  rw [readBytes] at h3
  split_ifs at h3
  exact ⟨hm, hh.timestamp, hh.orderReferenceNumber, toNat_bswap_readWord h1,
    toNat_bswap_readWord h2, (Option.some.inj h3).symm, h4⟩

theorem parseExecutedOrder_carries {header : Header} {o : NormalizedOrder}
    (hh : HeaderFields m header) (hm : m.head? = some 69#8)
    (h : parseExecutedOrder m header = some o) : CarriesFields m (some o) := by
  simp only [parseExecutedOrder, bind, Option.bind_eq_some_iff, pure, Option.some.injEq] at h
  obtain ⟨matchNumber, h1, shares, h2, rfl⟩ := h
  exact ⟨hm, hh.timestamp, hh.orderReferenceNumber, toNat_bswap_readWord h1,
    toNat_bswap_readWord h2⟩

theorem parseCancelOrder_carries {header : Header} {o : NormalizedOrder}
    (hh : HeaderFields m header) (hm : m.head? = some 88#8)
    (h : parseCancelOrder m header = some o) : CarriesFields m (some o) := by
  simp only [parseCancelOrder, bind, Option.bind_eq_some_iff, pure, Option.some.injEq] at h
  obtain ⟨shares, h1, rfl⟩ := h
  exact ⟨hm, hh.timestamp, hh.orderReferenceNumber, toNat_bswap_readWord h1⟩

theorem decode_carries {t : Byte} {o : NormalizedOrder} (hm : m.head? = some t)
    (h : decode t m = some (some o)) : CarriesFields m (some o) := by
  obtain ⟨header, hheader, hp⟩ := Option.bind_eq_some_iff.mp h
  have hh := extractHeader_fields hheader
  rw [parseOrder] at hp
  split_ifs at hp with h1 h2 h3
  · obtain ⟨o', ho, he⟩ := Option.map_eq_some_iff.mp hp
    cases he
    exact parseAddOrder_carries hh (h1 ▸ hm) ho
  · obtain ⟨o', ho, he⟩ := Option.map_eq_some_iff.mp hp
    cases he
    exact parseExecutedOrder_carries hh (h2 ▸ hm) ho
  · obtain ⟨o', ho, he⟩ := Option.map_eq_some_iff.mp hp
    cases he
    exact parseCancelOrder_carries hh (h3 ▸ hm) ho
  · cases hp

theorem Complete.carriesFields (h : Complete m) : CarriesFields m (messageOrder m) := by
  obtain ⟨t, hm, hl⟩ := id h
  cases ho : orderLength t with
  | none =>
    have hnone : messageOrder m = none := by
      rw [messageOrder, hm, Option.bind_some, decode_join_unsupported ho]
    rw [hnone, CarriesFields, hm]
    refine ⟨?_, ?_, ?_⟩ <;> rintro ⟨⟩ <;> cases ho
  | some len =>
    rw [messageLength_of_orderLength ho, Option.some.injEq] at hl
    obtain ⟨o, hd⟩ := decode_some ho hl.le
    have hsome : messageOrder m = some o := by
      rw [messageOrder, hm, Option.bind_some, hd]
      rfl
    rw [hsome]
    exact decode_carries hm hd

end Fields

structure SPSCQueue.Holds {α : Type*} (size : Nat) (q : SPSCQueue α) (waiting : List α) :
    Prop where
  head : q.head < size
  tail : q.tail = (q.head + waiting.length) % size
  room : waiting.length < size
  data : ∀ i v, waiting[i]? = some v → q.data ((q.head + i) % size) = v

section Queue
variable {α : Type*} {k : Nat} {q : SPSCQueue α} {waiting : List α}

theorem SPSCQueue.Holds.new (k : Nat) (data : Nat → α) :
    (SPSCQueue.new data).Holds (2^k) [] where
  head := Nat.two_pow_pos k
  tail := (Nat.zero_mod _).symm
  room := Nat.two_pow_pos k
  data := by simp

theorem Channel.Fifo.holds {c : Channel α} (h : c.Fifo (2^k)) :
    c.queue.Holds (2^k) (c.pushed.drop c.popped.length) where
  head := by
    rw [h.head]
    exact Nat.mod_lt _ (Nat.two_pow_pos k)
  tail := by
    have hle := h.le
    rw [h.head, h.tail, List.length_drop, Nat.mod_add_mod, Nat.add_sub_cancel' hle]
  room := by
    have hle := h.le
    have hroom := h.room
    rw [List.length_drop]
    omega
  data := by
    intro i v hv
    rw [List.getElem?_drop] at hv
    rw [h.head, Nat.mod_add_mod]
    exact h.data _ v (Nat.le_add_right _ _) hv

/-- With a free slot `push` succeeds, whatever it had cached. -/
theorem SPSCQueue.push_of_ne {size : Nat} (h : q.head ≠ nextIdx size q.tail) (v : α) :
    ∃ cachedHead, q.push size v = (⟨nextIdx size q.tail, cachedHead, q.head, q.cachedTail,
      Function.update q.data q.tail v⟩, true) := by
  by_cases hc : q.cachedHead = nextIdx size q.tail
  · exact ⟨q.head, by simp [push, hc, h]⟩
  · exact ⟨q.cachedHead, by simp [push, hc]⟩

theorem SPSCQueue.Holds.push (h : q.Holds (2^k) waiting) (hroom : waiting.length + 1 < 2^k)
    (v : α) : (q.push (2^k) v).1.Holds (2^k) (waiting ++ [v]) ∧
      (q.push (2^k) v).1.head = q.head ∧ (q.push (2^k) v).2 = true := by
  have hlen : (waiting ++ [v]).length = waiting.length + 1 := List.length_append
  have hnext : nextIdx (2^k) q.tail = (q.head + (waiting.length + 1)) % 2^k := by
    rw [h.tail, Channel.nextIdx_mod, Nat.add_assoc]
  have hne : q.head ≠ nextIdx (2^k) q.tail := by
    have hlap := RingIndex.mod_eq_mod_iff (a := q.head) (b := q.head + (waiting.length + 1))
      (n := 2^k) (by omega) (by omega)
    rw [Nat.mod_eq_of_lt h.head] at hlap
    rw [hnext, ne_eq, hlap]
    omega
  obtain ⟨cachedHead, hpush⟩ := push_of_ne hne v
  rw [hpush]
  refine ⟨⟨h.head, by rw [hlen]; exact hnext, by omega, ?_⟩, rfl, rfl⟩
  intro i w hw
  dsimp only
  obtain hlt | hge := Nat.lt_or_ge i waiting.length
  · rw [List.getElem?_append_left hlt] at hw
    have hslot : (q.head + i) % 2^k ≠ q.tail := by
      rw [h.tail, ne_eq, RingIndex.mod_eq_mod_iff (by omega) (by omega)]
      omega
    rw [Function.update_of_ne hslot, h.data i w hw]
  · have hi : i = waiting.length := by
      have := (List.getElem?_eq_some_iff.mp hw).1
      omega
    rw [hi, List.getElem?_concat_length, Option.some.injEq] at hw
    rw [hi, ← h.tail, Function.update_self, hw]

end Queue

def ItchParser.handle (size : Nat) (p : ItchParser) (message : List Byte) (rdtsc : BitVec 64) :
    ItchParser where
  queue :=
    match messageOrder message with
    | none => p.queue
    | some newOrder => (p.queue.push size newOrder).1
  log := logPayload p.log ⟨message, messageTag message, rdtsc⟩

def ItchParser.handleAll (size : Nat) (rdtsc : Nat → BitVec 64) (p : ItchParser) :
    List (List Byte) → ItchParser
  | [] => p
  | m::ms => ItchParser.handleAll size (fun i => rdtsc (i+1)) (p.handle size m (rdtsc 0)) ms

def LogCall.OfMessage (c : LogCall) : Prop :=
  Complete c.payload ∧ c.msgType = messageTag c.payload

def blockCalls (rdtsc : Nat → BitVec 64) (messages : List (List Byte)) : List LogCall :=
  messages.mapIdx fun j m => ⟨m, messageTag m, rdtsc j⟩

section Framing
variable {k : Nat} {size : Nat} {m : List Byte} {p : ItchParser}

theorem Complete.parseBlock (h : Complete m) (fuel : Nat) (rdtsc : Nat → BitVec 64)
    (rest : List Byte) : parseBlock size (fuel+1) rdtsc p (m ++ rest) =
      parseBlock size fuel (fun i => rdtsc (i+1)) (p.handle size m (rdtsc 0)) rest := by
  obtain ⟨t, hm, _⟩ := id h
  rw [MarketDataBook.parseBlock, ItchParser.handle]
  cases ho : orderLength t with
  | none =>
    obtain ⟨hturn, htag⟩ := h.parseTurn_unsupported hm ho rest
    have hnone : messageOrder m = none := by
      rw [messageOrder, hm, Option.bind_some, decode_join_unsupported ho]
    rw [hturn, htag, hnone]
  | some len =>
    obtain ⟨o, hsome, htag, hturn⟩ := h.parseTurn_order hm ho rest
    rw [hturn, htag, hsome]

theorem ItchParser.handle_queue {waiting : List NormalizedOrder}
    (hq : p.queue.Holds (2^k) waiting)
    (hroom : waiting.length + (messageOrder m).toList.length < 2^k) (rdtsc : BitVec 64) :
    (p.handle (2^k) m rdtsc).queue.Holds (2^k) (waiting ++ (messageOrder m).toList) ∧
      (p.handle (2^k) m rdtsc).queue.head = p.queue.head := by
  rw [ItchParser.handle]
  cases ho : messageOrder m with
  | none =>
    rw [Option.toList_none, List.append_nil]
    exact ⟨hq, rfl⟩
  | some o =>
    rw [ho] at hroom
    obtain ⟨hpush, hhead, _⟩ := hq.push hroom o
    exact ⟨hpush, hhead⟩

theorem blockCalls_ofMessage {messages : List (List Byte)} (hall : ∀ m ∈ messages, Complete m)
    (rdtsc : Nat → BitVec 64) : ∀ c ∈ blockCalls rdtsc messages, c.OfMessage := by
  intro c hc
  obtain ⟨j, hj, rfl⟩ := List.mem_mapIdx.mp hc
  exact ⟨hall _ (List.getElem_mem hj), rfl⟩

theorem parseBlock_messages {messages : List (List Byte)} (hall : ∀ m ∈ messages, Complete m)
    {tail : List Byte} (ht : Truncated tail) (size : Nat) (rdtsc : Nat → BitVec 64)
    (p : ItchParser) :
    parseBlock size (messages.length + 1) rdtsc p (messages.flatten ++ tail) =
      .returned (p.handleAll size rdtsc messages) := by
  induction messages generalizing rdtsc p with
  | nil => exact parseBlock_stop ht.parseTurn 0
  | cons m ms ih =>
    have hm : Complete m := hall m List.mem_cons_self
    rw [List.flatten_cons, List.append_assoc, List.length_cons, hm.parseBlock,
      ih fun x hx => hall x (List.mem_cons_of_mem m hx)]
    rfl

/-- Whatever room there is, the log gets one call for every whole message. -/
theorem ItchParser.handleAll_log (size : Nat) (rdtsc : Nat → BitVec 64) (p : ItchParser)
    (messages : List (List Byte)) :
    (p.handleAll size rdtsc messages).log = (blockCalls rdtsc messages).foldl logPayload p.log := by
  induction messages generalizing rdtsc p with
  | nil => rfl
  | cons m ms ih =>
    rw [blockCalls, List.mapIdx_cons]
    exact ih _ _

theorem ItchParser.handleAll_queue {waiting : List NormalizedOrder} (rdtsc : Nat → BitVec 64)
    {messages : List (List Byte)} (hq : p.queue.Holds (2^k) waiting)
    (hslots : waiting.length + (messages.filterMap messageOrder).length < 2^k) :
    (p.handleAll (2^k) rdtsc messages).queue.Holds (2^k)
        (waiting ++ messages.filterMap messageOrder) ∧
      (p.handleAll (2^k) rdtsc messages).queue.head = p.queue.head := by
  induction messages generalizing rdtsc p waiting with
  | nil =>
    rw [List.filterMap_nil, List.append_nil]
    exact ⟨hq, rfl⟩
  | cons m ms ih =>
    have horders : (m::ms).filterMap messageOrder =
        (messageOrder m).toList ++ ms.filterMap messageOrder := by
      cases ho : messageOrder m <;> simp [ho]
    rw [horders, List.length_append] at hslots
    obtain ⟨hq', hhead⟩ := ItchParser.handle_queue (m := m) hq (by omega) (rdtsc 0)
    obtain ⟨hrest, hhead'⟩ := ih (fun i => rdtsc (i+1)) hq' (by rw [List.length_append]; omega)
    rw [horders, ← List.append_assoc]
    exact ⟨hrest, hhead'.trans hhead⟩

end Framing

/-- With room in the log and in the queue, `parse_block` frames a block exactly: one frame for
every whole message, one order with the fields of the message for every supported one, and the
cut-off message at the end makes no difference. -/
theorem parseBlock_frames_block (k : Nat) (block : Block) (rdtsc : Nat → BitVec 64)
    (p : ItchParser) (waiting : List NormalizedOrder)
    (hlog : p.log.logger.curr + frameSize * block.messages.length ≤ fileSize)
    (hq : p.queue.Holds (2^k) waiting)
    (hslots : waiting.length + (block.messages.filterMap messageOrder).length < 2^k) :
    ∃ fuel p', parseBlock (2^k) fuel rdtsc p block.bytes = .returned p' ∧
      parseBlock (2^k) fuel rdtsc p block.messages.flatten = .returned p' ∧
      Appended p.log p'.log (block.messages.mapIdx fun j m => ⟨m, messageTag m, rdtsc j⟩) ∧
      p'.queue.Holds (2^k) (waiting ++ block.messages.filterMap messageOrder) ∧
      p'.queue.head = p.queue.head ∧
      ∀ m ∈ block.messages, CarriesFields m (messageOrder m) := by
  have hnil := parseBlock_messages block.complete truncated_nil (2^k) rdtsc p
  rw [List.append_nil] at hnil
  have hcalls : (blockCalls rdtsc block.messages).length = block.messages.length :=
    List.length_mapIdx
  have happended := appended_logAll (l := p.log) (blockCalls rdtsc block.messages)
    (by rw [hcalls]; exact hlog)
  rw [← ItchParser.handleAll_log (2^k)] at happended
  obtain ⟨hqueue, hhead⟩ := ItchParser.handleAll_queue rdtsc hq hslots
  exact ⟨_, _, parseBlock_messages block.complete block.truncated (2^k) rdtsc p, hnil, happended,
    hqueue, hhead, fun m hm => (block.complete m hm).carriesFields⟩

/-- A block of three messages in front of a fresh queue and an empty log. -/
theorem addCancelBlock_framed :
    ∃ fuel p', parseBlock (2^2) fuel (fun _ => 0#64)
        ⟨.new fun _ => .cancelOrder ⟨0, 0, 0, 0, 0⟩, .new⟩ addCancelBlock.bytes = .returned p' ∧
      p'.log.currSeqNum = 3#64 ∧
      p'.queue.Holds (2^2) (addCancelBlock.messages.filterMap messageOrder) ∧
      (addCancelBlock.messages.filterMap messageOrder).length = 2 := by
  have hlen : (addCancelBlock.messages.filterMap messageOrder).length = 2 := by decide +kernel
  obtain ⟨fuel, p', hp', _, hlog, hq, _, _⟩ :=
    parseBlock_frames_block 2 addCancelBlock (fun _ => 0#64)
      ⟨.new fun _ => .cancelOrder ⟨0, 0, 0, 0, 0⟩, .new⟩ [] (by decide) (.new 2 _)
      (by rw [hlen]; decide)
  exact ⟨fuel, p', hp', hlog.seqNum, hq, hlen⟩

section Alone
variable {size : Nat} {clock : Nat → BitVec 64} {s : Feed}

/-- The call of `push` inside `parse_block`, not interleaved with the consumer. -/
theorem Feed.push_alone (size : Nat) (clock : Nat → BitVec 64) {newOrder : NormalizedOrder}
    {rest : List Byte} (hs : s.parser = .push newOrder rest) :
    ∃ n, (Feed.parseBlock size clock)^[n] s =
      { s with parser := .loop rest
               channel := { s.channel with
                 queue := (s.channel.queue.push size newOrder).1
                 pushPc := .idle
                 pushes := s.channel.pushes ++
                   [(newOrder, (s.channel.queue.push size newOrder).2)] } } := by
  by_cases hc : s.channel.queue.cachedHead = SPSCQueue.nextIdx size s.channel.queue.tail
  · by_cases hh : s.channel.queue.head = SPSCQueue.nextIdx size s.channel.queue.tail
    · exact ⟨2, by simp [Feed.parseBlock, hs, Channel.beginPush, Channel.continuePush,
        SPSCQueue.push, hc, hh]⟩
    · exact ⟨4, by simp [Feed.parseBlock, hs, Channel.beginPush, Channel.continuePush,
        SPSCQueue.push, hc, hh]⟩
  · exact ⟨3, by simp [Feed.parseBlock, hs, Channel.beginPush, Channel.continuePush,
      SPSCQueue.push, hc]⟩

/-- The feed thread left alone does what the plain call does. -/
theorem Feed.parseBlock_alone {fuel : Nat} {payload : List Byte} {p' : ItchParser}
    (hs : s.parser = .loop payload)
    (h : MarketDataBook.parseBlock size fuel (fun i => clock (s.logged.length + i))
      ⟨s.channel.queue, s.log⟩ payload = .returned p') :
    ∃ n, ((Feed.parseBlock size clock)^[n] s).parser = .idle ∧
      ((Feed.parseBlock size clock)^[n] s).channel.queue = p'.queue ∧
      ((Feed.parseBlock size clock)^[n] s).log = p'.log := by
  induction fuel generalizing s payload with
  | zero => cases h
  | succ fuel ih =>
    have hshift : ∀ c : LogCall, (fun i => clock ((s.logged ++ [c]).length + i)) =
        fun i => clock (s.logged.length + (i+1)) := by
      intro c
      funext i
      rw [List.length_append, List.length_singleton, Nat.add_right_comm, Nat.add_assoc]
    rw [MarketDataBook.parseBlock] at h
    cases ht : parseTurn payload with
    | stop =>
      rw [ht] at h
      cases h
      exact ⟨1, by simp [Feed.parseBlock, hs, ht]⟩
    | outOfBounds =>
      rw [ht] at h
      cases h
    | unsupported message rest =>
      rw [ht] at h
      have hstep : s.parseBlock size clock = s.logMessage clock message 45#8 (.loop rest) := by
        simp [Feed.parseBlock, hs, ht]
      obtain ⟨n, hn⟩ := ih (s := s.logMessage clock message 45#8 (.loop rest)) rfl
        (by simpa only [Feed.logMessage, hshift, Nat.add_zero] using h)
      exact ⟨n+1, by rw [Function.iterate_succ_apply, hstep]; exact hn⟩
    | order messageType message newOrder rest =>
      rw [ht] at h
      have hstep : s.parseBlock size clock =
          s.logMessage clock message messageType (.push newOrder rest) := by
        simp [Feed.parseBlock, hs, ht]
      obtain ⟨n, hpush⟩ := Feed.push_alone size clock
        (s := s.logMessage clock message messageType (.push newOrder rest)) rfl
      obtain ⟨n', hn⟩ := ih
        (s := (Feed.parseBlock size clock)^[n]
          (s.logMessage clock message messageType (.push newOrder rest)))
        (by rw [hpush]) (by rw [hpush]; simpa only [Feed.logMessage, hshift, Nat.add_zero] using h)
      refine ⟨n' + n + 1, ?_⟩
      rw [Function.iterate_succ_apply, hstep, Function.iterate_add_apply]
      exact hn

end Alone

end MarketDataBook
