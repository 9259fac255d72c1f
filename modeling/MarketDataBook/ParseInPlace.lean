import MarketDataBook.MulticastReceiver
import MarketDataBook.RecoveredBook

/-! `parse_block` on a frame of the RX ring in place, as `poll_simulation` calls it, with the log
and the queue it writes to and the book thread behind the queue. With the bytes it
has before it read at once, it is the feed thread of a feed of blocks. -/
namespace MarketDataBook
open ByteMemory

/-- Position of the main thread in `parse_block`, by the address and the length of what is left
of the payload. -/
inductive InPlacePc where
  | call
  | loop (payload payloadLen : Nat)
  | push (newOrder : NormalizedOrder) (payload payloadLen : Nat)
  | inPush (payload payloadLen : Nat)
  | outOfBounds

structure InPlaceFeed where
  parser : InPlacePc
  log : PayloadLog
  channel : Channel NormalizedOrder
  consumer : ConsumerPc
  book : LimitOrderBook
  logged : List LogCall

namespace InPlaceFeed
variable (size : Nat) (clock : Nat → BitVec 64)

def start (data : Nat → NormalizedOrder) (book : LimitOrderBook) : InPlaceFeed :=
  ⟨.call, .new, .new data, .pop, book, []⟩

def feed (s : InPlaceFeed) (parser : ParserPc) (blocks : List (List Byte)) : Feed :=
  ⟨parser, blocks, s.log, s.channel, s.consumer, s.book, s.logged⟩

def withFeed (s : InPlaceFeed) (f : Feed) : InPlaceFeed :=
  { s with log := f.log, channel := f.channel, consumer := f.consumer, book := f.book,
           logged := f.logged }

def logMessage (s : InPlaceFeed) (message : List Byte) (msgType : Byte) (next : InPlacePc) :
    InPlaceFeed :=
  let c : LogCall := ⟨message, msgType, clock s.logged.length⟩
  { s with log := logPayload s.log c, logged := s.logged ++ [c], parser := next }

def parseBlock (ring : Memory) (payloadPtr payloadLen : Nat) (s : InPlaceFeed) : InPlaceFeed :=
  match s.parser with
  | .call => { s with parser := .loop payloadPtr payloadLen }
  | .loop payload payloadLen =>
    match parseTurn (slice ring payload payloadLen) with
    | .stop => { s with parser := .call }
    | .outOfBounds => { s with parser := .outOfBounds }
    | .unsupported message _ =>
      s.logMessage clock message 45#8
        (.loop (payload + message.length) (payloadLen - message.length))
    | .order messageType message newOrder _ =>
      s.logMessage clock message messageType
        (.push newOrder (payload + message.length) (payloadLen - message.length))
  | .push newOrder payload payloadLen =>
    { s with channel := s.channel.beginPush size newOrder, parser := .inPush payload payloadLen }
  | .inPush payload payloadLen =>
    let channel := s.channel.continuePush
    match channel.pushPc with
    | .idle => { s with channel := channel, parser := .loop payload payloadLen }
    | _ => { s with channel := channel }
  | .outOfBounds => s

def consume (s : InPlaceFeed) : InPlaceFeed := s.withFeed ((s.feed .idle []).consume size)

end InPlaceFeed

def InPlacePc.read (ring : Memory) : InPlacePc → ParserPc
  | .call => .idle
  | .loop payload payloadLen => .loop (slice ring payload payloadLen)
  | .push newOrder payload payloadLen => .push newOrder (slice ring payload payloadLen)
  | .inPush payload payloadLen => .inPush (slice ring payload payloadLen)
  | .outOfBounds => .outOfBounds

def InPlacePc.begun (n : Nat) : InPlacePc → Nat
  | .call => n
  | _ => n + 1

def InPlaceFeed.read (ring : Memory) (s : InPlaceFeed) (blocks : List (List Byte)) : Feed :=
  s.feed (s.parser.read ring) blocks

def SpanWithin (idx payload payloadLen : Nat) : Prop :=
  rxFrame idx ≤ payload ∧ payload + payloadLen ≤ rxFrame idx + rxFrameSize

def InPlacePc.Within (idx : Nat) : InPlacePc → Prop
  | .loop payload payloadLen => SpanWithin idx payload payloadLen
  | .push _ payload payloadLen => SpanWithin idx payload payloadLen
  | .inPush payload payloadLen => SpanWithin idx payload payloadLen
  | _ => True

theorem InPlacePc.begun_of_ne {pc : InPlacePc} (h : pc ≠ .call) (n : Nat) : pc.begun n = n + 1 := by
  cases pc with
  | call => exact absurd rfl h
  | loop payload payloadLen => rfl
  | push newOrder payload payloadLen => rfl
  | inPush payload payloadLen => rfl
  | outOfBounds => rfl

theorem InPlacePc.Within.read_eq {ring ring' : Memory} {idx : Nat} {pc : InPlacePc}
    (h : pc.Within idx) (hs : SameFrame ring ring' idx) : pc.read ring' = pc.read ring := by
  have hslice : ∀ payload payloadLen, rxFrame idx ≤ payload →
      payload + payloadLen ≤ rxFrame idx + rxFrameSize →
      slice ring' payload payloadLen = slice ring payload payloadLen :=
    fun _ _ hl hr => slice_congr fun i hi => hs _ (by omega) (by omega)
  cases pc with
  | call => rfl
  | loop payload payloadLen => exact congrArg _ (hslice _ _ h.1 h.2)
  | push newOrder payload payloadLen => exact congrArg _ (hslice _ _ h.1 h.2)
  | inPush payload payloadLen => exact congrArg _ (hslice _ _ h.1 h.2)
  | outOfBounds => rfl

/-- What is left behind a message in the ring. -/
theorem slice_rest {ring : Memory} {payload payloadLen : Nat} {message rest : List Byte}
    (h : slice ring payload payloadLen = message ++ rest) :
    message.length ≤ payloadLen ∧
      slice ring (payload + message.length) (payloadLen - message.length) = rest := by
  have hlen := congrArg List.length h
  rw [length_slice, List.length_append] at hlen
  have hle : message.length ≤ payloadLen := by omega
  refine ⟨hle, ?_⟩
  rw [← drop_slice ring payload hle, h, List.drop_left]

theorem SpanWithin.rest {idx payload payloadLen n : Nat} (h : SpanWithin idx payload payloadLen)
    (hn : n ≤ payloadLen) : SpanWithin idx (payload + n) (payloadLen - n) := by
  obtain ⟨hl, hr⟩ := h
  exact ⟨by omega, by omega⟩

section Steps
variable (size : Nat) (clock : Nat → BitVec 64) (ring : Memory) (payloadPtr payloadLen : Nat)
  {idx : Nat} {s : InPlaceFeed}

theorem InPlaceFeed.parseBlock_call (h : s.parser = .call) :
    s.parseBlock size clock ring payloadPtr payloadLen =
      { s with parser := .loop payloadPtr payloadLen } := by
  rw [InPlaceFeed.parseBlock, h]

/-- The call is the next block of the feed. -/
theorem InPlaceFeed.read_call (h : s.parser = .call) (blocks : List (List Byte)) :
    (s.parseBlock size clock ring payloadPtr payloadLen).read ring blocks =
      (s.read ring (slice ring payloadPtr payloadLen :: blocks)).parseBlock size clock := by
  rw [InPlaceFeed.parseBlock_call size clock ring payloadPtr payloadLen h, InPlaceFeed.read,
    InPlaceFeed.read, h]
  rfl

/-- Every other step is the same step of the feed: the bytes are read from the ring, and the
pointer moves behind the message. -/
theorem InPlaceFeed.read_busy (h : s.parser ≠ .call) (blocks : List (List Byte)) :
    (s.parseBlock size clock ring payloadPtr payloadLen).read ring blocks =
      (s.read ring blocks).parseBlock size clock := by
  rw [InPlaceFeed.parseBlock, InPlaceFeed.read, InPlaceFeed.read]
  cases hp : s.parser with
  | call => exact absurd hp h
  | outOfBounds => simp only [hp, InPlacePc.read, InPlaceFeed.feed, Feed.parseBlock]
  | push newOrder payload payloadLen => rfl
  | inPush payload payloadLen =>
    simp only [InPlacePc.read, InPlaceFeed.feed, Feed.parseBlock]
    cases s.channel.continuePush.pushPc <;> rfl
  | loop payload payloadLen =>
    simp only [InPlacePc.read, InPlaceFeed.feed, Feed.parseBlock]
    cases ht : parseTurn (slice ring payload payloadLen) with
    | stop => rfl
    | outOfBounds => rfl
    | unsupported message rest =>
      obtain ⟨-, hrest⟩ := slice_rest (parseTurn_eq_unsupported ht).1
      simp only [InPlaceFeed.logMessage, Feed.logMessage, hrest]
    | order messageType message newOrder rest =>
      obtain ⟨-, hrest⟩ := slice_rest (parseTurn_eq_order ht).2.2.1
      simp only [InPlaceFeed.logMessage, Feed.logMessage, hrest]

/-- A step of `parse_block` is a step of the feed thread, with the blocks it has not been called
with yet. -/
theorem InPlaceFeed.read_parseBlock {ring : Memory} {payloadPtr payloadLen n : Nat}
    {blocks : List (List Byte)} (s : InPlaceFeed)
    (h : blocks.drop n = slice ring payloadPtr payloadLen :: blocks.drop (n+1)) :
    (s.parseBlock size clock ring payloadPtr payloadLen).read ring (blocks.drop (n+1)) =
      (s.read ring (blocks.drop (s.parser.begun n))).parseBlock size clock := by
  by_cases hp : s.parser = .call
  · rw [s.read_call size clock ring payloadPtr payloadLen hp, hp, InPlacePc.begun, h]
  · rw [s.read_busy size clock ring payloadPtr payloadLen hp, InPlacePc.begun_of_ne hp]

/-- The parser does not leave the frame. -/
theorem InPlaceFeed.parseBlock_within {payloadPtr payloadLen : Nat} (h : s.parser.Within idx)
    (hspan : SpanWithin idx payloadPtr payloadLen) :
    (s.parseBlock size clock ring payloadPtr payloadLen).parser.Within idx := by
  rw [InPlaceFeed.parseBlock]
  cases hp : s.parser with
  | call => exact hspan
  | outOfBounds =>
    dsimp only
    rw [hp]
    trivial
  | push newOrder payload payloadLen =>
    rw [hp] at h
    exact h
  | inPush payload payloadLen =>
    rw [hp] at h
    dsimp only
    split
    · exact h
    · exact h
  | loop payload payloadLen =>
    rw [hp] at h
    dsimp only
    cases ht : parseTurn (slice ring payload payloadLen) with
    | stop => trivial
    | outOfBounds => trivial
    | unsupported message rest =>
      exact SpanWithin.rest h (slice_rest (parseTurn_eq_unsupported ht).1).1
    | order messageType message newOrder rest =>
      exact SpanWithin.rest h (slice_rest (parseTurn_eq_order ht).2.2.1).1

/-- The feed thread takes nothing from the queue. -/
theorem InPlaceFeed.parseBlock_consumer (s : InPlaceFeed) :
    (s.parseBlock size clock ring payloadPtr payloadLen).channel.popped = s.channel.popped ∧
      (s.parseBlock size clock ring payloadPtr payloadLen).consumer = s.consumer := by
  rw [InPlaceFeed.parseBlock]
  cases s.parser with
  | call => exact ⟨rfl, rfl⟩
  | outOfBounds => exact ⟨rfl, rfl⟩
  | push newOrder payload payloadLen =>
    obtain ⟨hpops, -⟩ := s.channel.beginPush_consumer size newOrder
    exact ⟨by rw [Channel.popped, hpops, Channel.popped], rfl⟩
  | inPush payload payloadLen =>
    obtain ⟨hpops, -⟩ := s.channel.continuePush_consumer
    have hpopped : s.channel.continuePush.popped = s.channel.popped := by
      rw [Channel.popped, hpops, Channel.popped]
    dsimp only
    split
    · exact ⟨hpopped, rfl⟩
    · exact ⟨hpopped, rfl⟩
  | loop payload payloadLen =>
    dsimp only
    cases parseTurn (slice ring payload payloadLen) with
    | stop => exact ⟨rfl, rfl⟩
    | outOfBounds => exact ⟨rfl, rfl⟩
    | unsupported message rest => exact ⟨rfl, rfl⟩
    | order messageType message newOrder rest => exact ⟨rfl, rfl⟩

theorem InPlaceFeed.consume_feed (s : InPlaceFeed) (parser : ParserPc)
    (blocks : List (List Byte)) :
    (s.consume size).feed parser blocks = (s.feed parser blocks).consume size := by
  simp only [InPlaceFeed.consume, InPlaceFeed.withFeed, InPlaceFeed.feed, Feed.consume]
  cases s.consumer with
  | pop =>
    dsimp only
    cases s.channel.popPc <;> rfl
  | dispatch order =>
    dsimp only
    cases s.book.step (dispatchTable order) with
    | mk book out => cases out <;> rfl
  | terminated what => rfl

end Steps

/-- The log has an initial part of the messages, their orders were handed to the queue in order,
and the book is what the orders popped make of it. -/
structure Carried (messages : List (List Byte)) (b : LimitOrderBook) (s : InPlaceFeed) : Prop where
  logged : s.logged.map LogCall.payload <+: messages
  log : s.log = s.logged.foldl logPayload .new
  handed : s.channel.pushes.map Prod.fst <+: messages.filterMap messageOrder
  popped : s.channel.popped <+: s.channel.pushed
  book : ConsumerOk b s.channel.popped s.book s.consumer

/-- The book is what all the messages make of it, and recovery rebuilds it if there was room in
the log. -/
structure CarriedThrough (messages : List (List Byte)) (b : LimitOrderBook) (s : InPlaceFeed) :
    Prop where
  logged : s.logged.map LogCall.payload = messages
  replayed : replay b (messages.map messageOrder) = ⟨s.book, messages.length, .returned⟩
  recovered : s.log.frames < 2^24 →
    (runRecovery b s.log.logger.mem fileSize).book = s.book ∧
    (runRecovery b s.log.logger.mem fileSize).ending = .completed ∧
    (runRecovery b s.log.logger.mem fileSize).report.recordsProcessed = messages.length

section Outcome
variable {k : Nat} {clock : Nat → BitVec 64} {data : Nat → NormalizedOrder} {b : LimitOrderBook}
  {blocks rest : List Block} {cur : Block} {f : Feed}

/-- The orders logged so far are an initial part of those of the messages. -/
theorem InStep.handed_initial (hin : InStep blocks cur rest f) (hok : FeedOk k b f) :
    f.channel.pushes.map Prod.fst <+:
      (blocks.flatMap Block.messages).filterMap messageOrder := by
  have horders : f.handed = (f.logged.map LogCall.payload).filterMap messageOrder := by
    rw [hok.handed, ← reduceOption_map_eq, hin.orders, reduceOption_map_eq]
  rw [← hin.messages, List.append_assoc, List.filterMap_append, ← horders, Feed.handed,
    List.append_assoc, List.append_assoc]
  exact List.prefix_append _ _

theorem InStep.drained (hin : InStep blocks cur rest f) (hok : FeedOk k b f)
    (hd : f.Drained) (hpush : ∀ p ∈ f.channel.pushes, p.2 = true) :
    f.logged.map LogCall.payload = blocks.flatMap Block.messages ∧
      replay b ((blocks.flatMap Block.messages).map messageOrder) =
        ⟨f.book, (blocks.flatMap Block.messages).length, .returned⟩ ∧
      (f.log.frames < 2^24 →
        (runRecovery b f.log.logger.mem fileSize).book = f.book ∧
        (runRecovery b f.log.logger.mem fileSize).ending = .completed ∧
        (runRecovery b f.log.logger.mem fileSize).report.recordsProcessed =
          (blocks.flatMap Block.messages).length) := by
  obtain ⟨hidle, hblocks, hempty, hpop⟩ := hd
  have hfin := hin.finished hidle hblocks
  have hr := hok.replay_drained hpush hidle hempty hpop
  refine ⟨hfin, ?_, ?_⟩
  · rw [← hfin, ← hin.orders, List.length_map]
    exact hr
  · intro hroom
    have hf := hok.recovery hroom
    rw [hr] at hf
    obtain ⟨hend, hrecords, -⟩ :=
      (hok.written hroom).recovery_completed (Nat.le_refl _) hf rfl rfl
    rw [← hfin, List.length_map]
    exact ⟨hf.book, hend, hrecords⟩

/-- What a run of the feed on the blocks means for the parser that works in place. -/
theorem InPlaceFeed.carried_of_feed {ring : Memory} {s : InPlaceFeed} {left : List (List Byte)}
    {ts : List FeedThread}
    (h : Feed.run (2^k) clock data (blocks.map Block.bytes) b ts = s.read ring left) :
    Carried (blocks.flatMap Block.messages) b s ∧
      ((s.read ring left).Drained → (∀ p ∈ s.channel.pushes, p.2 = true) →
        CarriedThrough (blocks.flatMap Block.messages) b s) := by
  have hok := FeedOk.run k clock data (blocks.map Block.bytes) b ts
  obtain ⟨cur, rest, hin⟩ := InStep.run (2^k) clock data blocks b ts
  rw [h] at hok hin
  refine ⟨⟨?_, hok.log, hin.handed_initial hok, hok.fifo.ordered, hok.consumer⟩, ?_⟩
  · have hmessages := hin.messages
    rw [List.append_assoc] at hmessages
    exact ⟨_, hmessages⟩
  · intro hd hpush
    obtain ⟨hlogged, hreplay, hrecover⟩ := hin.drained hok hd hpush
    exact ⟨hlogged, hreplay, hrecover⟩

end Outcome

end MarketDataBook
