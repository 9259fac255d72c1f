import MarketDataBook.RecoveryEngine
import MarketDataBook.SpscFifo

/-! The feed thread and the book thread of `main.cpp` around one queue. The feed thread runs
`parse_block` on one block after the other: it logs a message and then pushes its order, and
ignores what `push` returns. The book thread pops and dispatches. The two are interleaved at
every access to the queue. -/
namespace MarketDataBook

/-- Position of the feed thread; `rest` is what remains of the block after the order. -/
inductive ParserPc where
  | idle
  | loop (payload : List Byte)
  | push (newOrder : NormalizedOrder) (rest : List Byte)
  | inPush (rest : List Byte)
  | outOfBounds

/-- Position of the book thread; it ends with the exception that leaves it. -/
inductive ConsumerPc where
  | pop
  | dispatch (order : NormalizedOrder)
  | terminated (what : String)

structure Feed where
  parser : ParserPc
  blocks : List (List Byte)
  log : PayloadLog
  channel : Channel NormalizedOrder
  consumer : ConsumerPc
  book : LimitOrderBook
  /-- The calls of `log_payload` made so far, whether they found room or not. -/
  logged : List LogCall

inductive FeedThread where
  | parser | consumer
  deriving DecidableEq

namespace Feed
variable (size : Nat) (clock : Nat → BitVec 64)

def start (data : Nat → NormalizedOrder) (blocks : List (List Byte)) (book : LimitOrderBook) :
    Feed :=
  ⟨.idle, blocks, .new, .new data, .pop, book, []⟩

/-- `log_payload`; `clock` gives what each `__rdtsc` returns. -/
def logMessage (s : Feed) (message : List Byte) (msgType : Byte) (next : ParserPc) : Feed :=
  let c : LogCall := ⟨message, msgType, clock s.logged.length⟩
  { s with log := logPayload s.log c, logged := s.logged ++ [c], parser := next }

def parseBlock (s : Feed) : Feed :=
  match s.parser with
  | .idle =>
    match s.blocks with
    | [] => s
    | block::blocks => { s with parser := .loop block, blocks := blocks }
  | .loop payload =>
    match parseTurn payload with
    | .stop => { s with parser := .idle }
    | .outOfBounds => { s with parser := .outOfBounds }
    | .unsupported message rest => s.logMessage clock message 45#8 (.loop rest)
    | .order messageType message newOrder rest =>
      s.logMessage clock message messageType (.push newOrder rest)
  | .push newOrder rest =>
    { s with channel := s.channel.beginPush size newOrder, parser := .inPush rest }
  | .inPush rest =>
    let channel := s.channel.continuePush
    match channel.pushPc with
    | .idle => { s with channel := channel, parser := .loop rest }
    | _ => { s with channel := channel }
  | .outOfBounds => s

def consume (s : Feed) : Feed :=
  match s.consumer with
  | .pop =>
    match s.channel.popPc with
    | .idle => { s with channel := s.channel.beginPop size }
    | .publish output _ => { s with channel := s.channel.continuePop, consumer := .dispatch output }
    | _ => { s with channel := s.channel.continuePop }
  | .dispatch order =>
    match s.book.step (dispatchTable order) with
    | (book, .returned) => { s with book := book, consumer := .pop }
    | (book, .raised what) => { s with book := book, consumer := .terminated what }
  | .terminated _ => s

def step (s : Feed) : FeedThread → Feed
  | .parser => s.parseBlock size clock
  | .consumer => s.consume size

def run (data : Nat → NormalizedOrder) (blocks : List (List Byte)) (book : LimitOrderBook)
    (schedule : List FeedThread) : Feed :=
  schedule.foldl (step size clock) (.start data blocks book)

def pending (s : Feed) : List NormalizedOrder :=
  match s.parser with
  | .push newOrder _ => [newOrder]
  | _ => []

def handed (s : Feed) : List NormalizedOrder :=
  s.channel.pushes.map Prod.fst ++ s.channel.pushPc.current ++ s.pending

end Feed

def LogCall.order (c : LogCall) : Option NormalizedOrder := (decode c.msgType c.payload).join

def LogCall.WellTagged (c : LogCall) : Prop :=
  c.payload.length ≤ 50 ∧ ∀ len, orderLength c.msgType = some len → c.payload.length = len

def ConsumerOk (b : LimitOrderBook) (popped : List NormalizedOrder) (book : LimitOrderBook) :
    ConsumerPc → Prop
  | .pop => replay b (popped.map some) = ⟨book, popped.length, .returned⟩
  | .dispatch order => ∃ done, popped = done ++ [order] ∧
      replay b (done.map some) = ⟨book, done.length, .returned⟩
  | .terminated what => ∃ done order, popped = done ++ [order] ∧
      replay b (popped.map some) = ⟨book, done.length, .raised what⟩

structure FeedOk (k : Nat) (b : LimitOrderBook) (s : Feed) : Prop where
  fifo : s.channel.Fifo (2^k)
  log : s.log = s.logged.foldl logPayload .new
  tagged : ∀ c ∈ s.logged, c.WellTagged
  handed : s.handed = s.logged.filterMap LogCall.order
  pushing : (∀ rest, s.parser ≠ .inPush rest) → s.channel.pushPc = .idle
  popping : s.consumer ≠ .pop → s.channel.popPc = .idle
  consumer : ConsumerOk b s.channel.popped s.book s.consumer

section ParserSteps
variable {k : Nat} {clock : Nat → BitVec 64} {b : LimitOrderBook} {s : Feed}

theorem FeedOk.pushPc_idle (h : FeedOk k b s) (hp : ∀ rest, s.parser ≠ .inPush rest) :
    s.channel.pushPc.current = [] := by
  rw [h.pushing hp]
  rfl

/-- A move of the parser that touches neither the log nor the queue. -/
theorem FeedOk.jump (h : FeedOk k b s) {pc : ParserPc} {blocks : List (List Byte)}
    (hs : ∀ rest, s.parser ≠ .inPush rest) (hpend : s.pending = [])
    (hpc : Feed.pending { s with parser := pc, blocks := blocks } = []) :
    FeedOk k b { s with parser := pc, blocks := blocks } where
  fifo := h.fifo
  log := h.log
  tagged := h.tagged
  handed := by
    have hh := h.handed
    rw [Feed.handed, hpend] at hh
    rw [Feed.handed, hpc]
    exact hh
  pushing := fun _ => h.pushing hs
  popping := h.popping
  consumer := h.consumer

theorem FeedOk.logMessage (h : FeedOk k b s) {message : List Byte} {t : Byte} {pc : ParserPc}
    (hs : ∀ rest, s.parser ≠ .inPush rest) (hpend : s.pending = [])
    (htag : LogCall.WellTagged ⟨message, t, clock s.logged.length⟩)
    (hpc : Feed.pending { s with parser := pc } = (decode t message).join.toList) :
    FeedOk k b (s.logMessage clock message t pc) where
  fifo := h.fifo
  log := by
    rw [Feed.logMessage, List.foldl_append, ← h.log]
    rfl
  tagged := by
    intro c hc
    obtain hc | hc := List.mem_append.mp hc
    · exact h.tagged c hc
    · rw [List.mem_singleton.mp hc]
      exact htag
  handed := by
    have hh := h.handed
    have hpc' : (s.logMessage clock message t pc).pending = (decode t message).join.toList := hpc
    rw [Feed.handed, hpend, List.append_nil] at hh
    rw [Feed.handed, hpc', Feed.logMessage, List.filterMap_append, ← hh]
    congr 1
  pushing := fun _ => h.pushing hs
  popping := h.popping
  consumer := h.consumer

/-- An access of the feed thread to the queue. -/
theorem FeedOk.pushAccess (h : FeedOk k b s) {channel : Channel NormalizedOrder} {pc : ParserPc}
    (hf : channel.Fifo (2^k))
    (hpop : channel.pops = s.channel.pops ∧ channel.popPc = s.channel.popPc)
    (hh : Feed.handed { s with channel := channel, parser := pc } = s.handed)
    (hpush : (∀ rest, pc ≠ .inPush rest) → channel.pushPc = .idle) :
    FeedOk k b { s with channel := channel, parser := pc } where
  fifo := hf
  log := h.log
  tagged := h.tagged
  handed := hh.trans h.handed
  pushing := hpush
  popping := fun hne => hpop.2.trans (h.popping hne)
  consumer := by
    dsimp only
    rw [Channel.popped, hpop.1]
    exact h.consumer

/-- A turn of the loop of `parse_block`. -/
theorem FeedOk.turn (h : FeedOk k b s) {payload : List Byte} (hp : s.parser = .loop payload) :
    FeedOk k b (s.parseBlock (2^k) clock) := by
  have hs : ∀ rest, s.parser ≠ .inPush rest := by simp [hp]
  have hpend : s.pending = [] := by simp [Feed.pending, hp]
  rw [Feed.parseBlock, hp]
  dsimp only
  cases ht : parseTurn payload with
  | stop => exact h.jump hs hpend rfl
  | outOfBounds => exact h.jump hs hpend rfl
  | unsupported message rest =>
    obtain ⟨_, _, _, hlen⟩ := parseTurn_eq_unsupported ht
    have hno : orderLength 45#8 = none := by decide
    apply h.logMessage hs hpend
    · refine ⟨messageLength_le hlen, ?_⟩
      intro len hl
      rw [hno] at hl
      cases hl
    · rw [decode_join_unsupported hno]
      rfl
  | order t message o rest =>
    obtain ⟨hlen, hd, _⟩ := parseTurn_eq_order ht
    apply h.logMessage hs hpend
    · refine ⟨messageLength_le (messageLength_of_orderLength hlen), ?_⟩
      intro len hl
      rw [hlen] at hl
      exact Option.some.inj hl
    · rw [hd]
      rfl

theorem FeedOk.inPush (h : FeedOk k b s) {rest : List Byte} (hp : s.parser = .inPush rest) :
    FeedOk k b (s.parseBlock (2^k) clock) := by
  have hcalls := s.channel.continuePush_calls
  rw [Feed.parseBlock, hp]
  dsimp only
  split
  · next hidle =>
    apply h.pushAccess h.fifo.continuePush s.channel.continuePush_consumer
    · simp [Feed.handed, Feed.pending, hcalls, hp]
    · exact fun _ => hidle
  · apply h.pushAccess h.fifo.continuePush s.channel.continuePush_consumer
    · simp [Feed.handed, Feed.pending, hcalls, hp]
    · exact fun hr => absurd rfl (hr rest)

theorem FeedOk.parseBlock (h : FeedOk k b s) : FeedOk k b (s.parseBlock (2^k) clock) := by
  cases hp : s.parser with
  | loop payload => exact h.turn hp
  | inPush rest => exact h.inPush hp
  | idle =>
    rw [Feed.parseBlock, hp]
    cases hb : s.blocks with
    | nil => exact h
    | cons block blocks => exact h.jump (by simp [hp]) (by simp [Feed.pending, hp]) rfl
  | push o rest =>
    have hidle := h.pushPc_idle (by simp [hp])
    obtain ⟨hl, hc⟩ := s.channel.beginPush_calls (2^k) o
    rw [Feed.parseBlock, hp]
    apply h.pushAccess (h.fifo.beginPush o) (s.channel.beginPush_consumer (2^k) o)
    · simp [Feed.handed, Feed.pending, hl, hc, hidle, hp]
    · exact fun hr => absurd rfl (hr rest)
  | outOfBounds =>
    rw [Feed.parseBlock, hp]
    exact h

end ParserSteps

section ConsumerSteps
variable {k : Nat} {b : LimitOrderBook} {s : Feed}

theorem ConsumerOk.dispatched {popped : List NormalizedOrder} {book book' : LimitOrderBook}
    {order : NormalizedOrder} (h : ConsumerOk b popped book (.dispatch order))
    (hs : book.step (dispatchTable order) = (book', .returned)) :
    ConsumerOk b popped book' .pop := by
  obtain ⟨done, rfl, hr⟩ := h
  have ho : (replay b (done.map some)).outcome = .returned := by rw [hr]
  rw [ConsumerOk, List.map_append, List.map_singleton, replay_append_returned ho, hr,
    replay_some_returned hs]
  simp [replay]

theorem ConsumerOk.raised {popped : List NormalizedOrder} {book book' : LimitOrderBook}
    {order : NormalizedOrder} {what : String} (h : ConsumerOk b popped book (.dispatch order))
    (hs : book.step (dispatchTable order) = (book', .raised what)) :
    ConsumerOk b popped book' (.terminated what) := by
  obtain ⟨done, rfl, hr⟩ := h
  have ho : (replay b (done.map some)).outcome = .returned := by rw [hr]
  refine ⟨done, order, rfl, ?_⟩
  rw [List.map_append, List.map_singleton, replay_append_returned ho, hr, replay_some_raised hs]
  simp

/-- An access of the book thread to the queue. -/
theorem FeedOk.popAccess (h : FeedOk k b s) {channel : Channel NormalizedOrder} {pc : ConsumerPc}
    (hf : channel.Fifo (2^k))
    (hpush : channel.pushes = s.channel.pushes ∧ channel.pushPc = s.channel.pushPc)
    (hpop : pc ≠ .pop → channel.popPc = .idle)
    (hc : ConsumerOk b channel.popped s.book pc) :
    FeedOk k b { s with channel := channel, consumer := pc } where
  fifo := hf
  log := h.log
  tagged := h.tagged
  handed := by
    rw [← h.handed, Feed.handed, Feed.handed]
    dsimp only
    rw [hpush.1, hpush.2]
    rfl
  pushing := fun hs => hpush.2.trans (h.pushing hs)
  popping := hpop
  consumer := hc

theorem FeedOk.consume (h : FeedOk k b s) : FeedOk k b (s.consume (2^k)) := by
  have hok := h.consumer
  rw [Feed.consume]
  cases hc : s.consumer with
  | pop =>
    rw [hc] at hok
    have hpub : (∀ v n, s.channel.popPc ≠ .publish v n) →
        FeedOk k b { s with channel := s.channel.continuePop, consumer := .pop } := by
      intro hne
      apply h.popAccess h.fifo.continuePop s.channel.continuePop_producer
      · exact fun hn => absurd rfl hn
      · rw [Channel.continuePop_popped hne]
        exact hok
    cases hp : s.channel.popPc with
    | idle =>
      apply h.popAccess h.fifo.beginPop (s.channel.beginPop_producer (2^k))
      · exact fun hn => absurd rfl hn
      · rw [Channel.beginPop_popped]
        exact hok
    | refresh i n => exact hpub (by simp [hp])
    | read i n => exact hpub (by simp [hp])
    | publish v n =>
      obtain ⟨hpop, hidle⟩ := Channel.continuePop_publish hp
      apply h.popAccess h.fifo.continuePop s.channel.continuePop_producer
      · exact fun _ => hidle
      · exact ⟨s.channel.popped, hpop, hok⟩
  | dispatch order =>
    rw [hc] at hok
    have hidle := h.popping (by simp [hc])
    dsimp only
    cases hs : s.book.step (dispatchTable order) with
    | mk book out =>
      cases out with
      | returned =>
        exact ⟨h.fifo, h.log, h.tagged, h.handed, h.pushing, fun _ => hidle, hok.dispatched hs⟩
      | raised what =>
        exact ⟨h.fifo, h.log, h.tagged, h.handed, h.pushing, fun _ => hidle, hok.raised hs⟩
  | terminated what => exact h

end ConsumerSteps

theorem FeedOk.step {k : Nat} {clock : Nat → BitVec 64} {b : LimitOrderBook} {s : Feed}
    (h : FeedOk k b s) (t : FeedThread) : FeedOk k b (s.step (2^k) clock t) := by
  cases t with
  | parser => exact h.parseBlock
  | consumer => exact h.consume

theorem FeedOk.start (k : Nat) (data : Nat → NormalizedOrder) (blocks : List (List Byte))
    (b : LimitOrderBook) : FeedOk k b (.start data blocks b) where
  fifo := Channel.Fifo.new k data
  log := rfl
  tagged := fun _ hc => absurd hc List.not_mem_nil
  handed := rfl
  pushing := fun _ => rfl
  popping := fun _ => rfl
  consumer := rfl

theorem FeedOk.run (k : Nat) (clock : Nat → BitVec 64) (data : Nat → NormalizedOrder)
    (blocks : List (List Byte)) (b : LimitOrderBook) (schedule : List FeedThread) :
    FeedOk k b (Feed.run (2^k) clock data blocks b schedule) :=
  StepRun.invariant schedule (FeedOk.start k data blocks b) fun _ t h => h.step t

end MarketDataBook
