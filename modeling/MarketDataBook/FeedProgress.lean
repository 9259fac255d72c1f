import MarketDataBook.FeedPipeline

/-! The feed thread on well formed blocks: it logs exactly their messages, and each thread
left alone gets its work done. A weight that every step lowers gives the termination. -/
namespace MarketDataBook

def ParserPc.payload : ParserPc → Option (List Byte)
  | .idle => some []
  | .loop payload => some payload
  | .push _ rest => some rest
  | .inPush rest => some rest
  | .outOfBounds => none

def Block.empty : Block := ⟨[], [], fun _ h => absurd h List.not_mem_nil, truncated_nil⟩

theorem Block.messages_eq_nil {block : Block} (h : block.bytes = []) : block.messages = [] := by
  obtain ⟨messages, tail, complete, truncated⟩ := block
  cases messages with
  | nil => rfl
  | cons m ms =>
    obtain ⟨t, rest, rfl, _⟩ := (complete m List.mem_cons_self).cases
    cases h

/-- The feed thread has logged the messages before `cur` and has `cur` and then `rest` to
go through. -/
structure InStep (given : List Block) (cur : Block) (rest : List Block) (s : Feed) : Prop where
  blocks : s.blocks = rest.map Block.bytes
  payload : s.parser.payload = some cur.bytes
  messages : s.logged.map LogCall.payload ++ cur.messages ++ rest.flatMap Block.messages =
    given.flatMap Block.messages
  tagged : ∀ c ∈ s.logged, c.msgType = messageTag c.payload

def PushPc.weight {α : Type*} : PushPc α → Nat
  | .idle => 3
  | .refresh _ _ _ => 5
  | .write _ _ _ => 4
  | .publish _ _ _ => 3

def ParserPc.weight (pushPc : PushPc NormalizedOrder) : ParserPc → Nat
  | .idle => 0
  | .loop _ => 2
  | .push _ _ => 6
  | .inPush _ => pushPc.weight
  | .outOfBounds => 0

def parserWork (cur : Block) (rest : List Block) (s : Feed) : Nat :=
  8 * cur.messages.length + (rest.map fun b => 8 * b.messages.length + 3).sum +
    s.parser.weight s.channel.pushPc

theorem InStep.start (data : Nat → NormalizedOrder) (blocks : List Block) (b : LimitOrderBook) :
    InStep blocks .empty blocks (.start data (blocks.map Block.bytes) b) where
  blocks := rfl
  payload := rfl
  messages := by simp [Feed.start, Block.empty]
  tagged := fun _ hc => absurd hc List.not_mem_nil

section Parser
variable {size : Nat} {clock : Nat → BitVec 64} {blocks : List Block} {cur : Block}
  {rest : List Block} {s : Feed}

theorem InStep.bytes_eq (h : InStep blocks cur rest s) {pc : ParserPc} {payload : List Byte}
    (hp : s.parser = pc) (hpc : pc.payload = some payload) : payload = cur.bytes := by
  have hb := h.payload
  rw [hp, hpc] at hb
  exact Option.some.inj hb

theorem InStep.messages_eq_nil (h : InStep blocks cur rest s) (hp : s.parser = .idle) :
    cur.messages = [] :=
  Block.messages_eq_nil (h.bytes_eq hp rfl).symm

/-- Logging the message in front. -/
theorem InStep.logMessage (h : InStep blocks cur rest s) {m payload : List Byte} {cur' : Block}
    {pc : ParserPc} (hp : s.parser = .loop payload) (hcur : cur.messages = m::cur'.messages)
    (hpc : pc.payload = some cur'.bytes) (hw : pc.weight s.channel.pushPc ≤ 6) :
    InStep blocks cur' rest (s.logMessage clock m (messageTag m) pc) ∧
      parserWork cur' rest (s.logMessage clock m (messageTag m) pc) < parserWork cur rest s := by
  refine ⟨⟨h.blocks, hpc, ?_, ?_⟩, ?_⟩
  · rw [← h.messages, hcur, Feed.logMessage]
    simp
  · intro c hc
    obtain hc | hc := List.mem_append.mp hc
    · exact h.tagged c hc
    · rw [List.mem_singleton.mp hc]
  · have htwo : s.parser.weight s.channel.pushPc = 2 := by
      rw [hp]
      rfl
    simp only [parserWork, Feed.logMessage, hcur, htwo, List.length_cons]
    omega

/-- The turn of the loop with a whole message in front. -/
theorem InStep.turn (h : InStep blocks cur rest s) (size : Nat) (clock : Nat → BitVec 64)
    {payload m : List Byte} {ms : List (List Byte)} (hp : s.parser = .loop payload)
    (hm : cur.messages = m::ms) :
    ∃ cur', InStep blocks cur' rest (s.parseBlock size clock) ∧
      parserWork cur' rest (s.parseBlock size clock) < parserWork cur rest s := by
  have hmem : ∀ x ∈ m::ms, Complete x := hm ▸ cur.complete
  let cur' : Block := ⟨ms, cur.tail, fun x hx => hmem x (List.mem_cons_of_mem m hx), cur.truncated⟩
  have hc : Complete m := hmem m List.mem_cons_self
  obtain ⟨t, hhead, _⟩ := id hc
  have hpay : payload = m ++ cur'.bytes := by
    rw [h.bytes_eq hp rfl, Block.bytes, hm]
    simp [cur', Block.bytes]
  cases ho : orderLength t with
  | none =>
    obtain ⟨hturn, htag⟩ := hc.parseTurn_unsupported hhead ho cur'.bytes
    have hs : s.parseBlock size clock = s.logMessage clock m (messageTag m) (.loop cur'.bytes) := by
      rw [htag]
      simp only [Feed.parseBlock, hp, hpay, hturn]
    rw [hs]
    exact ⟨cur', h.logMessage hp hm rfl (by simp [ParserPc.weight])⟩
  | some len =>
    obtain ⟨o, _, htag, hturn⟩ := hc.parseTurn_order hhead ho cur'.bytes
    have hs : s.parseBlock size clock =
        s.logMessage clock m (messageTag m) (.push o cur'.bytes) := by
      rw [htag]
      simp only [Feed.parseBlock, hp, hpay, hturn]
    rw [hs]
    exact ⟨cur', h.logMessage hp hm rfl (by simp [ParserPc.weight])⟩

/-- The turn of the loop that finds no whole message. -/
theorem InStep.stop (h : InStep blocks cur rest s) (size : Nat) (clock : Nat → BitVec 64)
    {payload : List Byte} (hp : s.parser = .loop payload) (hm : cur.messages = []) :
    InStep blocks .empty rest (s.parseBlock size clock) ∧
      parserWork .empty rest (s.parseBlock size clock) < parserWork cur rest s := by
  have hpay : payload = cur.tail := by
    rw [h.bytes_eq hp rfl, Block.bytes, hm]
    rfl
  have hs : s.parseBlock size clock = { s with parser := .idle } := by
    simp only [Feed.parseBlock, hp, hpay, cur.truncated.parseTurn]
  rw [hs]
  refine ⟨⟨h.blocks, rfl, ?_, h.tagged⟩, ?_⟩
  · rw [← h.messages, hm]
    rfl
  · simp only [parserWork, hm, hp, ParserPc.weight, Block.empty]
    omega

/-- The call of `parse_block` with the next block. -/
theorem InStep.nextBlock {block : Block} (h : InStep blocks cur (block::rest) s) (size : Nat)
    (clock : Nat → BitVec 64) (hp : s.parser = .idle) :
    InStep blocks block rest (s.parseBlock size clock) ∧
      parserWork block rest (s.parseBlock size clock) < parserWork cur (block::rest) s := by
  have hcur := h.messages_eq_nil hp
  have hs : s.parseBlock size clock =
      { s with parser := .loop block.bytes, blocks := rest.map Block.bytes } := by
    simp only [Feed.parseBlock, hp, h.blocks, List.map_cons]
  rw [hs]
  refine ⟨⟨rfl, rfl, ?_, h.tagged⟩, ?_⟩
  · rw [← h.messages, hcur, List.flatMap_cons]
    simp
  · simp only [parserWork, hcur, hp, ParserPc.weight, List.map_cons, List.sum_cons,
      List.length_nil]
    omega

/-- An access to the queue. -/
theorem InStep.access (h : InStep blocks cur rest s) {channel : Channel NormalizedOrder}
    {pc : ParserPc} (hpc : pc.payload = s.parser.payload)
    (hw : pc.weight channel.pushPc < s.parser.weight s.channel.pushPc) :
    InStep blocks cur rest { s with channel := channel, parser := pc } ∧
      parserWork cur rest { s with channel := channel, parser := pc } < parserWork cur rest s :=
  ⟨⟨h.blocks, hpc.trans h.payload, h.messages, h.tagged⟩, Nat.add_lt_add_left hw _⟩

theorem beginPush_weight (size : Nat) (c : Channel NormalizedOrder) (o : NormalizedOrder) :
    (c.beginPush size o).pushPc.weight < 6 := by
  rw [Channel.beginPush]
  split_ifs <;> simp [PushPc.weight]

theorem continuePush_weight (c : Channel NormalizedOrder) (hc : c.continuePush.pushPc ≠ .idle) :
    c.continuePush.pushPc.weight < c.pushPc.weight := by
  rw [Channel.continuePush] at hc ⊢
  cases hp : c.pushPc with
  | idle => simp [hp] at hc
  | refresh v t n =>
    by_cases hf : c.queue.head = n
    · simp [hp, hf] at hc
    · simp [hf, PushPc.weight]
  | write v t n => simp [PushPc.weight]
  | publish v t n => simp [hp] at hc

theorem InStep.inPush (h : InStep blocks cur rest s) (size : Nat) (clock : Nat → BitVec 64)
    {r : List Byte} (hp : s.parser = .inPush r) :
    InStep blocks cur rest (s.parseBlock size clock) ∧
      parserWork cur rest (s.parseBlock size clock) < parserWork cur rest s := by
  rw [Feed.parseBlock, hp]
  dsimp only
  split
  · have hw : 2 < s.channel.pushPc.weight := by
      cases s.channel.pushPc <;> simp [PushPc.weight]
    apply h.access
    · rw [hp]
      rfl
    · rw [hp]
      exact hw
  · next hidle =>
    apply h.access
    · rw [hp]
    · rw [hp]
      exact continuePush_weight s.channel hidle

/-- Every step of the feed thread that has something to do keeps in step and lowers the
weight. -/
theorem InStep.parseBlock (h : InStep blocks cur rest s) (size : Nat) (clock : Nat → BitVec 64)
    (hbusy : ¬ (s.parser = .idle ∧ s.blocks = [])) :
    ∃ cur' rest', InStep blocks cur' rest' (s.parseBlock size clock) ∧
      parserWork cur' rest' (s.parseBlock size clock) < parserWork cur rest s := by
  cases hp : s.parser with
  | idle =>
    cases rest with
    | nil => exact absurd ⟨hp, h.blocks⟩ hbusy
    | cons b bs => exact ⟨b, bs, h.nextBlock size clock hp⟩
  | loop payload =>
    cases hm : cur.messages with
    | cons m ms =>
      obtain ⟨cur', hturn⟩ := h.turn size clock hp hm
      exact ⟨cur', rest, hturn⟩
    | nil => exact ⟨.empty, rest, h.stop size clock hp hm⟩
  | push o r =>
    rw [Feed.parseBlock, hp]
    refine ⟨cur, rest, h.access ?_ ?_⟩
    · rw [hp]
      rfl
    · rw [hp]
      exact beginPush_weight size s.channel o
  | inPush r => exact ⟨cur, rest, h.inPush size clock hp⟩
  | outOfBounds =>
    have hb := h.payload
    rw [hp] at hb
    cases hb

theorem parseBlock_finished (hp : s.parser = .idle) (hb : s.blocks = []) :
    s.parseBlock size clock = s := by
  simp only [Feed.parseBlock, hp, hb]

structure Feed.ParserKept (s s' : Feed) : Prop where
  parser : s'.parser = s.parser
  blocks : s'.blocks = s.blocks
  logged : s'.logged = s.logged
  pushes : s'.channel.pushes = s.channel.pushes
  pushPc : s'.channel.pushPc = s.channel.pushPc

theorem Feed.ParserKept.trans {s s' s'' : Feed} (h : s.ParserKept s') (h' : s'.ParserKept s'') :
    s.ParserKept s'' where
  parser := h'.parser.trans h.parser
  blocks := h'.blocks.trans h.blocks
  logged := h'.logged.trans h.logged
  pushes := h'.pushes.trans h.pushes
  pushPc := h'.pushPc.trans h.pushPc

theorem consume_kept (size : Nat) (s : Feed) : s.ParserKept (s.consume size) := by
  have hc := s.channel.continuePop_producer
  rw [Feed.consume]
  split
  · split
    · have hb := s.channel.beginPop_producer size
      exact ⟨rfl, rfl, rfl, hb.1, hb.2⟩
    · exact ⟨rfl, rfl, rfl, hc.1, hc.2⟩
    · exact ⟨rfl, rfl, rfl, hc.1, hc.2⟩
  · split <;> exact ⟨rfl, rfl, rfl, rfl, rfl⟩
  · exact ⟨rfl, rfl, rfl, rfl, rfl⟩

theorem consume_run_kept (size : Nat) (clock : Nat → BitVec 64) (n : Nat) (s : Feed) :
    s.ParserKept ((List.replicate n FeedThread.consumer).foldl (Feed.step size clock) s) :=
  StepRun.invariant_replicate n ⟨rfl, rfl, rfl, rfl, rfl⟩ fun t ht => ht.trans (consume_kept size t)

theorem InStep.kept {s' : Feed} (h : InStep blocks cur rest s) (hk : s.ParserKept s') :
    InStep blocks cur rest s' := by
  refine ⟨hk.blocks.trans h.blocks, ?_, ?_, ?_⟩
  · rw [hk.parser]
    exact h.payload
  · rw [hk.logged]
    exact h.messages
  · rw [hk.logged]
    exact h.tagged

theorem InStep.step (h : ∃ cur rest, InStep blocks cur rest s) (t : FeedThread) :
    ∃ cur rest, InStep blocks cur rest (s.step size clock t) := by
  obtain ⟨cur, rest, h⟩ := h
  cases t with
  | consumer => exact ⟨cur, rest, h.kept (consume_kept size s)⟩
  | parser =>
    by_cases hf : s.parser = .idle ∧ s.blocks = []
    · rw [Feed.step, parseBlock_finished hf.1 hf.2]
      exact ⟨cur, rest, h⟩
    · obtain ⟨cur', rest', h', _⟩ := h.parseBlock size clock hf
      exact ⟨cur', rest', h'⟩

theorem InStep.run (size : Nat) (clock : Nat → BitVec 64) (data : Nat → NormalizedOrder)
    (blocks : List Block) (b : LimitOrderBook) (schedule : List FeedThread) :
    ∃ cur rest, InStep blocks cur rest
      (Feed.run size clock data (blocks.map Block.bytes) b schedule) :=
  StepRun.invariant (I := fun s => ∃ cur rest, InStep blocks cur rest s) schedule
    ⟨_, _, InStep.start data blocks b⟩ fun _ t h => InStep.step h t

/-- A feed thread with nothing left has logged every message. -/
theorem InStep.finished (h : InStep blocks cur rest s) (hp : s.parser = .idle)
    (hb : s.blocks = []) : s.logged.map LogCall.payload = blocks.flatMap Block.messages := by
  have hrest : rest = [] := by
    have hbl := h.blocks
    rw [hb] at hbl
    exact List.map_eq_nil_iff.mp hbl.symm
  rw [← h.messages, h.messages_eq_nil hp, hrest]
  simp

theorem messageOrder_eq (m : List Byte) : messageOrder m = (decode (messageTag m) m).join := by
  have hdash : orderLength 45#8 = none := by decide
  rw [messageOrder, messageTag]
  cases m.head? with
  | none => exact (decode_join_unsupported hdash m).symm
  | some t =>
    rw [Option.bind_some]
    dsimp only
    split_ifs with ho
    · rfl
    · rw [decode_join_unsupported hdash, decode_join_unsupported (by simpa using ho)]

/-- The logged calls stand for the orders of the messages. -/
theorem InStep.orders (h : InStep blocks cur rest s) :
    s.logged.map LogCall.order = (s.logged.map LogCall.payload).map messageOrder := by
  rw [List.map_map]
  apply List.map_congr_left
  intro c hc
  rw [LogCall.order, h.tagged c hc, Function.comp_apply, messageOrder_eq]

/-- The feed thread left alone comes to the end of its blocks. -/
theorem InStep.finishes (h : ∃ cur rest, InStep blocks cur rest s) (size : Nat)
    (clock : Nat → BitVec 64) :
    ∃ n, ((List.replicate n FeedThread.parser).foldl (Feed.step size clock) s).parser = .idle ∧
      ((List.replicate n FeedThread.parser).foldl (Feed.step size clock) s).blocks = [] := by
  obtain ⟨cur, rest, h⟩ := h
  apply StepRun.reaches (D := fun s : Feed => s.parser = .idle ∧ s.blocks = [])
    (W := fun s n => ∃ cur rest, InStep blocks cur rest s ∧ parserWork cur rest s = n) _
    ⟨cur, rest, h, rfl⟩
  rintro s n ⟨cur, rest, h, rfl⟩ hbusy
  obtain ⟨cur', rest', h', hw⟩ := h.parseBlock size clock hbusy
  exact ⟨_, hw, cur', rest', h', rfl⟩

end Parser

section Consumer
variable {k : Nat} {clock : Nat → BitVec 64} {b : LimitOrderBook} {s : Feed}

def PopPc.weight {α : Type*} : PopPc α → Nat
  | .idle => 4
  | .refresh _ _ => 3
  | .read _ _ => 2
  | .publish _ _ => 1

def ConsumerPc.weight (popPc : PopPc NormalizedOrder) : ConsumerPc → Nat
  | .pop => popPc.weight
  | .dispatch _ => 5
  | .terminated _ => 0

def consumerWork (s : Feed) : Nat :=
  6 * (s.channel.pushed.length - s.channel.popped.length) +
    s.consumer.weight s.channel.popPc

theorem continuePop_weight {c : Channel NormalizedOrder} (h : c.Fifo (2^k))
    (hunread : c.popped.length < c.pushed.length) (hi : c.popPc ≠ .idle)
    (hp : ∀ v n, c.popPc ≠ .publish v n) : c.continuePop.popPc.weight < c.popPc.weight := by
  rw [Channel.continuePop]
  cases hpc : c.popPc with
  | idle => exact absurd hpc hi
  | refresh i n =>
    have hne : i ≠ c.queue.tail := by
      intro he
      have := (h.refresh_empty_iff hpc).mp he
      omega
    simp [hne, PopPc.weight]
  | read i n => simp [PopPc.weight]
  | publish v n => exact absurd hpc (hp v n)

/-- Every step of the book thread with orders in the queue lowers the weight. -/
theorem FeedOk.consume_work (h : FeedOk k b s)
    (hunread : s.channel.popped.length < s.channel.pushed.length)
    (halive : ∀ w, s.consumer ≠ .terminated w) :
    consumerWork (s.consume (2^k)) < consumerWork s := by
  rw [Feed.consume]
  cases hc : s.consumer with
  | pop =>
    dsimp only
    have hcont : s.channel.popPc ≠ .idle → (∀ v n, s.channel.popPc ≠ .publish v n) →
        consumerWork { s with channel := s.channel.continuePop, consumer := .pop } <
          consumerWork s := by
      intro hi hp
      have hw := continuePop_weight h.fifo hunread hi hp
      simp only [consumerWork, hc, ConsumerPc.weight, Channel.continuePop_pushed,
        Channel.continuePop_popped hp]
      omega
    cases hp : s.channel.popPc with
    | idle =>
      have hw : (s.channel.beginPop (2^k)).popPc.weight < 4 := by
        rw [Channel.beginPop]
        split_ifs <;> simp [PopPc.weight]
      simp only [consumerWork, hc, hp, ConsumerPc.weight, Channel.beginPop_pushed,
        Channel.beginPop_popped]
      simp only [PopPc.weight] at hw ⊢
      omega
    | refresh i n => exact hcont (by simp [hp]) (by simp [hp])
    | read i n => exact hcont (by simp [hp]) (by simp [hp])
    | publish v n =>
      obtain ⟨hpop, _⟩ := Channel.continuePop_publish hp
      simp only [consumerWork, hc, hp, ConsumerPc.weight, PopPc.weight, Channel.continuePop_pushed,
        hpop, List.length_append, List.length_singleton]
      omega
  | dispatch order =>
    have hidle := h.popping (by simp [hc])
    dsimp only
    split <;> simp [consumerWork, hc, ConsumerPc.weight, hidle, PopPc.weight]
  | terminated w => exact absurd hc (halive w)

/-- The book thread left alone empties the queue, unless an exception ends it. -/
theorem FeedOk.drains (h : FeedOk k b s) (clock : Nat → BitVec 64) : ∃ n,
    let s' := (List.replicate n FeedThread.consumer).foldl (Feed.step (2^k) clock) s
    s'.channel.popped.length = s'.channel.pushed.length ∨ ∃ w, s'.consumer = .terminated w := by
  apply StepRun.reaches (D := fun s : Feed =>
      s.channel.popped.length = s.channel.pushed.length ∨ ∃ w, s.consumer = .terminated w)
    (W := fun s n => FeedOk k b s ∧ consumerWork s = n) _ ⟨h, rfl⟩
  rintro s n ⟨h, rfl⟩ hbusy
  obtain ⟨hne, halive⟩ := not_or.mp hbusy
  have hle := h.fifo.le
  exact ⟨_, h.consume_work (by omega) (not_exists.mp halive), h.step .consumer, rfl⟩

end Consumer

end MarketDataBook
