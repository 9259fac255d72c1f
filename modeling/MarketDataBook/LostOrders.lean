import MarketDataBook.RecoveredBook

/-! Which orders reach the book. `parse_block` calls `push` once for each order and goes on
whatever it returns, so an order is lost exactly when its `push` finds the ring full. -/
namespace MarketDataBook

def Feed.AllPushed (s : Feed) : Prop := ∀ p ∈ s.channel.pushes, p.2 = true

/-- A `push` that loads the consumer's index finds a free slot. -/
def Feed.RoomAtLoad (size : Nat) (s : Feed) : FeedThread → Prop
  | .consumer => True
  | .parser =>
    match s.channel.pushPc with
    | .refresh _ _ _ => s.channel.pushed.length < s.channel.popped.length + (size - 1)
    | _ => True

section Steps
variable {k : Nat} {clock : Nat → BitVec 64} {b : LimitOrderBook} {s : Feed}

theorem parseBlock_pops (size : Nat) (clock : Nat → BitVec 64) (s : Feed) :
    (s.parseBlock size clock).channel.pops = s.channel.pops := by
  rw [Feed.parseBlock]
  split
  · split <;> rfl
  · split <;> rfl
  · exact (s.channel.beginPush_consumer size _).1
  · dsimp only
    split <;> exact s.channel.continuePush_consumer.1
  · rfl

/-- A `push` under way returns false if it loads the consumer's index with the ring full. -/
theorem continuePush_all_iff {c : Channel NormalizedOrder} (h : c.Fifo (2^k)) :
    (∀ p ∈ c.continuePush.pushes, p.2 = true) ↔ (∀ p ∈ c.pushes, p.2 = true) ∧
      match c.pushPc with
      | .refresh _ _ _ => c.pushed.length < c.popped.length + (2^k - 1)
      | _ => True := by
  rw [Channel.continuePush]
  cases hp : c.pushPc with
  | idle => exact (and_iff_left trivial).symm
  | refresh v t n =>
    have hfull := h.refresh_full_iff hp
    have hroom := h.room
    dsimp only
    by_cases he : c.queue.head = n
    · have heq := hfull.mp he
      rw [if_pos he]
      refine iff_of_false ?_ (by omega)
      intro hall
      have hf := hall (v, false) (by simp)
      cases hf
    · have hne := mt hfull.mpr he
      rw [if_neg he]
      exact (and_iff_left (by omega)).symm
  | write v t n => exact (and_iff_left trivial).symm
  | publish v t n => simp [or_imp, forall_and]

theorem FeedOk.allPushed_step (h : FeedOk k b s) (t : FeedThread) :
    (s.step (2^k) clock t).AllPushed ↔ s.AllPushed ∧ s.RoomAtLoad (2^k) t := by
  cases t with
  | consumer =>
    rw [Feed.AllPushed, Feed.step, (consume_kept (2^k) s).pushes]
    exact (and_iff_left trivial).symm
  | parser =>
    by_cases hin : ∃ rest, s.parser = .inPush rest
    · obtain ⟨rest, hp⟩ := hin
      have hs : (s.step (2^k) clock .parser).channel = s.channel.continuePush := by
        rw [Feed.step, Feed.parseBlock, hp]
        dsimp only
        split <;> rfl
      rw [Feed.AllPushed, hs]
      exact continuePush_all_iff h.fifo
    · have hs : (s.step (2^k) clock .parser).channel.pushes = s.channel.pushes := by
        rw [Feed.step, Feed.parseBlock]
        split
        · split <;> rfl
        · split <;> rfl
        · exact (s.channel.beginPush_calls (2^k) _).1
        · next rest hp => exact absurd ⟨rest, hp⟩ hin
        · rfl
      rw [Feed.AllPushed, hs, Feed.RoomAtLoad, h.pushing (not_exists.mp hin)]
      exact (and_iff_left trivial).symm

/-- Over a whole run: every `push` succeeded if and only if each found room. -/
theorem allPushed_iff_roomAtLoad (k : Nat) (clock : Nat → BitVec 64)
    (data : Nat → NormalizedOrder) (blocks : List (List Byte)) (b : LimitOrderBook)
    (schedule : List FeedThread) :
    (Feed.run (2^k) clock data blocks b schedule).AllPushed ↔
      StepRun.Along (Feed.step (2^k) clock) (Feed.RoomAtLoad (2^k)) (.start data blocks b)
        schedule := by
  have hstart : (Feed.start data blocks b).AllPushed := fun _ hp => absurd hp List.not_mem_nil
  rw [Feed.run, StepRun.foldl_iff_along (FeedOk.start k data blocks b) (fun _ t h => h.step t)
    fun _ t h => h.allPushed_step t]
  exact and_iff_right hstart

/-- With the feed thread idle and the queue empty, the popped orders are all the logged ones
only if no `push` failed. -/
theorem FeedOk.popped_eq_iff (h : FeedOk k b s) (hidle : s.parser = .idle)
    (hd : s.channel.popped.length = s.channel.pushed.length) :
    s.channel.popped = s.logged.filterMap LogCall.order ↔ s.AllPushed := by
  refine ⟨?_, fun hall => h.popped_all hall hidle hd⟩
  intro hp
  have hpc : s.channel.pushPc = .idle := h.pushing (by simp [hidle])
  have hpend : s.pending = [] := by simp [Feed.pending, hidle]
  have hh := h.handed
  rw [Feed.handed, hpc, hpend, ← hp] at hh
  have hlen : (s.channel.pushes.filter Prod.snd).length = s.channel.pushes.length := by
    have hl := congrArg List.length hh
    simp only [PushPc.current, List.append_nil, List.length_map] at hl
    rw [hl, hd, Channel.pushed, List.length_map]
  exact List.length_filter_eq_length_iff.mp hlen

end Steps

/-- Once the feed thread is idle and the queue empty, the book thread has popped exactly the
orders of the blocks if and only if every `push` of the run found room in the ring. -/
theorem popped_eq_orders_iff (k : Nat) (clock : Nat → BitVec 64)
    (data : Nat → NormalizedOrder) (blocks : List Block) (b : LimitOrderBook)
    (schedule : List FeedThread) {s : Feed}
    (hs : s = Feed.run (2^k) clock data (blocks.map Block.bytes) b schedule)
    (hidle : s.parser = .idle) (hblocks : s.blocks = [])
    (hempty : s.channel.popped.length = s.channel.pushed.length) :
    s.channel.popped = (blocks.flatMap Block.messages).filterMap messageOrder ↔
      StepRun.Along (Feed.step (2^k) clock) (Feed.RoomAtLoad (2^k))
        (.start data (blocks.map Block.bytes) b) schedule := by
  have hok := FeedOk.run k clock data (blocks.map Block.bytes) b schedule
  obtain ⟨cur, rest, hin⟩ := InStep.run (2^k) clock data blocks b schedule
  rw [← hs] at hok hin
  rw [← allPushed_iff_roomAtLoad, ← hs, ← hok.popped_eq_iff hidle hempty,
    ← hin.finished hidle hblocks, ← reduceOption_map_eq, ← hin.orders, reduceOption_map_eq]

theorem addCancelFeed_roomAtLoad :
    addCancelFeed.channel.popped.length = 2 ∧
      StepRun.Along (Feed.step (2^2) fun _ => 0#64) (Feed.RoomAtLoad (2^2))
        (.start (fun _ => .addOrder (.plain 66#8 1#64 5#32 3#32))
          ([addCancelBlock].map Block.bytes) (.new 1))
        (List.replicate 12 .parser ++ List.replicate 10 .consumer) :=
  ⟨by decide +kernel, (popped_eq_orders_iff 2 _ _ [addCancelBlock] (.new 1) _
    (s := addCancelFeed) rfl rfl rfl (by decide +kernel)).mp (by decide +kernel)⟩

theorem replay_cancels (b : LimitOrderBook) (os : List NormalizedOrder)
    (h : ∀ o ∈ os, ∃ c, o = .cancelOrder c) : (replay b (os.map some)).outcome = .returned := by
  induction os generalizing b with
  | nil => rfl
  | cons o os ih =>
    obtain ⟨c, rfl⟩ := h o List.mem_cons_self
    have hs : b.step (dispatchTable (.cancelOrder c)) =
        (b.cancelOrder c.orderReferenceNumber, .returned) := rfl
    rw [List.map_cons, replay_some_returned hs]
    exact ih _ fun o' ho => h o' (List.mem_cons_of_mem _ ho)

theorem FeedOk.mem_popped {k : Nat} {b : LimitOrderBook} {s : Feed} (h : FeedOk k b s)
    {o : NormalizedOrder} (ho : o ∈ s.channel.popped) :
    o ∈ s.logged.filterMap LogCall.order := by
  have hp : o ∈ s.channel.pushes.map Prod.fst :=
    (List.filter_sublist.map Prod.fst).subset (h.fifo.ordered.subset ho)
  rw [← h.handed, Feed.handed]
  exact List.mem_append_left _ (List.mem_append_left _ hp)

def CancelsOnly (blocks : List Block) : Prop :=
  ∀ m ∈ blocks.flatMap Block.messages, ∀ o, messageOrder m = some o → ∃ c, o = .cancelOrder c

/-- On cancels alone the book thread never ends. -/
theorem FeedOk.alive {k : Nat} {b : LimitOrderBook} {s : Feed} {blocks rest : List Block}
    {cur : Block} (h : FeedOk k b s) (hin : InStep blocks cur rest s)
    (hcancel : CancelsOnly blocks) (what : String) : s.consumer ≠ .terminated what := by
  intro hterm
  have hlive := h.consumer
  rw [hterm] at hlive
  obtain ⟨done, order, _, hr⟩ := hlive
  have hret := replay_cancels b s.channel.popped ?_
  · rw [hr] at hret
    cases hret
  · intro o ho
    have hmem := h.mem_popped ho
    rw [← reduceOption_map_eq, hin.orders, reduceOption_map_eq, List.mem_filterMap] at hmem
    obtain ⟨m, hm, hmo⟩ := hmem
    apply hcancel m _ o hmo
    rw [← hin.messages]
    exact List.mem_append_left _ (List.mem_append_left _ hm)

/-- A feed thread that runs ahead of the book thread keeps no more than the ring holds, however
many orders it was given. -/
theorem exists_run_within_ring (k : Nat) (clock : Nat → BitVec 64) (data : Nat → NormalizedOrder)
    (blocks : List Block) (b : LimitOrderBook)
    (hcancel : CancelsOnly blocks) :
    ∃ schedule, let s := Feed.run (2^k) clock data (blocks.map Block.bytes) b schedule
      s.parser = .idle ∧ s.blocks = [] ∧ s.channel.popped.length = s.channel.pushed.length ∧
      s.channel.popped.length < 2^k := by
  obtain ⟨n, hidle, hblocks⟩ := InStep.finishes ⟨_, _, InStep.start data blocks b⟩ (2^k) clock
  let s := Feed.run (2^k) clock data (blocks.map Block.bytes) b (List.replicate n .parser)
  have hok : FeedOk k b s := FeedOk.run k clock data (blocks.map Block.bytes) b _
  have hpops : s.channel.pops = [] :=
    StepRun.invariant_replicate (I := fun s : Feed => s.channel.pops = []) n rfl
      fun s hs => (parseBlock_pops (2^k) clock s).trans hs
  obtain ⟨m, hd⟩ := hok.drains clock
  let s' := (List.replicate m FeedThread.consumer).foldl (Feed.step (2^k) clock) s
  have hrun : Feed.run (2^k) clock data (blocks.map Block.bytes) b
      (List.replicate n .parser ++ List.replicate m .consumer) = s' := List.foldl_append
  have hkept : s.ParserKept s' := consume_run_kept (2^k) clock m s
  obtain ⟨cur, rest, hin⟩ := InStep.run (2^k) clock data blocks b
    (List.replicate n .parser ++ List.replicate m .consumer)
  have hok' := FeedOk.run k clock data (blocks.map Block.bytes) b
    (List.replicate n .parser ++ List.replicate m .consumer)
  rw [hrun] at hin hok'
  have hlen := hd.resolve_right (not_exists.mpr (hok'.alive hin hcancel))
  refine ⟨List.replicate n .parser ++ List.replicate m .consumer, ?_⟩
  rw [hrun]
  refine ⟨hkept.parser.trans hidle, hkept.blocks.trans hblocks, hlen, ?_⟩
  -- the ring was filled before anything was popped
  have hroom := hok.fifo.room
  rw [Channel.popped, hpops] at hroom
  rw [hlen, Channel.pushed, hkept.pushes]
  simpa [Channel.pushed] using hroom

/-- Nothing lost and nothing in the queue, with at most `n` steps of the feed thread to go. -/
def KeepsUp (k : Nat) (b : LimitOrderBook) (blocks : List Block) (s : Feed) (n : Nat) : Prop :=
  FeedOk k b s ∧ s.AllPushed ∧ s.channel.popped.length = s.channel.pushed.length ∧
    ∃ cur rest, InStep blocks cur rest s ∧ parserWork cur rest s = n

/-- A step of the feed thread, then the book thread until the queue is empty again. -/
theorem KeepsUp.round {k n : Nat} {b : LimitOrderBook} {s : Feed} {blocks : List Block}
    (h : KeepsUp k b blocks s n) (hk : 0 < k) (clock : Nat → BitVec 64)
    (hcancel : CancelsOnly blocks) (hbusy : ¬ (s.parser = .idle ∧ s.blocks = [])) :
    ∃ round, ∃ m < n, KeepsUp k b blocks (List.foldl (Feed.step (2^k) clock) s round) m := by
  obtain ⟨hok, hall, hempty, cur, rest, hin, rfl⟩ := h
  obtain ⟨cur', rest', hin', hwork⟩ := hin.parseBlock (2^k) clock hbusy
  have hok' : FeedOk k b (s.step (2^k) clock .parser) := hok.step .parser
  have htwo : 2^1 ≤ 2^k := Nat.pow_le_pow_right (by decide) hk
  have hroom : s.RoomAtLoad (2^k) .parser := by
    rw [Feed.RoomAtLoad]
    split
    · omega
    · trivial
  have hall' : (s.step (2^k) clock .parser).AllPushed :=
    (hok.allPushed_step .parser).mpr ⟨hall, hroom⟩
  obtain ⟨m, hd⟩ := hok'.drains clock
  have hkept := consume_run_kept (2^k) clock m (s.step (2^k) clock .parser)
  have hok'' : FeedOk k b ((List.replicate m FeedThread.consumer).foldl
      (Feed.step (2^k) clock) (s.step (2^k) clock .parser)) :=
    StepRun.invariant _ hok' fun _ t ht => ht.step t
  have hin'' := hin'.kept hkept
  refine ⟨.parser :: List.replicate m .consumer, _, hwork, hok'', ?_, ?_, cur', rest', hin'', ?_⟩
  · rw [Feed.AllPushed, List.foldl_cons, hkept.pushes]
    exact hall'
  · exact hd.resolve_right (not_exists.mpr (hok''.alive hin'' hcancel))
  · rw [parserWork, List.foldl_cons, hkept.parser, hkept.pushPc]
    rfl

/-- A book thread that keeps up gets every order. -/
theorem exists_run_without_loss {k : Nat} (hk : 0 < k) (clock : Nat → BitVec 64)
    (data : Nat → NormalizedOrder) (blocks : List Block) (b : LimitOrderBook)
    (hcancel : CancelsOnly blocks) :
    ∃ schedule, let s := Feed.run (2^k) clock data (blocks.map Block.bytes) b schedule
      s.parser = .idle ∧ s.blocks = [] ∧ s.AllPushed ∧
      s.channel.popped.length = s.channel.pushed.length := by
  have hstart : KeepsUp k b blocks (.start data (blocks.map Block.bytes) b) _ :=
    ⟨FeedOk.start k data _ b, fun _ hp => absurd hp List.not_mem_nil, rfl, _, _,
      InStep.start data blocks b, rfl⟩
  obtain ⟨schedule, ⟨hidle, hblocks⟩, _, _, hall, hempty, _⟩ := StepRun.reaches_by_rounds
    (fun _ _ h hbusy => h.round hk clock hcancel hbusy) hstart
  exact ⟨schedule, hidle, hblocks, hall, hempty⟩

def cancelMessage : List Byte := 88#8 :: List.replicate 22 0#8

theorem cancelMessage_order : messageOrder cancelMessage = some (.cancelOrder ⟨0, 0, 0, 0, 0⟩) := by
  decide +kernel

theorem cancels_complete (n : Nat) : ∀ m ∈ List.replicate n cancelMessage, Complete m := by
  intro m hm
  rw [List.eq_of_mem_replicate hm]
  exact ⟨88#8, rfl, by decide⟩

def cancels (n : Nat) : Block :=
  ⟨List.replicate n cancelMessage, [], cancels_complete n, truncated_nil⟩

theorem cancels_messages (n : Nat) :
    [cancels n].flatMap Block.messages = List.replicate n cancelMessage :=
  List.append_nil _

theorem cancels_orders (n : Nat) : ([cancels n].flatMap Block.messages).filterMap messageOrder =
    List.replicate n (.cancelOrder ⟨0, 0, 0, 0, 0⟩) := by
  rw [cancels_messages, List.filterMap_replicate_of_some cancelMessage_order]

theorem cancels_cancelsOnly (n : Nat) : CancelsOnly [cancels n] := by
  intro m hm o ho
  rw [cancels_messages] at hm
  rw [List.eq_of_mem_replicate hm, cancelMessage_order] at ho
  exact ⟨_, (Option.some.inj ho).symm⟩

/-- A burst of 4096 cancels into the ring of `main.cpp` loses one of them. -/
theorem burst_loses_order : ∃ schedule,
    let s := Feed.run (2^12) (fun _ => 0#64) (fun _ => .cancelOrder ⟨0, 0, 0, 0, 0⟩)
      ([cancels 4096].map Block.bytes) (.new 1) schedule
    s.parser = .idle ∧ s.blocks = [] ∧ s.channel.popped.length = s.channel.pushed.length ∧
      s.channel.popped ≠ ([cancels 4096].flatMap Block.messages).filterMap messageOrder := by
  obtain ⟨schedule, hidle, hblocks, hempty, hlt⟩ := exists_run_within_ring 12 (fun _ => 0#64)
    (fun _ => .cancelOrder ⟨0, 0, 0, 0, 0⟩) [cancels 4096] (.new 1) (cancels_cancelsOnly 4096)
  refine ⟨schedule, hidle, hblocks, hempty, ?_⟩
  intro he
  have hlen := congrArg List.length he
  rw [cancels_orders, List.length_replicate] at hlen
  omega

end MarketDataBook
