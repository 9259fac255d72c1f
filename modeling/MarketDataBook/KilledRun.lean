import MarketDataBook.CrashPoints
import MarketDataBook.MockMode

/-! The process is killed at any moment of a run, also between two stores of `log_payload`. What
the mapped file holds then is all that recovery has. It replays every message logged before and
perhaps the one under way, so it is never behind the book that was lost. -/
namespace MarketDataBook
open ByteMemory

def Feed.nextCall (clock : Nat → BitVec 64) (s : Feed) : Option LogCall :=
  match s.parser with
  | .loop payload =>
    match parseTurn payload with
    | .unsupported message _ => some ⟨message, 45#8, clock s.logged.length⟩
    | .order messageType message _ _ => some ⟨message, messageType, clock s.logged.length⟩
    | _ => none
  | _ => none

def InPlaceFeed.nextCall (clock : Nat → BitVec 64) (ring : Memory) (s : InPlaceFeed) :
    Option LogCall :=
  (s.read ring []).nextCall clock

/-- The log of a process killed here, with the first `n` bytes stored of the frame that is being
written, if one is. -/
def InPlaceFeed.killed (clock : Nat → BitVec 64) (ring : Memory) (n : Nat) (s : InPlaceFeed) :
    Memory :=
  match s.nextCall clock ring with
  | none => s.log.logger.mem
  | some c => crashImage s.log c n

/-- The frame that is being written does not pass for a whole one before its payload is copied:
what is stored of it does not end in its own checksum. -/
def InPlaceFeed.NotYetPassing (clock : Nat → BitVec 64) (ring : Memory) (n : Nat)
    (s : InPlaceFeed) : Prop :=
  ∀ c ∈ s.nextCall clock ring, n < 16 + c.payload.length →
    ¬ EndsInOwnCrc (((frameBytes (BitVec.ofNat 32 s.logged.length) c).take n).take 64)

/-- Recovery from `image` goes as the replay of the first `count` messages: those logged and at
most one more. They contain every order the book thread has taken, so that the book recovered is
the book lost, with the orders that were still on their way applied to it. -/
structure Survives (messages : List (List Byte)) (b : LimitOrderBook) (s : InPlaceFeed)
    (image : Memory) (count : Nat) : Prop where
  least : s.logged.length ≤ count
  most : count ≤ s.logged.length + 1
  within : count ≤ messages.length
  recovered : Follows image 0 .new (replay b ((messages.take count).map messageOrder))
    (runRecovery b image fileSize)
  ahead : (∀ p ∈ s.channel.pushes, p.2 = true) →
    ∃ onTheirWay, (messages.take count).filterMap messageOrder =
        s.channel.popped ++ onTheirWay ∧
      (s.consumer = .pop → (runRecovery b image fileSize).book =
        (replay s.book (onTheirWay.map some)).book) ∧
      ∀ what, s.consumer = .terminated what →
        (runRecovery b image fileSize).book = s.book ∧
          (runRecovery b image fileSize).ending = .raised what

section Kill
variable {k : Nat} {clock : Nat → BitVec 64} {data : Nat → NormalizedOrder} {b : LimitOrderBook}
  {blocks : List Block} {f : Feed} {c : LogCall}

theorem Feed.logged_parseBlock (size : Nat) (h : f.nextCall clock = some c) :
    (f.parseBlock size clock).logged = f.logged ++ [c] := by
  rw [Feed.nextCall] at h
  rw [Feed.parseBlock]
  split at h
  · next payload hp =>
    rw [hp]
    dsimp only
    split at h
    · next message rest ht =>
      cases h
      rw [ht]
      rfl
    · next messageType message newOrder rest ht =>
      cases h
      rw [ht]
      rfl
    · cases h
  · cases h

/-- What is logged is an initial part of the messages, order by order. -/
theorem InStep.logged_eq {cur : Block} {rest : List Block} (h : InStep blocks cur rest f) :
    f.logged.length ≤ (blocks.flatMap Block.messages).length ∧
      ((blocks.flatMap Block.messages).take f.logged.length).map messageOrder =
        f.logged.map LogCall.order := by
  have hmessages := h.messages
  rw [List.append_assoc] at hmessages
  refine ⟨?_, ?_⟩
  · rw [← hmessages, List.length_append, List.length_map]
    exact Nat.le_add_right _ _
  · have hlen : f.logged.length = (f.logged.map LogCall.payload).length := by rw [List.length_map]
    rw [← hmessages, hlen, List.take_left, h.orders]

/-- The state after the call is reached too, so the call is that of the next message. -/
theorem Feed.run_nextCall {ts : List FeedThread}
    (h : Feed.run (2^k) clock data (blocks.map Block.bytes) b ts = f)
    (hcall : f.nextCall clock = some c) :
    c.WellTagged ∧ (f.logged ++ [c]).length ≤ (blocks.flatMap Block.messages).length ∧
      ((blocks.flatMap Block.messages).take (f.logged ++ [c]).length).map messageOrder =
        (f.logged ++ [c]).map LogCall.order := by
  have hok := FeedOk.run k clock data (blocks.map Block.bytes) b (ts ++ [.parser])
  obtain ⟨cur, rest, hin⟩ := InStep.run (2^k) clock data blocks b (ts ++ [.parser])
  have hstep : Feed.run (2^k) clock data (blocks.map Block.bytes) b (ts ++ [.parser]) =
      f.parseBlock (2^k) clock := by
    rw [← h, Feed.run, List.foldl_append]
    rfl
  rw [hstep] at hok hin
  have htagged := hok.tagged
  have hlogged := hin.logged_eq
  rw [Feed.logged_parseBlock (2^k) hcall] at htagged hlogged
  exact ⟨htagged c (List.mem_append_right _ (List.mem_singleton_self c)), hlogged⟩

theorem FeedOk.untouched (h : FeedOk k b f) :
    ∀ a, f.log.logger.curr + 2 ≤ a → f.log.logger.mem a = 0#8 := by
  rw [h.log]
  exact logAll_untouched fun d hd => (h.tagged d hd).1

/-- The book recovered from calls that begin with those logged. -/
theorem FeedOk.ahead {r : Recovery} {image : Memory} {calls : List LogCall} (hok : FeedOk k b f)
    (hinit : f.logged <+: calls)
    (hf : Follows image 0 .new (replay b (calls.map LogCall.order)) r)
    (hpush : ∀ p ∈ f.channel.pushes, p.2 = true) :
    ∃ onTheirWay, calls.filterMap LogCall.order = f.channel.popped ++ onTheirWay ∧
      (f.consumer = .pop → r.book = (replay f.book (onTheirWay.map some)).book) ∧
      ∀ what, f.consumer = .terminated what → r.book = f.book ∧ r.ending = .raised what := by
  obtain ⟨logged, hlogged⟩ := hok.popped_initial hpush
  obtain ⟨more, rfl⟩ := hinit
  have hall : (f.logged ++ more).filterMap LogCall.order =
      f.channel.popped ++ (logged ++ more.filterMap LogCall.order) := by
    rw [List.filterMap_append, hlogged, List.append_assoc]
  obtain ⟨hbook, houtcome, -⟩ := replay_orders b ((f.logged ++ more).map LogCall.order)
  rw [reduceOption_map_eq, hall, List.map_append] at hbook houtcome
  have hconsumer := hok.consumer
  refine ⟨_, hall, ?_, ?_⟩
  · intro hpop
    rw [hpop, ConsumerOk] at hconsumer
    rw [hf.book, ← hbook, replay_append_returned (by rw [hconsumer]), hconsumer]
  · intro what hterm
    rw [hterm] at hconsumer
    obtain ⟨done, order, -, hr⟩ := hconsumer
    have hraised : (replay b (f.channel.popped.map some)).outcome = .raised what := by rw [hr]
    rw [replay_append_raised hraised, hr] at hbook houtcome
    refine ⟨hf.book.trans hbook.symm, ?_⟩
    rw [hf.ending, ← houtcome]

end Kill

section Run
variable {k : Nat} {clock : Nat → BitVec 64} {data : Nat → NormalizedOrder} {b : LimitOrderBook}
  {blocks : List Block} {ring : Memory} {s : InPlaceFeed} {left : List (List Byte)}
  {ts : List FeedThread} {image : Memory} {calls : List LogCall}

/-- Recovery as a replay of calls is a replay of messages. -/
theorem Survives.of_follows (hok : FeedOk k b (s.read ring left))
    (hle : calls.length ≤ (blocks.flatMap Block.messages).length)
    (horders : ((blocks.flatMap Block.messages).take calls.length).map messageOrder =
      calls.map LogCall.order)
    (hinit : s.logged <+: calls) (hmost : calls.length ≤ s.logged.length + 1)
    (hf : Follows image 0 .new (replay b (calls.map LogCall.order))
      (runRecovery b image fileSize)) :
    Survives (blocks.flatMap Block.messages) b s image calls.length where
  least := hinit.length_le
  most := hmost
  within := hle
  recovered := by
    rw [horders]
    exact hf
  ahead := by
    intro hpush
    have heq : ((blocks.flatMap Block.messages).take calls.length).filterMap messageOrder =
        calls.filterMap LogCall.order := by
      rw [← reduceOption_map_eq, ← reduceOption_map_eq, horders]
    rw [heq]
    exact hok.ahead hinit hf hpush

/-- Killed anywhere in a run of the parser that works in place. -/
theorem InPlaceFeed.survives
    (h : Feed.run (2^k) clock data (blocks.map Block.bytes) b ts = s.read ring left)
    (hroom : s.log.frames + 1 < 2^24) (n : Nat) (hn : s.NotYetPassing clock ring n) :
    ∃ count, Survives (blocks.flatMap Block.messages) b s (s.killed clock ring n) count := by
  have hok := FeedOk.run k clock data (blocks.map Block.bytes) b ts
  obtain ⟨cur, rest, hin⟩ := InStep.run (2^k) clock data blocks b ts
  rw [h] at hok hin
  obtain ⟨hle, horders⟩ := hin.logged_eq
  have hlog : s.log.frames < 2^24 := Nat.lt_of_succ_lt hroom
  have hw : Written s.log s.logged := hok.written hlog
  have hlen := hw.length_eq
  have hstops : ∀ {image : Memory},
      Follows image 0 .new (replay b (s.logged.map LogCall.order))
        (runRecovery b image fileSize) →
      ∃ count, Survives (blocks.flatMap Block.messages) b s image count := by
    intro image hf
    exact ⟨_, .of_follows hok hle horders List.prefix_rfl (Nat.le_succ _) hf⟩
  rw [InPlaceFeed.killed]
  cases hcall : s.nextCall clock ring with
  | none => exact hstops (hok.recovery hlog)
  | some c =>
    obtain ⟨hc, hle', horders'⟩ := Feed.run_nextCall h hcall
    have htagged : ∀ d ∈ s.logged, d.WellTagged := hok.tagged
    have hzero : ∀ a, s.log.logger.curr + 2 ≤ a → s.log.logger.mem a = 0#8 := hok.untouched
    dsimp only
    by_cases hv : ValidFrame (crashImage s.log c n) s.logged.length
    · have hge : 16 + c.payload.length ≤ n := by
        by_contra hlt
        rw [Nat.not_le] at hlt
        have hpass := (hw.crash_validFrame_iff hzero hlt.le).mp hv
        rw [hw.setWidth_seqNum] at hpass
        exact hn c hcall hlt hpass
      obtain ⟨hf, -⟩ := hw.crash_follows htagged hzero hc (by omega) hv b
      rw [LogCall.upTo_of_le hge] at hf
      have hmost : (s.logged ++ [c]).length ≤ s.logged.length + 1 := by
        rw [List.length_append, List.length_singleton]
      exact ⟨_, .of_follows hok hle' horders' (List.prefix_append _ _) hmost hf⟩
    · exact hstops (hw.crash_stops htagged (by omega) hv b).1

end Run

/-- Mock mode killed at any moment, for every file of complete messages whose records fit their
frames and every interleaving of the four threads. -/
theorem MockMode.run_survives (k : Nat) (clock : Nat → BitVec 64) (file : List Byte)
    (hfit : RecordsFit file) (blocks : List Block)
    (hblocks : completeRecords file = blocks.map Block.bytes) (data : Nat → NormalizedOrder)
    (b : LimitOrderBook) (schedule : List MockThread) (n : Nat) :
    let s := MockMode.run (2^k) clock file data b schedule
    s.log.frames + 1 < 2^24 → s.NotYetPassing clock s.receiver.ring n →
      ∃ count, Survives (blocks.flatMap Block.messages) b s.toInPlaceFeed
        (s.killed clock s.receiver.ring n) count := by
  intro s hroom hn
  obtain ⟨ts, h⟩ := MockMode.run_feeds k clock hfit data b schedule
  rw [hblocks] at h
  exact InPlaceFeed.survives h.feed.symm hroom n hn

def addedRun : MockMode :=
  MockMode.run (2^2) (fun _ => 0#64) addCancelFile
    (fun _ => .addOrder (.plain 66#8 1#64 5#32 3#32)) (.new 1)
    (List.replicate 6 .simulate ++ List.replicate 7 .main ++ List.replicate 6 .consume)

/-- Killed with four bytes of the cancel copied. -/
theorem addedRun_survives :
    addedRun.channel.popped.length = 1 ∧ addedRun.logged.length = 2 ∧
      (addedRun.nextCall (fun _ => 0#64) addedRun.receiver.ring).isSome = true ∧
      ∃ count, Survives addCancelBlock.messages (.new 1) addedRun.toInPlaceFeed
        (addedRun.killed (fun _ => 0#64) addedRun.receiver.ring 20) count := by
  have hroom : addedRun.log.frames + 1 < 2^24 := by decide +kernel
  have hall : (addedRun.nextCall (fun _ => 0#64) addedRun.receiver.ring).all
      (fun c => !decide (EndsInOwnCrc
        (((frameBytes (BitVec.ofNat 32 addedRun.logged.length) c).take 20).take 64))) = true := by
    decide +kernel
  have hn : addedRun.NotYetPassing (fun _ => 0#64) addedRun.receiver.ring 20 := by
    intro c hc _
    rw [Option.all_eq_true] at hall
    simpa using hall c hc
  have hs := MockMode.run_survives 2 _ _ recordsFit_addCancelFile [addCancelBlock]
    completeRecords_addCancelFile _ _ _ 20 hroom hn
  rw [List.flatMap_singleton] at hs
  exact ⟨by decide +kernel, by decide +kernel, by decide +kernel, hs⟩

end MarketDataBook
