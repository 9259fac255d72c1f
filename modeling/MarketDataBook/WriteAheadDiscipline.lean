import MarketDataBook.LostOrders

/-! Log before push. `parse_block` calls `log_payload` before `push`, but `log_payload` returns
without a trace when the file is full, and the order is pushed all the same. -/
namespace MarketDataBook
open ByteMemory

abbrev OrderRecord := Byte × List Byte

def LogCall.record (c : LogCall) : Option OrderRecord :=
  (orderLength c.msgType).map fun _ => (c.msgType, c.payload)

def Feed.orderRecords (s : Feed) : List OrderRecord := s.logged.filterMap LogCall.record

instance (file : Memory) (k : Nat) : Decidable (ValidFrame file k) :=
  inferInstanceAs (Decidable (_ ∧ _))

def frameRecord (file : Memory) (k : Nat) : Option OrderRecord :=
  if ValidFrame file k then
    (orderLength (frameAt file k 1)).map fun len =>
      (frameAt file k 1, (framePayload (frameAt file k)).take len)
  else none

def PayloadLog.orderFrames (l : PayloadLog) : List OrderRecord :=
  (List.range l.frames).filterMap (frameRecord l.logger.mem)

/-- Every order passed to `push`, or about to be, is the decoding of a message that stands in
the log as a valid frame; the frames come in the order of the pushes. -/
structure Feed.WriteAhead (s : Feed) : Prop where
  decoded : s.handed.map some = s.orderRecords.map fun r => (decode r.1 r.2).join
  stored : s.orderRecords.Sublist s.log.orderFrames

def Feed.RoomInLog (s : Feed) : FeedThread → Prop
  | .consumer => True
  | .parser =>
    match s.parser with
    | .loop payload =>
      match parseTurn payload with
      | .order _ _ _ _ => s.log.frames < 2^24
      | _ => True
    | _ => True

theorem Written.frameRecord {l : PayloadLog} {calls : List LogCall} (h : Written l calls)
    (ht : ∀ c ∈ calls, c.WellTagged) {k : Nat} {c : LogCall} (hc : calls[k]? = some c) :
    frameRecord l.logger.mem k = c.record := by
  have hf := h.frames k c hc
  have hv := h.validFrame (List.getElem?_eq_some_iff.mp hc).1
  rw [MarketDataBook.frameRecord, if_pos hv, hf.msgType, LogCall.record]
  cases ho : orderLength c.msgType with
  | none => rfl
  | some len =>
    rw [Option.map_some, hf.take_framePayload (ht c (List.mem_of_getElem? hc)) ho, Option.map_some]

theorem Written.orderFrames {l : PayloadLog} {calls : List LogCall} (h : Written l calls)
    (ht : ∀ c ∈ calls, c.WellTagged) : l.orderFrames = calls.filterMap LogCall.record := by
  rw [PayloadLog.orderFrames, ← reduceOption_map_eq, h.map_frames fun _ _ => h.frameRecord ht,
    reduceOption_map_eq]

theorem LogCall.WellTagged.order_record {c : LogCall} (h : c.WellTagged) :
    (c.order.toList).map some = c.record.toList.map fun r => (decode r.1 r.2).join := by
  rw [LogCall.order, LogCall.record]
  cases ho : orderLength c.msgType with
  | none =>
    rw [decode_join_unsupported ho]
    rfl
  | some len =>
    obtain ⟨o, hd⟩ := decode_some ho (h.2 len ho).ge
    simp [hd]

theorem orders_eq_records {calls : List LogCall} (h : ∀ c ∈ calls, c.WellTagged) :
    (calls.filterMap LogCall.order).map some =
      (calls.filterMap LogCall.record).map fun r => (decode r.1 r.2).join := by
  induction calls with
  | nil => rfl
  | cons c cs ih =>
    have hc := (h c List.mem_cons_self).order_record
    have hcs := ih fun d hd => h d (List.mem_cons_of_mem c hd)
    rw [← List.singleton_append, List.filterMap_append, List.filterMap_append, List.map_append,
      List.map_append, hcs]
    congr 1

section Discipline
variable {k : Nat} {clock : Nat → BitVec 64} {b : LimitOrderBook} {s : Feed}

theorem FeedOk.frames_eq (h : FeedOk k b s) : s.log.frames = min (2^24) s.logged.length := by
  have hw := written_logAll s.logged
  rw [← h.log] at hw
  rw [← hw.length_eq, List.length_take]

/-- The log holds the first two to the 24 messages. -/
theorem FeedOk.orderFrames (h : FeedOk k b s) :
    s.log.orderFrames = (s.logged.take (2^24)).filterMap LogCall.record := by
  have hw := written_logAll s.logged
  rw [← h.log] at hw
  exact hw.orderFrames fun c hc => h.tagged c (List.mem_of_mem_take hc)

def Feed.NoneBeyond (s : Feed) : Prop := (s.logged.drop (2^24)).filterMap LogCall.record = []

theorem FeedOk.writeAhead_iff (h : FeedOk k b s) : s.WriteAhead ↔ s.NoneBeyond := by
  have hsplit : s.orderRecords = s.log.orderFrames ++
      (s.logged.drop (2^24)).filterMap LogCall.record := by
    rw [h.orderFrames, ← List.filterMap_append, List.take_append_drop, Feed.orderRecords]
  refine ⟨?_, ?_⟩
  · intro hw
    have hle := hw.stored.length_le
    rw [hsplit, List.length_append] at hle
    exact List.eq_nil_of_length_eq_zero (by omega)
  · intro hn
    refine ⟨?_, ?_⟩
    · rw [h.handed]
      exact orders_eq_records h.tagged
    · rw [hsplit, hn, List.append_nil]

/-- One more call keeps the log complete if it concerns no order or finds room. -/
theorem filterMap_drop_append {calls : List LogCall} {c : LogCall} {n : Nat} :
    ((calls ++ [c]).drop n).filterMap LogCall.record = [] ↔
      (calls.drop n).filterMap LogCall.record = [] ∧ (c.record = none ∨ calls.length < n) := by
  rw [List.drop_append, List.filterMap_append, List.append_eq_nil_iff]
  apply and_congr_right
  intro _
  obtain hlt | hge := Nat.lt_or_ge calls.length n
  · rw [List.drop_eq_nil_of_le (by rw [List.length_singleton]; omega)]
    simp [hlt]
  · have hz : n - calls.length = 0 := by omega
    rw [hz, or_iff_left (Nat.not_lt.mpr hge)]
    cases hr : c.record <;> simp [hr]

theorem FeedOk.noneBeyond_turn (h : FeedOk k b s) {payload : List Byte}
    (hp : s.parser = .loop payload) :
    (s.parseBlock (2^k) clock).NoneBeyond ↔ s.NoneBeyond ∧ s.RoomInLog .parser := by
  have hframes := h.frames_eq
  rw [Feed.parseBlock, Feed.RoomInLog, hp]
  dsimp only
  cases ht : parseTurn payload with
  | stop => exact (and_iff_left trivial).symm
  | outOfBounds => exact (and_iff_left trivial).symm
  | unsupported message rest =>
    have hno : orderLength 45#8 = none := by decide
    dsimp only [Feed.NoneBeyond, Feed.logMessage]
    rw [filterMap_drop_append, LogCall.record, hno, Option.map_none]
    exact and_congr_right fun _ => iff_of_true (Or.inl rfl) trivial
  | order messageType message newOrder rest =>
    obtain ⟨ho, _, _⟩ := parseTurn_eq_order ht
    dsimp only [Feed.NoneBeyond, Feed.logMessage]
    rw [filterMap_drop_append, LogCall.record, ho, Option.map_some,
      or_iff_right (Option.some_ne_none _)]
    apply and_congr_right
    intro _
    omega

theorem FeedOk.noneBeyond_step (h : FeedOk k b s) (t : FeedThread) :
    (s.step (2^k) clock t).NoneBeyond ↔ s.NoneBeyond ∧ s.RoomInLog t := by
  cases t with
  | consumer =>
    rw [Feed.NoneBeyond, Feed.step, (consume_kept (2^k) s).logged]
    exact (and_iff_left trivial).symm
  | parser =>
    rw [Feed.step]
    cases hp : s.parser with
    | loop payload => exact h.noneBeyond_turn hp
    | idle =>
      rw [Feed.parseBlock, Feed.RoomInLog, hp]
      cases s.blocks <;> exact (and_iff_left trivial).symm
    | push newOrder rest =>
      rw [Feed.parseBlock, Feed.RoomInLog, hp]
      exact (and_iff_left trivial).symm
    | inPush rest =>
      rw [Feed.parseBlock, Feed.RoomInLog, hp]
      dsimp only
      split <;> exact (and_iff_left trivial).symm
    | outOfBounds =>
      rw [Feed.parseBlock, Feed.RoomInLog, hp]
      exact (and_iff_left trivial).symm

end Discipline

/-- In every reached state the orders passed to `push` are covered by frames of the log if and
only if every message the book handles found room in the file. -/
theorem writeAhead_iff_roomInLog (k : Nat) (clock : Nat → BitVec 64)
    (data : Nat → NormalizedOrder) (blocks : List (List Byte)) (b : LimitOrderBook)
    (schedule : List FeedThread) :
    (Feed.run (2^k) clock data blocks b schedule).WriteAhead ↔
      StepRun.Along (Feed.step (2^k) clock) Feed.RoomInLog (.start data blocks b) schedule := by
  have hstart : (Feed.start data blocks b).NoneBeyond := rfl
  rw [(FeedOk.run k clock data blocks b schedule).writeAhead_iff, Feed.run,
    StepRun.foldl_iff_along (FeedOk.start k data blocks b) (fun _ t h => h.step t)
      fun _ t h => h.noneBeyond_step t]
  exact and_iff_right hstart

/-- The book thread can be given any number of orders, the log holds two to the 24 frames. -/
theorem exists_run_past_log (n : Nat) : ∃ schedule,
    let s := Feed.run (2^12) (fun _ => 0#64) (fun _ => .cancelOrder ⟨0, 0, 0, 0, 0⟩)
      ([cancels n].map Block.bytes) (.new 1) schedule
    s.channel.popped.length = n ∧ s.log.orderFrames.length ≤ 2^24 ∧
      (s.WriteAhead → n ≤ s.log.orderFrames.length) := by
  obtain ⟨schedule, hidle, hblocks, hall, hempty⟩ := exists_run_without_loss (k := 12) (by decide)
    (fun _ => 0#64) (fun _ => .cancelOrder ⟨0, 0, 0, 0, 0⟩) [cancels n] (.new 1)
    (cancels_cancelsOnly n)
  have hok := FeedOk.run 12 (fun _ => 0#64) (fun _ => .cancelOrder ⟨0, 0, 0, 0, 0⟩)
    ([cancels n].map Block.bytes) (.new 1) schedule
  obtain ⟨cur, rest, hin⟩ := InStep.run (2^12) (fun _ => 0#64)
    (fun _ => .cancelOrder ⟨0, 0, 0, 0, 0⟩) [cancels n] (.new 1) schedule
  have hlogged := hin.finished hidle hblocks
  have horders := cancels_orders n
  rw [← hlogged, ← reduceOption_map_eq, ← hin.orders, reduceOption_map_eq] at horders
  refine ⟨schedule, ?_, ?_, ?_⟩
  · rw [hok.popped_all hall hidle hempty, horders, List.length_replicate]
  · rw [hok.orderFrames]
    exact (List.length_filterMap_le _ _).trans (List.length_take_le _ _)
  · intro hw
    have hlen := congrArg List.length hw.decoded
    rw [List.length_map, List.length_map, hok.handed, horders, List.length_replicate] at hlen
    exact hlen.le.trans hw.stored.length_le

/-- One order more than the file has frames: the book thread pops all of them, and the log
does not have them all. -/
theorem full_log_misses_order : ∃ schedule,
    let s := Feed.run (2^12) (fun _ => 0#64) (fun _ => .cancelOrder ⟨0, 0, 0, 0, 0⟩)
      ([cancels (2^24 + 1)].map Block.bytes) (.new 1) schedule
    s.channel.popped.length = 2^24 + 1 ∧ s.log.orderFrames.length ≤ 2^24 ∧ ¬ s.WriteAhead := by
  obtain ⟨schedule, hpopped, hframes, hw⟩ := exists_run_past_log (2^24 + 1)
  refine ⟨schedule, hpopped, hframes, ?_⟩
  intro h
  have hle := hw h
  omega

end MarketDataBook
