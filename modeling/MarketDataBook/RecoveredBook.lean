import MarketDataBook.FeedProgress
import Mathlib.Data.List.ReduceOption

/-! Recovery against the live book. What a frame holds is the order of the message it was
written for, the memory behind the last frame stops the scan, and a replay of the frames goes
as the book thread went on the orders it popped. -/
namespace MarketDataBook
open ByteMemory

/-- A message of a type the book handles fits the payload field. -/
theorem FrameOf.take_framePayload {frame : Memory} {seq len : Nat} {c : LogCall}
    (h : FrameOf frame seq c) (ht : c.WellTagged) (ho : orderLength c.msgType = some len) :
    (framePayload frame).take len = c.payload := by
  have hlen := ht.2 len ho
  have h44 : len ≤ 44 := by
    obtain ⟨_, rfl⟩ | ⟨_, rfl⟩ | ⟨_, rfl⟩ := orderLength_eq_some ho <;> decide
  apply List.ext_getElem?
  intro i
  obtain hi | hi := Nat.lt_or_ge i len
  · have hc := List.getElem?_eq_getElem (hlen ▸ hi)
    rw [List.getElem?_take_of_lt hi, framePayload, getElem?_slice (by omega), hc,
      h.payload i _ (by omega) hc]
  · rw [List.getElem?_eq_none (by rw [List.length_take]; omega),
      List.getElem?_eq_none (by omega)]

/-- A frame is decoded as the message was. A message too long for the payload field is of a
type the book does not handle. -/
theorem FrameOf.frameOrder {frame : Memory} {seq : Nat} {c : LogCall} (h : FrameOf frame seq c)
    (ht : c.WellTagged) : frameOrder frame = c.order := by
  rw [MarketDataBook.frameOrder, LogCall.order, h.msgType]
  cases ho : orderLength c.msgType with
  | none => rw [decode_join_unsupported ho, decode_join_unsupported ho]
  | some len =>
    rw [← List.take_append_drop len (framePayload frame), h.take_framePayload ht ho,
      decode_append _ ho (ht.2 len ho).ge]

/-- A function of the frames is a function of the calls they were written for. -/
theorem Written.map_frames {l : PayloadLog} {calls : List LogCall} {β : Type*}
    (h : Written l calls) {f : Nat → β} {g : LogCall → β}
    (hfg : ∀ k c, calls[k]? = some c → f k = g c) :
    (List.range l.frames).map f = calls.map g := by
  rw [← h.length_eq]
  apply List.ext_getElem?
  intro k
  obtain hk | hk := Nat.lt_or_ge k calls.length
  · have hc := List.getElem?_eq_getElem hk
    rw [List.getElem?_map, List.getElem?_map, List.getElem?_range hk, hc, Option.map_some,
      Option.map_some, hfg k _ hc]
  · rw [List.getElem?_eq_none (by simpa using hk), List.getElem?_eq_none (by simpa using hk)]

theorem Written.frameOrders {l : PayloadLog} {calls : List LogCall} (h : Written l calls)
    (ht : ∀ c ∈ calls, c.WellTagged) :
    ((List.range l.frames).map fun j => frameOrder (frameAt l.logger.mem j)) =
      calls.map LogCall.order :=
  h.map_frames fun k c hc => (h.frames k c hc).frameOrder (ht c (List.mem_of_getElem? hc))

/-- Two stray bytes do not make a frame. -/
theorem not_validFrame {m : Memory} {n : Nat} (h : ∀ a, frameSize * n + 2 ≤ a → m a = 0#8) :
    ¬ ValidFrame m n := by
  rintro ⟨hm, hv⟩
  have hzero : validChecksum (fun _ => 0#8) = true := by decide +kernel
  have hbits : ∀ i < 512, bit (frameAt m n) i =
      xor (bit (fun _ => 0#8) i) (decide (i < 16) && bit (frameAt m n) i) := by
    intro i _
    by_cases hi : i < 16
    · simp [bit, hi]
    · have hb : frameAt m n (i / 8) = 0#8 := h _ (by omega)
      simp [bit, hi, hb]
  have hburst : ∀ i, (decide (i < 16) && bit (frameAt m n) i) = true → 0 ≤ i ∧ i < 0 + 32 := by
    intro i he
    rw [Bool.and_eq_true, decide_eq_true_iff] at he
    omega
  have hmark : (decide (1 < 16) && bit (frameAt m n) 1) = true := by
    have hb : frameAt m n 0 = validFrameMarker := hm
    simp [bit, hb, validFrameMarker]
  rw [burst_detected hzero hbits hburst ⟨1, by decide, hmark⟩] at hv
  cases hv

/-- Messages without an order do not change what a replay does to the book. -/
theorem replay_orders (b : LimitOrderBook) (os : List (Option NormalizedOrder)) :
    (replay b (os.reduceOption.map some)).book = (replay b os).book ∧
      (replay b (os.reduceOption.map some)).outcome = (replay b os).outcome ∧
      (replay b (os.reduceOption.map some)).done =
        ((os.take (replay b os).done).reduceOption).length := by
  induction os generalizing b with
  | nil => exact ⟨rfl, rfl, rfl⟩
  | cons o os ih =>
    cases o with
    | none =>
      rw [List.reduceOption_cons_of_none]
      exact ih b
    | some o =>
      rw [List.reduceOption_cons_of_some, List.map_cons]
      cases hs : b.step (dispatchTable o) with
      | mk b' out =>
        cases out with
        | returned =>
          obtain ⟨hb, ho, hd⟩ := ih b'
          rw [replay_some_returned hs, replay_some_returned hs]
          refine ⟨hb, ho, ?_⟩
          rw [List.take_succ_cons, List.reduceOption_cons_of_some, List.length_cons, ← hd]
        | raised what =>
          rw [replay_some_raised hs, replay_some_raised hs]
          exact ⟨rfl, rfl, rfl⟩

/-- A replay that raises does so at an order. -/
theorem replay_raised_order {b : LimitOrderBook} {os : List (Option NormalizedOrder)}
    {what : String} (h : (replay b os).outcome = .raised what) :
    ∃ o, os[(replay b os).done]? = some (some o) := by
  induction os generalizing b with
  | nil => cases h
  | cons o os ih =>
    cases o with
    | none => exact ih h
    | some o =>
      cases hs : b.step (dispatchTable o) with
      | mk b' out =>
        cases out with
        | returned =>
          rw [replay_some_returned hs] at h ⊢
          exact ih h
        | raised w =>
          rw [replay_some_raised hs]
          exact ⟨o, rfl⟩

/-- The messages up to the one that raises are, as orders, the ones applied and the one that
raised. -/
theorem replay_raised_at {b b' : LimitOrderBook} {os : List (Option NormalizedOrder)}
    {done after : List NormalizedOrder} {order : NormalizedOrder} {what : String}
    (hos : os.reduceOption = done ++ [order] ++ after)
    (h : replay b ((done ++ [order]).map some) = ⟨b', done.length, .raised what⟩) :
    (replay b os).book = b' ∧ (replay b os).outcome = .raised what ∧
      os[(replay b os).done]? = some (some order) ∧
      (os.take (replay b os).done).reduceOption = done := by
  obtain ⟨hb, ho, hd⟩ := replay_orders b os
  have hall : replay b (os.reduceOption.map some) = ⟨b', done.length, .raised what⟩ := by
    rw [hos, List.map_append, replay_append_raised (by rw [h]), h]
  rw [hall] at hb ho hd
  obtain ⟨o, hat⟩ := replay_raised_order ho.symm
  have hsplit : (os.take (replay b os).done).reduceOption ++ o ::
      (os.drop ((replay b os).done + 1)).reduceOption = done ++ order :: after := by
    obtain ⟨hlt, he⟩ := List.getElem?_eq_some_iff.mp hat
    have hos' : os = os.take (replay b os).done ++ some o :: os.drop ((replay b os).done + 1) := by
      rw [← he, List.getElem_cons_drop, List.take_append_drop]
    rw [← List.reduceOption_cons_of_some, ← List.reduceOption_append, ← hos', hos,
      List.append_assoc, List.singleton_append]
  obtain ⟨hdone, hrest⟩ := List.append_inj hsplit hd.symm
  rw [(List.cons.inj hrest).1] at hat
  exact ⟨hb.symm, ho.symm, hat, hdone⟩

theorem Channel.pushed_of_all {α : Type*} {c : Channel α} (h : ∀ p ∈ c.pushes, p.2 = true) :
    c.pushed = c.pushes.map Prod.fst := by
  rw [Channel.pushed, List.filter_eq_self.mpr h]

theorem reduceOption_map_eq {α β : Type*} (f : α → Option β) (l : List α) :
    (l.map f).reduceOption = l.filterMap f := by
  rw [List.reduceOption, List.filterMap_map, Function.id_comp]

/-- Recovery goes as a replay of the logged calls. -/
theorem logAll_recovery {calls : List LogCall} (ht : ∀ c ∈ calls, c.WellTagged)
    (hroom : calls.length < 2^24) (b : LimitOrderBook) :
    Follows (calls.foldl logPayload .new).logger.mem 0 .new (replay b (calls.map LogCall.order))
      (runRecovery b (calls.foldl logPayload .new).logger.mem fileSize) := by
  have hw := written_logAll_of_le hroom.le
  have hlen := hw.length_eq
  have hsize : frameSize * (calls.length + 1) ≤ fileSize := by
    rw [frameSize, fileSize]
    omega
  have hstop : ¬ ValidFrame (calls.foldl logPayload .new).logger.mem calls.length := by
    apply not_validFrame
    rw [← hw.curr]
    exact logAll_untouched fun c hc => (ht c hc).1
  rw [← hw.frameOrders ht, ← hlen]
  exact hw.recovery (Nat.le_refl _) hsize (fun _ _ => rfl) hstop b

section Recovery
variable {k : Nat} {b : LimitOrderBook} {s : Feed}

theorem FeedOk.written (h : FeedOk k b s) (hroom : s.log.frames < 2^24) :
    Written s.log s.logged := by
  have hw := written_logAll s.logged
  rw [← h.log] at hw
  have hlen := hw.length_eq
  rw [List.length_take] at hlen
  rw [List.take_of_length_le (by omega)] at hw
  exact hw

theorem FeedOk.recovery (h : FeedOk k b s) (hroom : s.log.frames < 2^24) :
    Follows s.log.logger.mem 0 .new (replay b (s.logged.map LogCall.order))
      (runRecovery b s.log.logger.mem fileSize) := by
  have hlen := (h.written hroom).length_eq
  rw [h.log]
  exact logAll_recovery h.tagged (by omega) b

theorem FeedOk.popped_initial (h : FeedOk k b s) (hpush : ∀ p ∈ s.channel.pushes, p.2 = true) :
    ∃ after, s.logged.filterMap LogCall.order = s.channel.popped ++ after := by
  obtain ⟨unread, hu⟩ := h.fifo.ordered
  rw [Channel.pushed_of_all hpush] at hu
  refine ⟨unread ++ s.channel.pushPc.current ++ s.pending, ?_⟩
  rw [← h.handed, Feed.handed, ← hu]
  simp only [List.append_assoc]

/-- Once every push has succeeded and the queue is empty, the book thread has popped every
order that was logged. -/
theorem FeedOk.popped_all (h : FeedOk k b s) (hpush : ∀ p ∈ s.channel.pushes, p.2 = true)
    (hidle : s.parser = .idle) (hd : s.channel.popped.length = s.channel.pushed.length) :
    s.channel.popped = s.logged.filterMap LogCall.order := by
  have hpc : s.channel.pushPc = .idle := h.pushing (by simp [hidle])
  have hpend : s.pending = [] := by simp [Feed.pending, hidle]
  rw [h.fifo.ordered.eq_of_length hd, Channel.pushed_of_all hpush, ← h.handed, Feed.handed, hpc,
    hpend]
  simp [PushPc.current]

/-- With the queue drained, the replay of the logged calls ends in the live book. -/
theorem FeedOk.replay_drained (h : FeedOk k b s) (hpush : ∀ p ∈ s.channel.pushes, p.2 = true)
    (hidle : s.parser = .idle) (hd : s.channel.popped.length = s.channel.pushed.length)
    (hpop : s.consumer = .pop) :
    replay b (s.logged.map LogCall.order) = ⟨s.book, s.logged.length, .returned⟩ := by
  have hlive := h.consumer
  rw [hpop, ConsumerOk, h.popped_all hpush hidle hd, ← reduceOption_map_eq] at hlive
  obtain ⟨hb, ho, _⟩ := replay_orders b (s.logged.map LogCall.order)
  rw [hlive] at hb ho
  have hdone := replay_done ho.symm
  rw [List.length_map] at hdone
  calc
    replay b (s.logged.map LogCall.order) = ⟨(replay b (s.logged.map LogCall.order)).book,
      (replay b (s.logged.map LogCall.order)).done,
      (replay b (s.logged.map LogCall.order)).outcome⟩ := rfl
    _ = ⟨s.book, s.logged.length, .returned⟩ := by rw [← hb, ← ho, hdone]

/-- After an exception in the book thread, the replay of the logged calls raises it at the
message of the order that raised it. -/
theorem FeedOk.replay_raised (h : FeedOk k b s) (hpush : ∀ p ∈ s.channel.pushes, p.2 = true)
    {what : String} (hterm : s.consumer = .terminated what) :
    ∃ done order, s.channel.popped = done ++ [order] ∧
      (replay b (s.logged.map LogCall.order)).book = s.book ∧
      (replay b (s.logged.map LogCall.order)).outcome = .raised what ∧
      (s.logged.map LogCall.order)[(replay b (s.logged.map LogCall.order)).done]? =
        some (some order) ∧
      ((s.logged.map LogCall.order).take
        (replay b (s.logged.map LogCall.order)).done).reduceOption = done := by
  have hlive := h.consumer
  rw [hterm] at hlive
  obtain ⟨done, order, hp, hr⟩ := hlive
  obtain ⟨after, ha⟩ := h.popped_initial hpush
  rw [← reduceOption_map_eq, hp] at ha
  rw [hp] at hr
  exact ⟨done, order, hp, replay_raised_at ha hr⟩

end Recovery

/-- The feed thread has gone through its blocks, the queue is empty and the book thread has
finished with the last order. -/
def Feed.Drained (s : Feed) : Prop :=
  s.parser = .idle ∧ s.blocks = [] ∧ s.channel.popped.length = s.channel.pushed.length ∧
    s.consumer = .pop

/-- Recovery agrees with the live run: once the queue is drained it has rebuilt the book from
all the messages, and where the book thread was ended by an exception it raises the same at
the same message. -/
structure AgreesWithLive (messages : List (List Byte)) (s : Feed) (r : Recovery) : Prop where
  drained : s.Drained → r.book = s.book ∧ r.ending = .completed ∧
    r.report.recordsProcessed = messages.length ∧
    (0 < messages.length → r.report.lastValidSeq = BitVec.ofNat 32 (messages.length - 1))
  raised : ∀ what, s.consumer = .terminated what → r.book = s.book ∧ r.ending = .raised what ∧
    (messages.take r.report.recordsProcessed).filterMap messageOrder = s.channel.popped.dropLast ∧
    messages[r.report.recordsProcessed]?.bind messageOrder = s.channel.popped.getLast?

/-- Whatever the interleaving: if no push failed and the log had room, recovery into a fresh
book agrees with the live run. -/
theorem recovery_agreesWithLive (k : Nat) (clock : Nat → BitVec 64)
    (data : Nat → NormalizedOrder) (blocks : List Block) (maxOrders : Nat)
    (schedule : List FeedThread) {s : Feed}
    (hs : s = Feed.run (2^k) clock data (blocks.map Block.bytes) (.new maxOrders) schedule)
    (hpush : ∀ p ∈ s.channel.pushes, p.2 = true) (hroom : s.log.frames < 2^24) :
    AgreesWithLive (blocks.flatMap Block.messages) s
      (runRecovery (.new maxOrders) s.log.logger.mem fileSize) := by
  have hok := FeedOk.run k clock data (blocks.map Block.bytes) (.new maxOrders) schedule
  obtain ⟨cur, rest, hin⟩ := InStep.run (2^k) clock data blocks (.new maxOrders) schedule
  rw [← hs] at hok hin
  have hf := hok.recovery hroom
  refine ⟨?_, ?_⟩
  · rintro ⟨hidle, hblocks, hd, hpop⟩
    have hr := hok.replay_drained hpush hidle hd hpop
    rw [hr] at hf
    rw [← hin.finished hidle hblocks, List.length_map]
    exact ⟨hf.book, (hok.written hroom).recovery_completed (Nat.le_refl _) hf rfl rfl⟩
  · intro what hterm
    obtain ⟨done, order, hp, hb, ho, hat, hdone⟩ := hok.replay_raised hpush hterm
    have hrecords := hf.records.trans (Nat.zero_add _)
    have hending := hf.ending
    rw [ho] at hending
    rw [← hrecords, hin.orders] at hat hdone
    have hlt := (List.getElem?_eq_some_iff.mp hat).1
    rw [List.length_map] at hlt
    rw [← hin.messages, hp, List.append_assoc]
    refine ⟨hf.book.trans hb, hending, ?_, ?_⟩
    · rw [List.take_append_of_le_length hlt.le, List.dropLast_concat, ← hdone,
        ← reduceOption_map_eq, List.map_take]
    · rw [List.getElem?_append_left hlt, List.getLast?_concat]
      rw [List.getElem?_map] at hat
      obtain ⟨m, hm, hmo⟩ := Option.map_eq_some_iff.mp hat
      rw [hm]
      exact hmo

def addCancelFeed : Feed :=
  Feed.run (2^2) (fun _ => 0#64) (fun _ => .addOrder (.plain 66#8 1#64 5#32 3#32))
    ([addCancelBlock].map Block.bytes) (.new 1)
    (List.replicate 12 .parser ++ List.replicate 10 .consumer)

theorem addCancelFeed_agreesWithLive :
    addCancelFeed.Drained ∧ addCancelFeed.channel.popped.length = 2 ∧
      AgreesWithLive ([addCancelBlock].flatMap Block.messages) addCancelFeed
        (runRecovery (.new 1) addCancelFeed.log.logger.mem fileSize) :=
  ⟨⟨rfl, rfl, by decide +kernel, rfl⟩, by decide +kernel,
    recovery_agreesWithLive 2 _ _ [addCancelBlock] 1 _ rfl (by decide +kernel) (by decide +kernel)⟩

end MarketDataBook
