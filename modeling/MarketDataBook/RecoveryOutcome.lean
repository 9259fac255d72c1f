import MarketDataBook.BlockFraming
import MarketDataBook.BookCalls
import MarketDataBook.RecoveredBook

/-! How recovery ends. A log is replayed to its end unless an execution in it asks for more
shares than are resting, and a damaged frame is reported only if its marker was spared. -/
namespace MarketDataBook
open ByteMemory LimitOrderBook

/-- An execution asks for no more shares than the order it names has left. -/
def Covers (b : LimitOrderBook) : BookCall → Prop
  | .execute order => ∀ v, b.orders.get order.orderReferenceNumber = some v →
      order.shares ≤ (b.pool (v &&& indexMask)).shares
  | _ => True

section Replay
variable {maxOrders : Nat} {b : LimitOrderBook} {free : List (BitVec 32)}
  {live : List (Side × BitVec 32)}

theorem LimitOrderBook.Layout.step_returned_iff (h : Layout maxOrders b free live)
    (hn : maxOrders ≤ orderMapSize) (c : BookCall) :
    (b.step c).2 = .returned ↔ Covers b c := by
  cases c with
  | add order => exact iff_of_true (addOrder_returned h hn order) trivial
  | cancel id => exact iff_of_true rfl trivial
  | execute order =>
    rw [LimitOrderBook.step, Covers]
    cases hg : b.orders.get order.orderReferenceNumber with
    | none =>
      rw [executeOrder_absent hg]
      refine iff_of_true rfl ?_
      intro v hv
      cases hv
    | some v =>
      rw [executeOrder_present hg]
      split_ifs with hlt heq
      · refine iff_of_false (by simp [overExecution]) fun hall => ?_
        exact absurd hlt (BitVec.not_lt.mpr (hall v rfl))
      · refine iff_of_true rfl ?_
        rintro w ⟨⟩
        exact BitVec.not_lt.mp hlt
      · refine iff_of_true rfl ?_
        rintro w ⟨⟩
        exact BitVec.not_lt.mp hlt

/-- A replay goes to the end exactly when all its executions are covered. -/
theorem replay_returned_iff (h : Layout maxOrders b free live) (hn : maxOrders ≤ orderMapSize)
    (os : List (Option NormalizedOrder)) :
    (replay b os).outcome = .returned ↔
      StepRun.Along LimitOrderBook.after Covers b (os.reduceOption.map dispatchTable) := by
  induction os generalizing b free live with
  | nil => exact iff_of_true rfl trivial
  | cons o os ih =>
    cases o with
    | none =>
      rw [List.reduceOption_cons_of_none]
      exact ih h
    | some o =>
      have hstep := h.step_returned_iff hn (dispatchTable o)
      obtain ⟨free', live', h'⟩ := h.step hn (dispatchTable o)
      rw [List.reduceOption_cons_of_some, List.map_cons, StepRun.Along, ← hstep,
        LimitOrderBook.after]
      cases hs : b.step (dispatchTable o) with
      | mk b' out =>
        rw [hs] at h'
        cases out with
        | returned =>
          rw [replay_some_returned hs]
          exact (ih h').trans ⟨fun hc => ⟨rfl, hc⟩, And.right⟩
        | raised what =>
          rw [replay_some_raised hs]
          exact iff_of_false (by simp) fun hc => Outcome.noConfusion hc.1

end Replay

theorem orderLength_messageTag {m : List Byte} {len : Nat}
    (h : orderLength (messageTag m) = some len) : m.head? = some (messageTag m) := by
  rw [messageTag] at h ⊢
  cases hm : m.head? with
  | none =>
    rw [hm] at h
    cases h
  | some t =>
    rw [hm] at h
    dsimp only at h ⊢
    split_ifs at h ⊢
    · rfl
    · cases h

theorem LogCall.OfMessage.wellTagged {c : LogCall} (h : c.OfMessage) : c.WellTagged := by
  refine ⟨h.1.length_le, ?_⟩
  intro len ho
  obtain ⟨t, hm, hl⟩ := h.1
  have htag := h.2
  rw [htag] at ho
  have hhead := orderLength_messageTag ho
  rw [hm, Option.some.injEq] at hhead
  rw [← hhead] at ho
  rw [messageLength_of_orderLength ho, Option.some.injEq] at hl
  exact hl.symm

/-- Recovery of an intact log returns with every frame processed exactly when no execution in
the log asks for more shares than the book, at that point of the replay, has for its order. -/
theorem recovery_completes_iff (calls : List LogCall) (hcalls : ∀ c ∈ calls, c.OfMessage)
    (hroom : calls.length < 2^24) (maxOrders : Nat) (h1 : 1 ≤ maxOrders)
    (hn : maxOrders ≤ 2^22) :
    ((runRecovery (.new maxOrders) (calls.foldl logPayload .new).logger.mem fileSize).ending =
          .completed ∧
        (runRecovery (.new maxOrders) (calls.foldl logPayload .new).logger.mem
          fileSize).report.recordsProcessed = calls.length) ↔
      StepRun.Along LimitOrderBook.after Covers (.new maxOrders)
        ((calls.filterMap LogCall.order).map dispatchTable) := by
  have hmap : maxOrders ≤ orderMapSize := hn.trans (by decide)
  have hlayout := Layout.new h1 (hmap.trans (by decide))
  have hf := logAll_recovery (fun c hc => (hcalls c hc).wellTagged) hroom (.new maxOrders)
  rw [← reduceOption_map_eq, ← replay_returned_iff hlayout hmap, hf.ending, hf.records]
  constructor
  · rintro ⟨hend, -⟩
    cases hr : (replay (.new maxOrders) (calls.map LogCall.order)).outcome with
    | returned => rfl
    | raised what =>
      rw [hr] at hend
      cases hend
  · intro hr
    rw [hr, replay_done hr, List.length_map]
    exact ⟨rfl, Nat.zero_add _⟩

/-- An add, a system event and a cancel are replayed to the end. -/
theorem recovery_completes_addCancel :
    (runRecovery (.new 1) ((blockCalls (fun _ => 0#64) addCancelBlock.messages).foldl
        logPayload .new).logger.mem fileSize).ending = .completed ∧
      (runRecovery (.new 1) ((blockCalls (fun _ => 0#64) addCancelBlock.messages).foldl
        logPayload .new).logger.mem fileSize).report.recordsProcessed = 3 := by
  refine (recovery_completes_iff (blockCalls (fun _ => 0#64) addCancelBlock.messages)
    (blockCalls_ofMessage addCancelBlock.complete _) (by decide) 1 (by decide) (by decide)).mpr ?_
  rw [← reduceOption_map_eq, ← replay_returned_iff (.new (by decide) (by decide)) (by decide)]
  decide +kernel

def overExecutedBlock : Block where
  messages := [
    65#8 :: List.replicate 18 0#8 ++ [66#8, 0#8, 0#8, 0#8, 1#8] ++ List.replicate 12 0#8,
    69#8 :: List.replicate 18 0#8 ++ [0#8, 0#8, 0#8, 2#8] ++ List.replicate 8 0#8,
    83#8 :: List.replicate 11 0#8]
  tail := []
  complete := by
    intro m hm
    simp only [List.mem_cons, List.not_mem_nil, or_false] at hm
    obtain rfl | rfl | rfl := hm
    · exact ⟨65#8, rfl, by decide⟩
    · exact ⟨69#8, rfl, by decide⟩
    · exact ⟨83#8, rfl, by decide⟩
  truncated := truncated_nil

/-- The parser logs all three messages and recovery never gets past the first. -/
theorem overExecuted_unrecoverable :
    ∃ fuel p', parseBlock 4096 fuel (fun _ => 0#64)
        ⟨.new fun _ => .cancelOrder ⟨0, 0, 0, 0, 0⟩, .new⟩ overExecutedBlock.bytes =
          .returned p' ∧
      p'.log.frames = 3 ∧
      (runRecovery (.new 1) p'.log.logger.mem fileSize).report.recordsProcessed = 1 ∧
      (runRecovery (.new 1) p'.log.logger.mem fileSize).ending = .raised
        "LimitOrderBook::execute_order(): Current order has less shares than required from execute order" := by
  have hlog := ItchParser.handleAll_log 4096 (fun _ => 0#64)
    ⟨.new fun _ => .cancelOrder ⟨0, 0, 0, 0, 0⟩, .new⟩ overExecutedBlock.messages
  have hof := blockCalls_ofMessage overExecutedBlock.complete (fun _ => 0#64)
  have hf := logAll_recovery (fun c hc => (hof c hc).wellTagged) (by decide) (.new 1)
  have hframes := (written_logAll (blockCalls (fun _ => 0#64) overExecutedBlock.messages)).length_eq
  rw [← hlog] at hf hframes
  refine ⟨_, _, parseBlock_messages overExecutedBlock.complete overExecutedBlock.truncated 4096
    (fun _ => 0#64) _, ?_, ?_, ?_⟩
  · rw [← hframes]
    decide
  · rw [hf.records]
    decide +kernel
  · rw [hf.ending]
    decide +kernel

/-- The marker byte of a frame survives an error pattern that spares its bits. -/
theorem marker_kept_iff {file m : Memory} {k : Nat} {e : Nat → Bool}
    (hm : m (frameSize * k) = validFrameMarker)
    (hframe : ∀ i < 512, bit (frameAt file k) i = xor (bit (frameAt m k) i) (e i)) :
    file (frameSize * k) = validFrameMarker ↔ ∀ i < 8, e i = false := by
  have hbits : ∀ i < 8, (file (frameSize * k)).getLsbD i =
      xor ((m (frameSize * k)).getLsbD i) (e i) := by
    intro i hi
    have hbit := hframe i (by omega)
    rw [bit, bit, Nat.div_eq_of_lt hi, Nat.mod_eq_of_lt hi] at hbit
    exact hbit
  constructor
  · intro hkept i hi
    have hbit := hbits i hi
    rw [hkept, hm] at hbit
    cases he : e i with
    | false => rfl
    | true => simp [he] at hbit
  · intro hnone
    apply BitVec.eq_of_getLsbD_eq
    intro i hi
    rw [hbits i hi, hnone i hi, hm, Bool.xor_false]

/-- Damage of at most 32 bits in frame `k` is reported exactly when it spares the marker. -/
theorem recovery_torn_iff (calls : List LogCall) (k : Nat)
    (hk : k < (calls.foldl logPayload .new).frames) (start : Nat) (e : Nat → Bool)
    (hburst : ∀ i, e i = true → start ≤ i ∧ i < start + 32) (hne : ∃ i < 512, e i = true)
    (file : Memory)
    (hbefore : ∀ a < frameSize * k, file a = (calls.foldl logPayload .new).logger.mem a)
    (hframe : ∀ i < 512, bit (frameAt file k) i =
      xor (bit (frameAt (calls.foldl logPayload .new).logger.mem k) i) (e i))
    (b : LimitOrderBook)
    (hr : (replay b ((List.range k).map fun j =>
      frameOrder (frameAt (calls.foldl logPayload .new).logger.mem j))).outcome = .returned) :
    (runRecovery b file fileSize).report.tornWriteDetected = true ↔ ∀ i < 8, e i = false := by
  have hw := written_logAll calls
  have hlen := hw.length_eq
  obtain ⟨hsize, hstop⟩ := hw.burst_not_valid (by omega) hburst hne hframe
  obtain ⟨-, hvalid, horders⟩ := hw.frames_before (k := k) (by omega) hbefore
  rw [← horders] at hr
  rw [runRecovery_torn hsize hvalid hstop hr, decide_eq_true_iff]
  exact marker_kept_iff (hw.validFrame (by omega)).1 hframe

theorem recovery_torn_damagedLog :
    (runRecovery (.new 1) damagedLog fileSize).report.tornWriteDetected = true := by
  refine (recovery_torn_iff orderAndCancel 1 (by decide +kernel) 472 _ damagedLog_burst
    ⟨472, by decide, by decide⟩ damagedLog damagedLog_before
    (fun i _ => bit_frameAt_flipBits _ _ 1 i) (.new 1) (by decide +kernel)).mpr ?_
  decide

def flippedLog : Memory := flipBits (orderAndCancel.foldl logPayload .new).logger.mem {512}

/-- The cancellation is gone, its order rests in the book, and the report is clean. -/
theorem flipped_marker_unreported :
    (∀ a < frameSize, flippedLog a = (orderAndCancel.foldl logPayload .new).logger.mem a) ∧
    (∀ i < 512, bit (frameAt flippedLog 1) i =
      xor (bit (frameAt (orderAndCancel.foldl logPayload .new).logger.mem 1) i)
        (decide (i = 0))) ∧
    (runRecovery (.new 1) flippedLog fileSize).book.getBestBid = 7 ∧
    (runRecovery (.new 1) flippedLog fileSize).ending = .completed ∧
    (runRecovery (.new 1) flippedLog fileSize).report.recordsProcessed = 1 ∧
    (runRecovery (.new 1) flippedLog fileSize).report.tornWriteDetected = false := by
  have hvalid : ∀ j < 1, ValidFrame flippedLog j := by
    intro j hj
    obtain rfl : j = 0 := by omega
    exact ⟨by decide +kernel, by decide +kernel⟩
  have hmark : flippedLog (frameSize * 1) ≠ validFrameMarker := by decide +kernel
  have hstop : ¬ ValidFrame flippedLog 1 := fun hv => hmark hv.1
  have hsize : frameSize * (1 + 1) ≤ fileSize := by decide
  have hf := runRecovery_follows hsize hvalid hstop (.new 1)
  refine ⟨fun a ha => flipBits_of_lt (by decide) ha, ?_, ?_, ?_, ?_, ?_⟩
  · intro i _
    rw [flippedLog, bit_frameAt_flipBits]
    congr 1
    simp
  · rw [hf.book]
    decide +kernel
  · rw [hf.ending]
    decide +kernel
  · rw [hf.records]
    decide +kernel
  · rw [runRecovery_torn hsize hvalid hstop (by decide +kernel), decide_eq_false hmark]

end MarketDataBook
