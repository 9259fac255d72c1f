import MarketDataBook.ItchMessages
import MarketDataBook.LimitOrderBook
import MarketDataBook.WriteAheadLog

/-! `recovery/RecoveryEngine.{h,cpp}`: the loop of `run_recovery` over a mapped file of
`stSize` bytes. A read past the file ends the loop in `outOfFile`, so that nothing is assumed
about what such a read returns. -/
namespace MarketDataBook
open ByteMemory

structure RecoveryReport where
  recordsProcessed : Nat
  lastValidSeq : BitVec 32
  tornWriteDetected : Bool
  deriving DecidableEq

def RecoveryReport.new : RecoveryReport := ⟨0, 0#32, false⟩

inductive RecoveryEnd where
  | completed
  | raised (what : String)
  | outOfFile
  deriving DecidableEq

structure Recovery where
  book : LimitOrderBook
  report : RecoveryReport
  ending : RecoveryEnd

def framePayload (frame : Memory) : List Byte := slice frame 16 44

def replayFrame (b : LimitOrderBook) (frame : Memory) : Option (LimitOrderBook × Outcome) :=
  (decode (frame 1) (framePayload frame)).map fun
    | none => (b, .returned)
    | some order => b.step (dispatchTable order)

def recoverFrom (file : Memory) (stSize : Nat) :
    (fuel i : Nat) → LimitOrderBook → RecoveryReport → Recovery
  | 0, _, b, report => ⟨b, report, .outOfFile⟩
  | fuel+1, i, b, report =>
    if stSize ≤ frameSize * i then ⟨b, report, .outOfFile⟩
    else if file (frameSize * i) ≠ validFrameMarker then ⟨b, report, .completed⟩
    else if stSize < frameSize * (i+1) then ⟨b, report, .outOfFile⟩
    else
      let frame := frameAt file i
      if calculateCrc32 frame ≠ load frame 60 4 then
        ⟨b, { report with tornWriteDetected := true }, .completed⟩
      else
        match replayFrame b frame with
        | none => ⟨b, report, .outOfFile⟩
        | some (b, .raised what) => ⟨b, report, .raised what⟩
        | some (b, .returned) =>
          recoverFrom file stSize fuel (i+1) b
            { report with recordsProcessed := report.recordsProcessed + 1
                          lastValidSeq := load frame 4 4 }

/-- Every turn of the loop moves one frame on, so the fuel outlasts the file. -/
def runRecovery (b : LimitOrderBook) (file : Memory) (stSize : Nat) : Recovery :=
  recoverFrom file stSize (stSize / frameSize + 1) 0 b .new

/-- Orders applied one after the other until one raises; `none` is a message the book does
not handle. `done` counts the messages that were gone through. -/
structure Replay where
  book : LimitOrderBook
  done : Nat
  outcome : Outcome

def replay (b : LimitOrderBook) : List (Option NormalizedOrder) → Replay
  | [] => ⟨b, 0, .returned⟩
  | none::os => let r := replay b os; { r with done := r.done + 1 }
  | some o::os =>
    match b.step (dispatchTable o) with
    | (b, .raised what) => ⟨b, 0, .raised what⟩
    | (b, .returned) => let r := replay b os; { r with done := r.done + 1 }

def frameOrder (frame : Memory) : Option NormalizedOrder :=
  (decode (frame 1) (framePayload frame)).join

theorem replayFrame_eq (b : LimitOrderBook) (frame : Memory) :
    replayFrame b frame = some (match frameOrder frame with
      | none => (b, .returned)
      | some order => b.step (dispatchTable order)) := by
  have hlen : 36 ≤ (framePayload frame).length := by
    rw [framePayload, length_slice]
    decide
  obtain ⟨o, ho⟩ := decode_isSome (frame 1) hlen
  rw [replayFrame, frameOrder, ho]
  rfl

theorem frameOrder_congr {frame frame' : Memory} (h : ∀ i < 64, frame' i = frame i) :
    frameOrder frame' = frameOrder frame := by
  have hp : framePayload frame' = framePayload frame :=
    slice_congr fun i hi => h (16 + i) (by omega)
  rw [frameOrder, frameOrder, hp, h 1 (by decide)]

def ValidFrame (file : Memory) (k : Nat) : Prop :=
  file (frameSize * k) = validFrameMarker ∧ validChecksum (frameAt file k) = true

/-- A frame that is not valid ends the loop, and only one with the right marker is reported. -/
theorem recoverFrom_stop (fuel : Nat) {file : Memory} {stSize i : Nat} (hs : frameSize * (i+1) ≤ stSize)
    (hstop : ¬ ValidFrame file i) (b : LimitOrderBook) (report : RecoveryReport) :
    recoverFrom file stSize (fuel+1) i b report =
      ⟨b, { report with
        tornWriteDetected :=
          (report.tornWriteDetected || decide (file (frameSize * i) = validFrameMarker)) },
        .completed⟩ := by
  have h1 : ¬ stSize ≤ frameSize * i := by
    rw [frameSize] at hs ⊢
    omega
  have h2 : ¬ stSize < frameSize * (i+1) := by omega
  rw [recoverFrom, if_neg h1]
  by_cases hm : file (frameSize * i) = validFrameMarker
  · have hcrc : calculateCrc32 (frameAt file i) ≠ load (frameAt file i) 60 4 := fun he =>
      hstop ⟨hm, decide_eq_true he⟩
    simp only [hm, ne_eq, not_true_eq_false, if_false, h2, if_pos hcrc, decide_true, Bool.or_true]
  · simp only [hm, ne_eq, not_false_eq_true, if_true, decide_false, Bool.or_false]

theorem recoverFrom_valid {file : Memory} {stSize fuel i : Nat} (hs : frameSize * (i+1) ≤ stSize)
    (hv : ValidFrame file i) (b : LimitOrderBook) (report : RecoveryReport) :
    recoverFrom file stSize (fuel+1) i b report =
      match replayFrame b (frameAt file i) with
      | none => ⟨b, report, .outOfFile⟩
      | some (b, .raised what) => ⟨b, report, .raised what⟩
      | some (b, .returned) =>
        recoverFrom file stSize fuel (i+1) b
          { report with recordsProcessed := report.recordsProcessed + 1
                        lastValidSeq := load (frameAt file i) 4 4 } := by
  have h1 : ¬ stSize ≤ frameSize * i := by
    rw [frameSize] at hs ⊢
    omega
  have h2 : ¬ stSize < frameSize * (i+1) := by omega
  have hm : ¬ file (frameSize * i) ≠ validFrameMarker := not_not.mpr hv.1
  have hcrc : ¬ calculateCrc32 (frameAt file i) ≠ load (frameAt file i) 60 4 :=
    not_not.mpr (of_decide_eq_true hv.2)
  rw [recoverFrom, if_neg h1, if_neg hm, if_neg h2]
  simp only [if_neg hcrc]

theorem replay_done {b : LimitOrderBook} {os : List (Option NormalizedOrder)}
    (h : (replay b os).outcome = .returned) : (replay b os).done = os.length := by
  induction os generalizing b with
  | nil => rfl
  | cons o os ih =>
    cases o with
    | none => exact congrArg (· + 1) (ih h)
    | some o =>
      rw [replay] at h ⊢
      cases hs : b.step (dispatchTable o) with
      | mk b' out =>
        rw [hs] at h
        cases out with
        | returned => exact congrArg (· + 1) (ih h)
        | raised what => cases h

theorem replay_some_returned {b b' : LimitOrderBook} {o : NormalizedOrder}
    {os : List (Option NormalizedOrder)} (h : b.step (dispatchTable o) = (b', .returned)) :
    replay b (some o::os) = { replay b' os with done := (replay b' os).done + 1 } := by
  rw [replay, h]

theorem replay_some_raised {b b' : LimitOrderBook} {o : NormalizedOrder} {what : String}
    {os : List (Option NormalizedOrder)} (h : b.step (dispatchTable o) = (b', .raised what)) :
    replay b (some o::os) = ⟨b', 0, .raised what⟩ := by
  rw [replay, h]

theorem replay_append_returned {b : LimitOrderBook} {os : List (Option NormalizedOrder)}
    (h : (replay b os).outcome = .returned) (ps : List (Option NormalizedOrder)) :
    replay b (os ++ ps) = { replay (replay b os).book ps with
      done := os.length + (replay (replay b os).book ps).done } := by
  induction os generalizing b with
  | nil => simp [replay]
  | cons o os ih =>
    cases o with
    | none =>
      rw [List.cons_append, replay, ih h, replay, List.length_cons, Nat.add_right_comm]
    | some o =>
      cases hs : b.step (dispatchTable o) with
      | mk b' out =>
        cases out with
        | returned =>
          rw [replay_some_returned hs] at h ⊢
          rw [List.cons_append, replay_some_returned hs, ih h, List.length_cons,
            Nat.add_right_comm]
        | raised what =>
          rw [replay_some_raised hs] at h
          cases h

theorem replay_append_raised {b : LimitOrderBook} {os : List (Option NormalizedOrder)}
    {what : String} (h : (replay b os).outcome = .raised what)
    (ps : List (Option NormalizedOrder)) : replay b (os ++ ps) = replay b os := by
  induction os generalizing b with
  | nil => cases h
  | cons o os ih =>
    cases o with
    | none => rw [List.cons_append, replay, ih h, replay]
    | some o =>
      cases hs : b.step (dispatchTable o) with
      | mk b' out =>
        cases out with
        | returned =>
          rw [replay_some_returned hs] at h
          rw [List.cons_append, replay_some_returned hs, replay_some_returned hs, ih h]
        | raised what' => rw [List.cons_append, replay_some_raised hs, replay_some_raised hs]

/-- A recovery that started at frame `first` with `report` went as the replay `r`. -/
structure Follows (file : Memory) (first : Nat) (report : RecoveryReport) (r : Replay)
    (rec : Recovery) : Prop where
  book : rec.book = r.book
  records : rec.report.recordsProcessed = report.recordsProcessed + r.done
  seq : rec.report.lastValidSeq = if r.done = 0 then report.lastValidSeq
    else load (frameAt file (first + r.done - 1)) 4 4
  ending : rec.ending = match r.outcome with
    | .returned => .completed
    | .raised what => .raised what

def RecoveryReport.advance (report : RecoveryReport) (file : Memory) (first n : Nat) :
    RecoveryReport :=
  { report with
    recordsProcessed := report.recordsProcessed + n
    lastValidSeq := if n = 0 then report.lastValidSeq
      else load (frameAt file (first + n - 1)) 4 4 }

theorem RecoveryReport.advance_succ (report : RecoveryReport) (file : Memory) (first n : Nat) :
    RecoveryReport.advance
      { report with recordsProcessed := report.recordsProcessed + 1
                    lastValidSeq := load (frameAt file first) 4 4 } file (first+1) n =
      report.advance file first (n+1) := by
  have hrecords : report.recordsProcessed + 1 + n = report.recordsProcessed + (n+1) := by omega
  have hindex : first + (n+1) - 1 = first + n := by omega
  rw [RecoveryReport.advance, RecoveryReport.advance, if_neg (Nat.succ_ne_zero n), hindex]
  dsimp only
  rw [hrecords]
  cases n with
  | zero => rfl
  | succ n =>
    have hlast : first + 1 + (n+1) - 1 = first + (n+1) := by omega
    rw [if_neg (Nat.succ_ne_zero n), hlast]

/-- The loop over `n` valid frames: it replays them, and unless that raises it goes on. -/
theorem recoverFrom_valid_frames {file : Memory} {stSize n i fuel : Nat}
    (hs : frameSize * (i + n) ≤ stSize) (hv : ∀ j, i ≤ j → j < i + n → ValidFrame file j)
    (b : LimitOrderBook) (report : RecoveryReport) :
    recoverFrom file stSize (fuel + n) i b report =
      let r := replay b ((List.range' i n).map fun j => frameOrder (frameAt file j))
      match r.outcome with
      | .returned => recoverFrom file stSize fuel (i + n) r.book (report.advance file i n)
      | .raised what => ⟨r.book, report.advance file i r.done, .raised what⟩ := by
  induction n generalizing i b report with
  | zero => rfl
  | succ n ih =>
    have hi : frameSize * (i + 1) ≤ stSize := (Nat.mul_le_mul_left _ (by omega)).trans hs
    have hassoc : i + 1 + n = i + (n + 1) := by omega
    have hrest := fun b report => ih (i := i+1) (by rw [hassoc]; exact hs)
      (fun j hj hlt => hv j (by omega) (by omega)) b report
    rw [← Nat.add_assoc, recoverFrom_valid hi (hv i (Nat.le_refl i) (by omega)), replayFrame_eq,
      List.range'_succ, List.map_cons]
    cases ho : frameOrder (frameAt file i) with
    | none =>
      simp only [replay, hrest, RecoveryReport.advance_succ, hassoc]
    | some o =>
      dsimp only
      cases hstep : b.step (dispatchTable o) with
      | mk b' out =>
        cases out with
        | returned =>
          simp only [replay_some_returned hstep, hrest, RecoveryReport.advance_succ, hassoc]
        | raised what =>
          simp only [replay_some_raised hstep]
          rfl

/-- `n` valid frames and a frame that is not: the loop replays the valid ones and stops. -/
theorem recoverFrom_follows {file : Memory} {stSize n i fuel : Nat}
    (hs : frameSize * (i + n + 1) ≤ stSize) (hv : ∀ j, i ≤ j → j < i + n → ValidFrame file j)
    (hstop : ¬ ValidFrame file (i + n)) (b : LimitOrderBook)
    (report : RecoveryReport) :
    Follows file i report
      (replay b ((List.range' i n).map fun j => frameOrder (frameAt file j)))
      (recoverFrom file stSize (fuel + 1 + n) i b report) := by
  have hle : frameSize * (i + n) ≤ stSize := (Nat.mul_le_mul_left _ (Nat.le_succ _)).trans hs
  rw [recoverFrom_valid_frames hle hv]
  dsimp only
  cases hr : (replay b ((List.range' i n).map fun j => frameOrder (frameAt file j))).outcome with
  | returned =>
    have hdone := replay_done hr
    rw [List.length_map, List.length_range'] at hdone
    dsimp only
    rw [recoverFrom_stop fuel hs hstop]
    exact ⟨rfl, by rw [hdone]; rfl, by rw [hdone]; rfl, by rw [hr]⟩
  | raised what => exact ⟨rfl, rfl, rfl, by rw [hr]⟩

theorem exists_fuel {stSize n : Nat} (hs : frameSize * (n+1) ≤ stSize) :
    ∃ fuel, stSize / frameSize + 1 = fuel + 1 + n := by
  have hle : n + 1 ≤ stSize / frameSize := by
    rw [Nat.le_div_iff_mul_le (by decide), Nat.mul_comm]
    exact hs
  exact ⟨stSize / frameSize - n, by omega⟩

theorem runRecovery_follows {file : Memory} {stSize n : Nat} (hs : frameSize * (n+1) ≤ stSize)
    (hv : ∀ j < n, ValidFrame file j) (hstop : ¬ ValidFrame file n) (b : LimitOrderBook) :
    Follows file 0 .new (replay b ((List.range n).map fun j => frameOrder (frameAt file j)))
      (runRecovery b file stSize) := by
  obtain ⟨fuel, hf⟩ := exists_fuel hs
  rw [List.range_eq_range', runRecovery, hf]
  apply recoverFrom_follows
  · rw [Nat.zero_add]
    exact hs
  · intro j _ hj
    exact hv j (by omega)
  · rw [Nat.zero_add]
    exact hstop

/-- After a replay that does not raise, the report says torn if the frame the loop stops at
has the right marker. -/
theorem runRecovery_torn {file : Memory} {stSize n : Nat} (hs : frameSize * (n+1) ≤ stSize)
    (hv : ∀ j < n, ValidFrame file j) (hstop : ¬ ValidFrame file n) {b : LimitOrderBook}
    (hr : (replay b ((List.range n).map fun j => frameOrder (frameAt file j))).outcome =
      .returned) :
    (runRecovery b file stSize).report.tornWriteDetected =
      decide (file (frameSize * n) = validFrameMarker) := by
  obtain ⟨fuel, hf⟩ := exists_fuel hs
  have hle : frameSize * (0 + n) ≤ stSize := by
    rw [Nat.zero_add]
    exact (Nat.mul_le_mul_left _ (Nat.le_succ n)).trans hs
  rw [List.range_eq_range'] at hr
  rw [runRecovery, hf, recoverFrom_valid_frames hle (fun j _ hj => hv j (by omega)),
    Nat.zero_add]
  dsimp only
  rw [hr]
  dsimp only
  rw [recoverFrom_stop fuel hs hstop]
  exact Bool.false_or _

theorem ValidFrame.congr {file file' : Memory} {k : Nat} (h : ValidFrame file k)
    (he : ∀ i < 64, frameAt file' k i = frameAt file k i) : ValidFrame file' k :=
  ⟨(he 0 (by decide)).trans h.1, by rw [validChecksum_congr he, h.2]⟩

theorem Written.validFrame {l : PayloadLog} {calls : List LogCall} (h : Written l calls) {k : Nat}
    (hk : k < calls.length) : ValidFrame l.logger.mem k := by
  have hf := h.frames k _ (List.getElem?_eq_getElem hk)
  exact ⟨hf.marker, hf.checksum⟩

def PayloadLog.frames (l : PayloadLog) : Nat := l.logger.curr / frameSize

theorem Written.length_eq {l : PayloadLog} {calls : List LogCall} (h : Written l calls) :
    calls.length = l.frames := by
  rw [PayloadLog.frames, h.curr, Nat.mul_div_cancel_left _ (by decide)]

theorem replay_done_le (b : LimitOrderBook) (os : List (Option NormalizedOrder)) :
    (replay b os).done ≤ os.length := by
  induction os generalizing b with
  | nil => exact Nat.le_refl 0
  | cons o os ih =>
    cases o with
    | none => exact Nat.succ_le_succ (ih b)
    | some o =>
      cases hs : b.step (dispatchTable o) with
      | mk b' out =>
        cases out with
        | returned =>
          rw [replay_some_returned hs]
          exact Nat.succ_le_succ (ih b')
        | raised what =>
          rw [replay_some_raised hs]
          exact Nat.zero_le _

section Recovered
variable {l : PayloadLog} {calls : List LogCall} {file : Memory} {k : Nat}

/-- A file that agrees with the log up to frame `k` has the log's valid frames there. -/
theorem Written.frames_before (hw : Written l calls) (hk : k ≤ calls.length)
    (hbefore : ∀ a < frameSize * k, file a = l.logger.mem a) :
    (∀ j < k, ∀ i < 64, frameAt file j i = frameAt l.logger.mem j i) ∧
      (∀ j < k, ValidFrame file j) ∧
      ((List.range k).map fun j => frameOrder (frameAt file j)) =
        (List.range k).map fun j => frameOrder (frameAt l.logger.mem j) := by
  have hsame : ∀ j < k, ∀ i < 64, frameAt file j i = frameAt l.logger.mem j i := by
    intro j hj i hi
    apply hbefore
    rw [frameSize]
    omega
  refine ⟨hsame, fun j hj => (hw.validFrame (by omega)).congr (hsame j hj), ?_⟩
  apply List.map_congr_left
  intro j hj
  exact frameOrder_congr (hsame j (List.mem_range.mp hj))

/-- With no valid frame at `k`, recovery replays the first `k` frames of the log. -/
theorem Written.recovery (hw : Written l calls) (hk : k ≤ calls.length)
    (hsize : frameSize * (k+1) ≤ fileSize)
    (hbefore : ∀ a < frameSize * k, file a = l.logger.mem a) (hstop : ¬ ValidFrame file k)
    (b : LimitOrderBook) :
    Follows l.logger.mem 0 .new
      (replay b ((List.range k).map fun j => frameOrder (frameAt l.logger.mem j)))
      (runRecovery b file fileSize) := by
  obtain ⟨hsame, hvalid, horders⟩ := hw.frames_before hk hbefore
  have hf := runRecovery_follows hsize hvalid hstop b
  rw [horders] at hf
  refine ⟨hf.book, hf.records, ?_, hf.ending⟩
  have hle := replay_done_le b ((List.range k).map fun j => frameOrder (frameAt l.logger.mem j))
  rw [List.length_map, List.length_range] at hle
  rw [hf.seq]
  split_ifs with hz
  · rfl
  · exact load_congr fun i hi => hsame _ (by omega) (4 + i) (by omega)

/-- A replay of `k` frames that does not raise completes the report. -/
theorem Written.recovery_completed (hw : Written l calls) (hk : k ≤ calls.length) {r : Replay}
    {rec : Recovery} (hf : Follows l.logger.mem 0 .new r rec) (hr : r.outcome = .returned)
    (hdone : r.done = k) :
    rec.ending = .completed ∧ rec.report.recordsProcessed = k ∧
      (0 < k → rec.report.lastValidSeq = BitVec.ofNat 32 (k-1)) := by
  refine ⟨by rw [hf.ending, hr], ?_, ?_⟩
  · rw [hf.records, hdone]
    exact Nat.zero_add k
  · intro hpos
    have hlast := List.getElem?_eq_getElem (l := calls) (i := k-1) (by omega)
    rw [hf.seq, hdone, if_neg hpos.ne', Nat.zero_add]
    exact (hw.frames (k-1) _ hlast).seqNum

/-- A burst of at most 32 bits is never taken for a valid frame. -/
theorem Written.burst_not_valid (hw : Written l calls) (hk : k < calls.length) {start : Nat}
    {e : Nat → Bool} (hburst : ∀ i, e i = true → start ≤ i ∧ i < start + 32)
    (hne : ∃ i < 512, e i = true)
    (hframe : ∀ i < 512, bit (frameAt file k) i = xor (bit (frameAt l.logger.mem k) i) (e i)) :
    frameSize * (k+1) ≤ fileSize ∧ ¬ ValidFrame file k := by
  refine ⟨?_, ?_⟩
  · have hb := hw.bounded
    rw [frameSize, fileSize]
    omega
  · intro hv
    rw [ValidFrame, burst_detected (hw.validFrame hk).2 hframe hburst hne] at hv
    cases hv.2

end Recovered

/-- A burst of at most 32 bits in frame `k`, whatever the bytes behind it become: recovery
replays the frames before it and nothing else. -/
theorem recovery_stops_at_burst (calls : List LogCall) (k : Nat)
    (hk : k < (calls.foldl logPayload .new).frames) (start : Nat) (e : Nat → Bool)
    (hburst : ∀ i, e i = true → start ≤ i ∧ i < start + 32) (hne : ∃ i < 512, e i = true)
    (file : Memory)
    (hbefore : ∀ a < frameSize * k, file a = (calls.foldl logPayload .new).logger.mem a)
    (hframe : ∀ i < 512, bit (frameAt file k) i =
      xor (bit (frameAt (calls.foldl logPayload .new).logger.mem k) i) (e i))
    (b : LimitOrderBook) :
    (runRecovery b file fileSize).book =
      (replay b ((List.range k).map fun j =>
        frameOrder (frameAt (calls.foldl logPayload .new).logger.mem j))).book ∧
    ((replay b ((List.range k).map fun j =>
        frameOrder (frameAt (calls.foldl logPayload .new).logger.mem j))).outcome = .returned →
      (runRecovery b file fileSize).ending = .completed ∧
      (runRecovery b file fileSize).report.recordsProcessed = k ∧
      (0 < k → (runRecovery b file fileSize).report.lastValidSeq = BitVec.ofNat 32 (k-1))) := by
  have hw := written_logAll calls
  have hlen := hw.length_eq
  obtain ⟨hsize, hstop⟩ := hw.burst_not_valid (by omega) hburst hne hframe
  have hf := hw.recovery (by omega) hsize hbefore hstop b
  refine ⟨hf.book, ?_⟩
  intro hr
  have hdone := replay_done hr
  rw [List.length_map, List.length_range] at hdone
  exact hw.recovery_completed (by omega) hf hr hdone

/-- The frame of the cancellation damaged by a burst of 32 bits that begins in the payload field
and ends in the checksum. -/
def damagedLog : Memory :=
  flipBits (orderAndCancel.foldl logPayload .new).logger.mem {512 + 472, 512 + 481, 512 + 503}

theorem damagedLog_before : ∀ a < frameSize * 1, damagedLog a =
    (orderAndCancel.foldl logPayload .new).logger.mem a :=
  fun _ ha => flipBits_of_lt (by decide) ha

theorem damagedLog_burst (i : Nat)
    (h : decide (512 * 1 + i ∈ ({512 + 472, 512 + 481, 512 + 503} : Finset Nat)) = true) :
    472 ≤ i ∧ i < 472 + 32 := by
  simp only [decide_eq_true_iff, Finset.mem_insert, Finset.mem_singleton] at h
  omega

/-- The bid stays in the book. -/
theorem recovery_stops_at_damaged_cancel :
    (runRecovery (.new 1) damagedLog fileSize).book.getBestBid = 7 ∧
      (runRecovery (.new 1) damagedLog fileSize).ending = .completed ∧
      (runRecovery (.new 1) damagedLog fileSize).report.recordsProcessed = 1 ∧
      (runRecovery (.new 1) damagedLog fileSize).report.lastValidSeq = 0 := by
  obtain ⟨hbook, hreport⟩ := recovery_stops_at_burst orderAndCancel 1 (by decide +kernel) 472 _
    damagedLog_burst ⟨472, by decide, by decide⟩ damagedLog damagedLog_before
    (fun i _ => bit_frameAt_flipBits _ _ 1 i) (.new 1)
  obtain ⟨hending, hrecords, hseq⟩ := hreport (by decide +kernel)
  refine ⟨?_, hending, hrecords, hseq (by decide)⟩
  rw [hbook]
  decide +kernel

end MarketDataBook
