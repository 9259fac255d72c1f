import MarketDataBook.PayloadOverflow
import MarketDataBook.RecoveredBook

/-! How far `run_recovery` reads. Only a frame's own content ends the loop, so the frames of
the file have to end it before the file does. -/
namespace MarketDataBook
open ByteMemory

/-- Every frame the loop looked at, those it processed and the one it stopped at, lies in the
first `stSize` bytes. -/
def ReadsWithin (stSize : Nat) (r : Recovery) : Prop :=
  ∀ i ≤ r.report.recordsProcessed, frameSize * (i+1) ≤ stSize

def fileOrders (file : Memory) (stSize : Nat) : List (Option NormalizedOrder) :=
  (List.range (stSize / frameSize)).map fun j => frameOrder (frameAt file j)

def StopsWithin (b : LimitOrderBook) (file : Memory) (stSize : Nat) : Prop :=
  (∃ j < stSize / frameSize, ¬ ValidFrame file j) ∨
    (replay b (fileOrders file stSize)).outcome ≠ .returned

section Bounds
variable {b : LimitOrderBook} {file : Memory} {stSize : Nat}

theorem readsWithin_iff {r : Recovery} :
    ReadsWithin stSize r ↔ r.report.recordsProcessed < stSize / frameSize := by
  rw [Nat.lt_iff_add_one_le, Nat.le_div_iff_mul_le (by decide), Nat.mul_comm]
  exact ⟨fun h => h _ (Nat.le_refl _), fun h i hi =>
    (Nat.mul_le_mul_left _ (Nat.succ_le_succ hi)).trans h⟩

/-- An invalid frame stops the loop at that frame or before. -/
theorem readsWithin_of_invalid {j : Nat} (hj : j < stSize / frameSize)
    (hinv : ¬ ValidFrame file j) :
    ReadsWithin stSize (runRecovery b file stSize) ∧
      (runRecovery b file stSize).ending ≠ .outOfFile := by
  classical
  have hex : ∃ n, ¬ ValidFrame file n := ⟨j, hinv⟩
  have hle : Nat.find hex ≤ j := Nat.find_min' hex hinv
  have hs : frameSize * (Nat.find hex + 1) ≤ stSize := by
    rw [Nat.mul_comm, ← Nat.le_div_iff_mul_le (by decide)]
    omega
  have hf := runRecovery_follows hs (fun n hn => not_not.mp (Nat.find_min hex hn))
    (Nat.find_spec hex) b
  have hdone := replay_done_le b
    ((List.range (Nat.find hex)).map fun j => frameOrder (frameAt file j))
  rw [List.length_map, List.length_range] at hdone
  refine ⟨?_, ?_⟩
  · have hrecords := hf.records.trans (Nat.zero_add _)
    rw [readsWithin_iff, hrecords]
    omega
  · rw [hf.ending]
    split <;> simp

/-- Valid frames only: the replay of all of them decides. -/
theorem runRecovery_all_valid (hv : ∀ j < stSize / frameSize, ValidFrame file j) :
    runRecovery b file stSize =
      match (replay b (fileOrders file stSize)).outcome with
      | .returned => recoverFrom file stSize 1 (stSize / frameSize)
          (replay b (fileOrders file stSize)).book
          (RecoveryReport.new.advance file 0 (stSize / frameSize))
      | .raised what => ⟨(replay b (fileOrders file stSize)).book,
          RecoveryReport.new.advance file 0 (replay b (fileOrders file stSize)).done,
          .raised what⟩ := by
  have hs : frameSize * (0 + stSize / frameSize) ≤ stSize := by
    rw [Nat.zero_add]
    exact Nat.mul_div_le stSize frameSize
  rw [runRecovery, Nat.add_comm, recoverFrom_valid_frames hs (fun j _ hj => hv j (by omega)),
    ← List.range_eq_range', Nat.zero_add]
  rfl

theorem advance_new_records (file : Memory) (first n : Nat) :
    (RecoveryReport.new.advance file first n).recordsProcessed = n := Nat.zero_add n

theorem readsWithin_of_raised (hv : ∀ j < stSize / frameSize, ValidFrame file j) {what : String}
    (hr : (replay b (fileOrders file stSize)).outcome = .raised what) :
    ReadsWithin stSize (runRecovery b file stSize) ∧
      (runRecovery b file stSize).ending ≠ .outOfFile := by
  obtain ⟨o, ho⟩ := replay_raised_order hr
  have hlt := (List.getElem?_eq_some_iff.mp ho).1
  rw [fileOrders, List.length_map, List.length_range, ← fileOrders] at hlt
  rw [runRecovery_all_valid hv, hr, readsWithin_iff]
  refine ⟨?_, by simp⟩
  dsimp only
  rw [advance_new_records]
  exact hlt

/-- A frame that the file does not have in full ends the model of the loop at once. -/
theorem recoverFrom_past {fuel i : Nat} {report : RecoveryReport}
    (h : stSize < frameSize * (i+1)) :
    recoverFrom file stSize (fuel+1) i b report = ⟨b, report,
      if frameSize * i < stSize ∧ file (frameSize * i) ≠ validFrameMarker then .completed
      else .outOfFile⟩ := by
  rw [recoverFrom]
  by_cases hsize : stSize ≤ frameSize * i
  · rw [if_pos hsize, if_neg (fun hc => absurd hc.1 (Nat.not_lt.mpr hsize))]
  · by_cases hm : file (frameSize * i) ≠ validFrameMarker
    · rw [if_neg hsize, if_pos hm, if_pos ⟨Nat.not_le.mp hsize, hm⟩]
    · rw [if_neg hsize, if_neg hm, if_pos h, if_neg (fun hc => hm hc.2)]

theorem runRecovery_overruns (hv : ∀ j < stSize / frameSize, ValidFrame file j)
    (hr : (replay b (fileOrders file stSize)).outcome = .returned) :
    (runRecovery b file stSize).report.recordsProcessed = stSize / frameSize ∧
      (runRecovery b file stSize).ending =
        if frameSize * (stSize / frameSize) < stSize ∧
          file (frameSize * (stSize / frameSize)) ≠ validFrameMarker then .completed
        else .outOfFile := by
  have hpast : stSize < frameSize * (stSize / frameSize + 1) := by
    rw [frameSize]
    omega
  rw [runRecovery_all_valid hv, hr]
  dsimp only
  rw [recoverFrom_past hpast]
  exact ⟨advance_new_records file 0 _, rfl⟩

end Bounds

/-- Recovery looks at whole frames of the file only, exactly when one of them is not valid or
replaying them raises. Else it goes on to the bytes behind them, and it stays in the file only
if that is the marker of a cut-off frame and wrong. -/
theorem recovery_reads_within_iff (b : LimitOrderBook) (file : Memory) (stSize : Nat) :
    (ReadsWithin stSize (runRecovery b file stSize) ↔ StopsWithin b file stSize) ∧
      ((runRecovery b file stSize).ending ≠ .outOfFile ↔ StopsWithin b file stSize ∨
        (frameSize * (stSize / frameSize) < stSize ∧
          file (frameSize * (stSize / frameSize)) ≠ validFrameMarker)) := by
  by_cases hv : ∀ j < stSize / frameSize, ValidFrame file j
  · cases hr : (replay b (fileOrders file stSize)).outcome with
    | returned =>
      have hstops : ¬ StopsWithin b file stSize := by
        rintro (⟨j, hj, hinv⟩ | hne)
        · exact hinv (hv j hj)
        · exact hne hr
      obtain ⟨hrecords, hending⟩ := runRecovery_overruns hv hr
      rw [readsWithin_iff, hrecords, hending]
      refine ⟨iff_of_false (Nat.lt_irrefl _) hstops, ?_⟩
      rw [or_iff_right hstops]
      split_ifs with hc
      · exact iff_of_true (by simp) hc
      · exact iff_of_false (fun hne => hne rfl) hc
    | raised what =>
      have hstops : StopsWithin b file stSize := Or.inr (by simp [hr])
      obtain ⟨hwithin, hending⟩ := readsWithin_of_raised hv hr
      exact ⟨iff_of_true hwithin hstops, iff_of_true hending (Or.inl hstops)⟩
  · push Not at hv
    obtain ⟨j, hj, hinv⟩ := hv
    have hstops : StopsWithin b file stSize := Or.inl ⟨j, hj, hinv⟩
    obtain ⟨hwithin, hending⟩ := readsWithin_of_invalid hj hinv
    exact ⟨iff_of_true hwithin hstops, iff_of_true hending (Or.inl hstops)⟩

section Logs
variable {calls : List LogCall}

theorem fileSize_frames : fileSize / frameSize = 2^24 := rfl

/-- For a log it comes down to a frame being left over. -/
theorem log_stopsWithin_iff (b : LimitOrderBook) (hc : ∀ c ∈ calls, c.payload.length ≤ 50) :
    StopsWithin b (calls.foldl logPayload .new).logger.mem fileSize ↔ calls.length < 2^24 ∨
      (replay b (fileOrders (calls.foldl logPayload .new).logger.mem fileSize)).outcome ≠
        .returned := by
  rw [StopsWithin, fileSize_frames]
  refine or_congr_left ⟨?_, ?_⟩
  · rintro ⟨j, hj, hinv⟩
    by_contra hfull
    refine hinv ((written_logAll calls).validFrame ?_)
    rw [List.length_take]
    omega
  · intro hlt
    refine ⟨calls.length, hlt, not_validFrame ?_⟩
    rw [← (written_logAll_of_le hlt.le).curr]
    exact logAll_untouched hc

theorem replay_none {b : LimitOrderBook} {os : List (Option NormalizedOrder)}
    (h : ∀ o ∈ os, o = none) : (replay b os).outcome = .returned := by
  induction os with
  | nil => rfl
  | cons o os ih =>
    rw [h o List.mem_cons_self]
    exact ih fun x hx => h x (List.mem_cons_of_mem o hx)

/-- No order is replayed from frames of unsupported messages. -/
theorem fileOrders_none {file : Memory} {stSize : Nat}
    (h : ∀ j < stSize / frameSize, frameAt file j 1 = 45#8) :
    ∀ o ∈ fileOrders file stSize, o = none := by
  intro o ho
  obtain ⟨j, hj, rfl⟩ := List.mem_map.mp ho
  rw [frameOrder, h j (List.mem_range.mp hj), decode_join_unsupported (by decide)]

end Logs

def systemEventCall : LogCall := ⟨83#8 :: List.replicate 11 0#8, 45#8, 0#64⟩

theorem systemEventCall_ofMessage : systemEventCall.OfMessage :=
  ⟨⟨83#8, rfl, by decide⟩, by decide⟩

/-- A log filled to the last byte: recovery goes on to the frame behind the file. -/
theorem filled_log_overruns : ∃ calls : List LogCall, (∀ c ∈ calls, c.OfMessage) ∧
    (calls.foldl logPayload .new).logger.curr = fileSize ∧
    ∀ b, (runRecovery b (calls.foldl logPayload .new).logger.mem fileSize).ending = .outOfFile ∧
      ¬ ReadsWithin fileSize
        (runRecovery b (calls.foldl logPayload .new).logger.mem fileSize) := by
  obtain ⟨n, hn⟩ : ∃ n, n = 2^24 := ⟨2^24, rfl⟩
  have hle : (List.replicate n systemEventCall).length ≤ 2^24 := by
    rw [List.length_replicate]
    exact hn.le
  have hw := written_logAll_of_le hle
  refine ⟨List.replicate n systemEventCall, ?_, ?_, ?_⟩
  · intro c hc
    rw [List.eq_of_mem_replicate hc]
    exact systemEventCall_ofMessage
  · rw [hw.curr, List.length_replicate, hn]
    rfl
  · intro b
    have hframes : ∀ j < n, FrameOf (frameAt ((List.replicate n systemEventCall).foldl
        logPayload .new).logger.mem j) j systemEventCall := by
      intro j hj
      exact hw.frames j _ (by rw [List.getElem?_replicate, if_pos hj])
    generalize ((List.replicate n systemEventCall).foldl logPayload .new).logger.mem = file
      at hframes ⊢
    rw [← fileSize_frames] at hn
    have hv : ∀ j < fileSize / frameSize, ValidFrame file j := fun j hj =>
      ⟨(hframes j (by omega)).marker, (hframes j (by omega)).checksum⟩
    have hr : (replay b (fileOrders file fileSize)).outcome = .returned :=
      replay_none (fileOrders_none fun j hj => (hframes j (by omega)).msgType)
    obtain ⟨hrecords, hending⟩ := runRecovery_overruns hv hr
    refine ⟨?_, ?_⟩
    · rw [hending, if_neg (fun hc => absurd hc.1 (by decide))]
    · rw [readsWithin_iff, hrecords]
      exact Nat.lt_irrefl _

end MarketDataBook
