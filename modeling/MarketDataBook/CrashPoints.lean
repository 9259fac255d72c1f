import MarketDataBook.RecoveryOutcome

/-! The process dies inside `log_payload`. The mapped file keeps what has been stored: every frame
before, and an initial part of the bytes of the last one. Such a part passes for a valid frame
exactly when its last four bytes happen to be the checksum of the bytes before them. -/
namespace MarketDataBook
open ByteMemory ShiftRegister

/-- What `log_payload` stores from the start of the frame on, up to the checksum. -/
def frameBytes (seqNum : BitVec 32) (c : LogCall) : List Byte :=
  [validFrameMarker] ++ [c.msgType] ++ leBytes 2 1#16 ++ leBytes 4 seqNum ++ leBytes 8 c.rdtsc ++
    c.payload

/-- The log when `log_payload` has stored the first `n` of its bytes. -/
def crashImage (l : PayloadLog) (c : LogCall) (n : Nat) : Memory :=
  let frame := l.logger.curr
  let bytes := frameBytes (l.currSeqNum.setWidth 32) c
  let m := store l.logger.mem frame (bytes.take n)
  store m (frame + 60)
    ((leBytes 4 (calculateCrc32 fun i => m (frame + i))).take (n - bytes.length))

def crcOfFirst (n : Nat) (bytes : List Byte) : BitVec 32 :=
  absorb crcPolynomial 0#32 ((List.range (8 * n)).map (bit fun i => bytes.getD i 0#8))

/-- The last four bytes are the checksum of those before. -/
def EndsInOwnCrc (bytes : List Byte) : Prop :=
  4 ≤ bytes.length ∧
    crcOfFirst (bytes.length - 4) bytes = load (fun i => bytes.getD i 0#8) (bytes.length - 4) 4

instance (bytes : List Byte) : Decidable (EndsInOwnCrc bytes) :=
  inferInstanceAs (Decidable (_ ∧ _))

theorem length_frameBytes (seqNum : BitVec 32) (c : LogCall) :
    (frameBytes seqNum c).length = 16 + c.payload.length := by
  simp only [frameBytes, List.length_append, List.length_singleton, length_leBytes]

theorem head?_frameBytes_take (seqNum : BitVec 32) (c : LogCall) {n : Nat} (h : 0 < n) :
    ((frameBytes seqNum c).take n).head? = some validFrameMarker := by
  cases n with
  | zero => cases h
  | succ n => rfl

theorem populateFields_eq_store (m : Memory) (frame : Nat) (seqNum : BitVec 32) (c : LogCall) :
    populateFields m frame seqNum c = store m frame (frameBytes seqNum c) := by
  simp only [frameBytes, store_append, List.length_append, List.length_singleton, length_leBytes,
    populateFields]

section Crc
variable {bytes : List Byte}

theorem map_bit_false {m : Memory} {start len : Nat}
    (h : ∀ i, start ≤ i → i < start + len → m (i / 8) = 0#8) :
    (List.range' start len).map (bit m) = List.replicate len false := by
  rw [List.eq_replicate_iff, List.length_map, List.length_range']
  refine ⟨rfl, ?_⟩
  intro b hb
  obtain ⟨i, hi, rfl⟩ := List.mem_map.mp hb
  rw [List.mem_range'_1] at hi
  rw [bit, h i hi.1 hi.2, BitVec.getLsbD_zero]

/-- The zeros behind the bytes do not change whether the register ends at zero. -/
theorem validChecksum_bytes_iff (h : bytes.length ≤ 64) :
    validChecksum (fun i => bytes.getD i 0#8) = true ↔ crcOfFirst bytes.length bytes = 0#32 := by
  have hsplit : List.range 512 =
      List.range (8 * bytes.length) ++ List.range' (8 * bytes.length) (512 - 8 * bytes.length) := by
    rw [List.range_eq_range', List.range_eq_range']
    have happ := List.range'_append_1 (s := 0) (m := 8 * bytes.length) (n := 512 - 8 * bytes.length)
    rw [Nat.zero_add] at happ
    rw [happ]
    congr 1
    omega
  have hzero : (List.range' (8 * bytes.length) (512 - 8 * bytes.length)).map
      (bit fun i => bytes.getD i 0#8) = List.replicate (512 - 8 * bytes.length) false := by
    apply map_bit_false
    intro i hi _
    exact List.getD_eq_default _ _ (by omega)
  rw [validChecksum_iff, hsplit, List.map_append, absorb_append, hzero, absorb_false]
  constructor
  · exact iterate_shift_eq_zero crcPolynomial_top
  · intro hz
    rw [crcOfFirst] at hz
    rw [hz, iterate_shift_zero]

theorem crcOfFirst_add_four (n : Nat) (bytes : List Byte) : crcOfFirst (n + 4) bytes = 0#32 ↔
    crcOfFirst n bytes = load (fun i => bytes.getD i 0#8) n 4 := by
  have hsplit : List.range (8 * (n + 4)) = List.range (8 * n) ++ List.range' (8 * n) 32 := by
    rw [List.range_eq_range', List.range_eq_range']
    have happ := List.range'_append_1 (s := 0) (m := 8 * n) (n := 32)
    rw [Nat.zero_add] at happ
    rw [happ]
    congr 1
  rw [crcOfFirst, hsplit, List.map_append, absorb_append,
    absorb_word_eq_zero_iff crcPolynomial_top _ (by simp), ofBits_load]
  rfl

/-- Fewer than four bytes that begin with the marker never pass. -/
theorem crcOfFirst_short (h : bytes.length < 4) (hm : bytes.head? = some validFrameMarker) :
    crcOfFirst bytes.length bytes ≠ 0#32 := by
  have hpos : 0 < bytes.length := by
    cases bytes with
    | nil => cases hm
    | cons b bs => exact Nat.succ_pos _
  have hget : bytes.getD 0 0#8 = validFrameMarker := by
    rw [List.getD_eq_getElem?_getD, ← List.head?_eq_getElem?, hm]
    rfl
  have hburst : ∀ i, bit (fun i => bytes.getD i 0#8) i = true → 0 ≤ i ∧ i < 0 + 32 := by
    intro i hi
    refine ⟨Nat.zero_le i, ?_⟩
    by_contra hge
    have hout : bytes.getD (i / 8) 0#8 = 0#8 := List.getD_eq_default _ _ (by omega)
    rw [bit, hout, BitVec.getLsbD_zero] at hi
    cases hi
  have hbit : bit (fun i => bytes.getD i 0#8) 1 = true := by
    rw [bit, hget]
    decide
  exact absorb_burst_ne_zero crcPolynomial_top hburst ⟨1, by omega, hbit⟩

/-- Bytes that begin with the marker, zeros behind them, are a valid frame exactly if they end
in their own checksum. -/
theorem validChecksum_iff_endsInOwnCrc (h : bytes.length ≤ 64)
    (hm : bytes.head? = some validFrameMarker) :
    validChecksum (fun i => bytes.getD i 0#8) = true ↔ EndsInOwnCrc bytes := by
  rw [validChecksum_bytes_iff h, EndsInOwnCrc]
  obtain hlt | hge := Nat.lt_or_ge bytes.length 4
  · exact iff_of_false (crcOfFirst_short hlt hm) fun he => absurd he.1 (by omega)
  · have hsplit : bytes.length - 4 + 4 = bytes.length := by omega
    have hiff := crcOfFirst_add_four (bytes.length - 4) bytes
    rw [hsplit] at hiff
    rw [hiff]
    exact ⟨fun he => ⟨hge, he⟩, And.right⟩

end Crc

/-- The call as the frame holds it by then: zeros where the payload has not been copied yet. -/
def LogCall.upTo (c : LogCall) (n : Nat) : LogCall :=
  { c with
    payload := c.payload.take (n - 16) ++ List.replicate (c.payload.length - (n - 16)) 0#8 }

theorem LogCall.length_upTo (c : LogCall) (n : Nat) :
    (c.upTo n).payload.length = c.payload.length := by
  simp only [LogCall.upTo, List.length_append, List.length_take, List.length_replicate]
  omega

theorem LogCall.WellTagged.upTo {c : LogCall} (h : c.WellTagged) (n : Nat) :
    (c.upTo n).WellTagged := by
  rw [LogCall.WellTagged, LogCall.length_upTo]
  exact h

theorem LogCall.upTo_of_le {c : LogCall} {n : Nat} (h : 16 + c.payload.length ≤ n) :
    c.upTo n = c := by
  have hzero : c.payload.length - (n - 16) = 0 := by omega
  rw [LogCall.upTo, List.take_of_length_le (by omega), hzero, List.replicate_zero,
    List.append_nil]

theorem LogCall.upTo_payload {c : LogCall} {n i : Nat} {b : Byte}
    (h : (c.upTo n).payload[i]? = some b) :
    b = (c.payload.take (n - 16)).getD i 0#8 := by
  rw [LogCall.upTo, List.getElem?_append] at h
  split_ifs at h with hi
  · rw [List.getD_eq_getElem?_getD, h, Option.getD_some]
  · rw [List.getElem?_replicate] at h
    split_ifs at h
    cases h
    rw [List.getD_eq_default _ _ (by omega)]

section Image
variable {l : PayloadLog} {c : LogCall} {n a : Nat}

theorem crashImage_of_le (h : n ≤ 16 + c.payload.length) : crashImage l c n =
    store l.logger.mem l.logger.curr ((frameBytes (l.currSeqNum.setWidth 32) c).take n) := by
  have hzero : n - (16 + c.payload.length) = 0 := by omega
  simp only [crashImage, length_frameBytes, hzero, List.take_zero, store_nil]

/-- Past the payload the frame has all its fields, and part of its checksum. -/
theorem crashImage_of_ge (h : 16 + c.payload.length ≤ n) : crashImage l c n =
    let m := populateFields l.logger.mem l.logger.curr (l.currSeqNum.setWidth 32) c
    store m (l.logger.curr + 60)
      ((leBytes 4 (calculateCrc32 fun i => m (l.logger.curr + i))).take
        (n - (16 + c.payload.length))) := by
  have hall : (frameBytes (l.currSeqNum.setWidth 32) c).take n =
      frameBytes (l.currSeqNum.setWidth 32) c :=
    List.take_of_length_le (by rw [length_frameBytes]; exact h)
  simp only [crashImage, hall, length_frameBytes, populateFields_eq_store]

/-- With all bytes stored, the call has been made. -/
theorem crashImage_complete (hroom : l.logger.curr + frameSize ≤ fileSize)
    (h : 16 + c.payload.length + 4 ≤ n) : crashImage l c n = (logPayload l c).logger.mem := by
  rw [crashImage_of_ge (by omega), logPayload_of_room hroom, populate]
  dsimp only
  rw [List.take_of_length_le]
  rw [length_leBytes]
  omega

theorem crashImage_below (h : a < l.logger.curr) : crashImage l c n a = l.logger.mem a := by
  rw [crashImage, store_of_lt (by omega), store_of_lt h]

theorem crashImage_marker (h : 0 < n) : crashImage l c n l.logger.curr = validFrameMarker := by
  rw [crashImage, store_of_lt (by omega)]
  have hhead := head?_frameBytes_take (l.currSeqNum.setWidth 32) c h
  rw [List.head?_eq_getElem?] at hhead
  exact store_of_mem hhead

theorem crashImage_above (h : l.logger.curr + 64 ≤ a)
    (hp : l.logger.curr + 16 + c.payload.length ≤ a) : crashImage l c n a = l.logger.mem a := by
  rw [crashImage, store_of_ge, store_of_ge]
  · rw [List.length_take, length_frameBytes]
    omega
  · rw [List.length_take, length_leBytes]
    omega

/-- A frame whose first bytes are stored and that read as zeros before. -/
theorem crashImage_frame (h2 : 2 ≤ n) (hn : n ≤ 16 + c.payload.length)
    (hzero : ∀ a, l.logger.curr + 2 ≤ a → l.logger.mem a = 0#8) {i : Nat} :
    crashImage l c n (l.logger.curr + i) =
      ((frameBytes (l.currSeqNum.setWidth 32) c).take n).getD i 0#8 := by
  have hlen : ((frameBytes (l.currSeqNum.setWidth 32) c).take n).length = n := by
    rw [List.length_take, length_frameBytes, Nat.min_eq_left hn]
  rw [crashImage_of_le hn]
  obtain hi | hi := Nat.lt_or_ge i n
  · have hget := List.getElem?_eq_getElem (hlen ▸ hi)
    rw [store_of_mem hget, List.getD_eq_getElem?_getD, hget, Option.getD_some]
  · rw [store_of_ge (by omega), hzero _ (by omega), List.getD_eq_default _ _ (by omega)]

/-- Once the payload is copied, the frame differs from the complete one in its checksum only. -/
theorem crashImage_field (h : 16 + c.payload.length ≤ n) (ha : a < l.logger.curr + 60) :
    crashImage l c n a =
      populate l.logger.mem l.logger.curr (l.currSeqNum.setWidth 32) c a := by
  rw [crashImage_of_ge h, populate_field ha]
  exact store_of_lt ha

end Image

/-- Two valid frames with the same fields have the same checksum. -/
theorem validChecksum_ext {frame frame' : Memory} (h : validChecksum frame = true)
    (h' : validChecksum frame' = true) (he : ∀ i < 60, frame' i = frame i) :
    ∀ i < 64, frame' i = frame i := by
  intro i hi
  obtain hlt | hge := Nat.lt_or_ge i 60
  · exact he i hlt
  · have hload : load frame' 60 4 = load frame 60 4 := by
      rw [← of_decide_eq_true h, ← of_decide_eq_true h', calculateCrc32_congr he]
    have hbyte := congrArg (BitVec.extractLsb' (8 * (i - 60)) 8) hload
    rw [extractLsb'_load (by omega), extractLsb'_load (by omega)] at hbyte
    have hi60 : 60 + (i - 60) = i := by omega
    rw [hi60] at hbyte
    exact hbyte

section Crash
variable {l : PayloadLog} {calls : List LogCall} {c : LogCall} {n : Nat}

theorem Written.setWidth_seqNum (hw : Written l calls) :
    l.currSeqNum.setWidth 32 = BitVec.ofNat 32 calls.length := by
  rw [hw.seqNum]
  apply BitVec.eq_of_toNat_eq
  simp only [BitVec.toNat_setWidth, BitVec.toNat_ofNat]
  omega

/-- What of the frame has been stored before the checksum passes for a frame exactly if it ends
in its own checksum. -/
theorem Written.crash_validFrame_iff (hw : Written l calls)
    (hzero : ∀ a, l.logger.curr + 2 ≤ a → l.logger.mem a = 0#8)
    (hn : n ≤ 16 + c.payload.length) :
    ValidFrame (crashImage l c n) calls.length ↔
      EndsInOwnCrc (((frameBytes (l.currSeqNum.setWidth 32) c).take n).take 64) := by
  obtain hlt | h2 := Nat.lt_or_ge n 2
  · refine iff_of_false (not_validFrame fun a ha => ?_) fun he => ?_
    · rw [← hw.curr] at ha
      rw [crashImage_of_le hn, store_of_ge, hzero a ha]
      rw [List.length_take]
      omega
    · have hlen := he.1
      rw [List.length_take, List.length_take] at hlen
      omega
  · have hframe : ∀ i < 64, frameAt (crashImage l c n) calls.length i =
        (((frameBytes (l.currSeqNum.setWidth 32) c).take n).take 64).getD i 0#8 := by
      intro i hi
      rw [frameAt, ← hw.curr, crashImage_frame h2 hn hzero, List.getD_eq_getElem?_getD,
        List.getD_eq_getElem?_getD, List.getElem?_take_of_lt hi]
    have hhead : (((frameBytes (l.currSeqNum.setWidth 32) c).take n).take 64).head? =
        some validFrameMarker := by
      rw [List.take_take]
      exact head?_frameBytes_take _ _ (by omega)
    have hmark : crashImage l c n (frameSize * calls.length) = validFrameMarker := by
      have h0 := hframe 0 (by decide)
      rw [List.getD_eq_getElem?_getD, ← List.head?_eq_getElem?, hhead] at h0
      exact h0
    rw [ValidFrame, validChecksum_congr hframe,
      validChecksum_iff_endsInOwnCrc (List.length_take_le _ _) hhead]
    exact ⟨And.right, fun he => ⟨hmark, he⟩⟩

/-- A frame that passes holds the call with the payload copied so far. -/
theorem Written.crash_frameOf (hw : Written l calls)
    (hzero : ∀ a, l.logger.curr + 2 ≤ a → l.logger.mem a = 0#8)
    (hv : ValidFrame (crashImage l c n) calls.length) :
    ∃ seq, FrameOf (frameAt (crashImage l c n) calls.length) seq (c.upTo n) := by
  obtain hn | hn := Nat.lt_or_ge n (16 + c.payload.length)
  · have h2 : 2 ≤ n := by
      by_contra hlt
      have he := (hw.crash_validFrame_iff hzero hn.le).mp hv
      have hlen := he.1
      rw [List.length_take, List.length_take] at hlen
      omega
    have hframe : ∀ i, frameAt (crashImage l c n) calls.length i =
        ((frameBytes (l.currSeqNum.setWidth 32) c).take n).getD i 0#8 := by
      intro i
      rw [frameAt, ← hw.curr]
      exact crashImage_frame h2 hn.le hzero
    refine ⟨(load (frameAt (crashImage l c n) calls.length) 4 4).toNat, hv.1, ?_, ?_, ?_, hv.2⟩
    · rw [hframe, List.getD_eq_getElem?_getD, List.getElem?_take_of_lt (by omega)]
      rfl
    · rw [BitVec.ofNat_toNat, BitVec.setWidth_eq]
    · intro i b _ hb
      rw [LogCall.upTo_payload hb, hframe, List.getD_eq_getElem?_getD, List.getD_eq_getElem?_getD]
      congr 1
      obtain hi | hi := Nat.lt_or_ge (16 + i) n
      · rw [List.getElem?_take_of_lt hi, List.getElem?_take_of_lt (by omega), frameBytes,
          List.getElem?_append_right (by simp [length_leBytes])]
        congr 1
        simp only [List.length_append, List.length_singleton, length_leBytes]
        omega
      · rw [List.getElem?_eq_none, List.getElem?_eq_none]
        · rw [List.length_take]
          omega
        · rw [List.length_take]
          omega
  · rw [LogCall.upTo_of_le hn]
    refine ⟨calls.length, ?_⟩
    have hseq := hw.setWidth_seqNum
    have hpop : FrameOf (fun i => populate l.logger.mem l.logger.curr (l.currSeqNum.setWidth 32) c
        (l.logger.curr + i)) calls.length c := populate_frameOf hseq
    apply hpop.congr
    apply validChecksum_ext populate_checksum hv.2
    intro i hi
    rw [frameAt, ← hw.curr]
    exact crashImage_field hn (by omega)

theorem Written.crash_before (hw : Written l calls) (ht : ∀ d ∈ calls, d.WellTagged) :
    (∀ j < calls.length, ValidFrame (crashImage l c n) j) ∧
      ((List.range calls.length).map fun j => frameOrder (frameAt (crashImage l c n) j)) =
        calls.map LogCall.order := by
  have hbefore : ∀ a < frameSize * calls.length, crashImage l c n a = l.logger.mem a := by
    intro a ha
    rw [← hw.curr] at ha
    exact crashImage_below ha
  obtain ⟨-, hvalid, horders⟩ := hw.frames_before (Nat.le_refl _) hbefore
  refine ⟨hvalid, ?_⟩
  rw [horders, hw.length_eq, hw.frameOrders ht]

/-- A frame that does not pass is where recovery stops. -/
theorem Written.crash_stops (hw : Written l calls) (ht : ∀ d ∈ calls, d.WellTagged)
    (hroom : calls.length < 2^24) (hv : ¬ ValidFrame (crashImage l c n) calls.length)
    (b : LimitOrderBook) :
    Follows (crashImage l c n) 0 .new (replay b (calls.map LogCall.order))
        (runRecovery b (crashImage l c n) fileSize) ∧
      ((replay b (calls.map LogCall.order)).outcome = .returned →
        (runRecovery b (crashImage l c n) fileSize).report.tornWriteDetected =
          decide (crashImage l c n l.logger.curr = validFrameMarker)) := by
  have hsize : frameSize * (calls.length + 1) ≤ fileSize := by
    rw [frameSize, fileSize]
    omega
  obtain ⟨hvalid, horders⟩ := hw.crash_before (c := c) (n := n) ht
  rw [← horders, hw.curr]
  exact ⟨runRecovery_follows hsize hvalid hv b, runRecovery_torn hsize hvalid hv⟩

/-- A frame that passes is one more record. -/
theorem Written.crash_follows (hw : Written l calls) (ht : ∀ d ∈ calls, d.WellTagged)
    (hzero : ∀ a, l.logger.curr + 2 ≤ a → l.logger.mem a = 0#8) (hc : c.WellTagged)
    (hroom : calls.length + 1 < 2^24) (hv : ValidFrame (crashImage l c n) calls.length)
    (b : LimitOrderBook) :
    Follows (crashImage l c n) 0 .new (replay b ((calls ++ [c.upTo n]).map LogCall.order))
        (runRecovery b (crashImage l c n) fileSize) ∧
      ((replay b ((calls ++ [c.upTo n]).map LogCall.order)).outcome = .returned →
        c.payload.length ≤ 48 →
        (runRecovery b (crashImage l c n) fileSize).report.tornWriteDetected = false) := by
  have hsize : frameSize * (calls.length + 1 + 1) ≤ fileSize := by
    rw [frameSize, fileSize]
    omega
  obtain ⟨hvalid, horders⟩ := hw.crash_before (c := c) (n := n) ht
  have hall : ∀ j < calls.length + 1, ValidFrame (crashImage l c n) j := by
    intro j hj
    obtain hlt | rfl := Nat.lt_succ_iff_lt_or_eq.mp hj
    · exact hvalid j hlt
    · exact hv
  have habove : ∀ a, frameSize * (calls.length + 1) ≤ a →
      l.logger.curr + 16 + c.payload.length ≤ a → crashImage l c n a = 0#8 := by
    intro a ha hp
    rw [Nat.mul_succ, ← hw.curr, frameSize] at ha
    rw [crashImage_above ha hp, hzero a (by omega)]
  have h50 := hc.1
  have hcurr := hw.curr
  have hstop : ¬ ValidFrame (crashImage l c n) (calls.length + 1) := by
    apply not_validFrame
    intro a ha
    apply habove a (by omega)
    rw [Nat.mul_succ, frameSize] at ha
    rw [frameSize] at hcurr
    omega
  obtain ⟨seq, hf⟩ := hw.crash_frameOf hzero hv
  have heq : ((List.range (calls.length + 1)).map fun j =>
      frameOrder (frameAt (crashImage l c n) j)) =
        (calls ++ [c.upTo n]).map LogCall.order := by
    rw [List.range_succ, List.map_append, List.map_append, horders, List.map_singleton,
      List.map_singleton, hf.frameOrder (hc.upTo n)]
  rw [← heq]
  refine ⟨runRecovery_follows hsize hall hstop b, ?_⟩
  intro hr h48
  rw [runRecovery_torn hsize hall hstop hr, habove _ (Nat.le_refl _)]
  · decide
  · rw [Nat.mul_succ, hcurr, frameSize]
    omega

end Crash

/-- The process dies in `log_payload` with the first `n` bytes of the frame stored and the
checksum not begun. Recovery replays the calls made before and reports the torn frame, unless the
stored bytes end in their own checksum: then it replays one more, with zeros for what was not
copied, and reports nothing. -/
theorem crash_before_checksum (calls : List LogCall) (ht : ∀ d ∈ calls, d.WellTagged)
    (hroom : calls.length + 1 < 2^24) (c : LogCall) (hc : c.WellTagged) (n : Nat)
    (hn : n ≤ 16 + c.payload.length) (b : LimitOrderBook) :
    let image := crashImage (calls.foldl logPayload .new) c n
    let passes :=
      EndsInOwnCrc (((frameBytes (BitVec.ofNat 32 calls.length) c).take n).take 64)
    let replayed := if passes then calls ++ [c.upTo n] else calls
    let r := replay b (replayed.map LogCall.order)
    Follows image 0 .new r (runRecovery b image fileSize) ∧
      (r.outcome = .returned → 0 < n → c.payload.length ≤ 48 →
        (runRecovery b image fileSize).report.tornWriteDetected = !decide passes) := by
  have hw : Written (calls.foldl logPayload .new) calls := written_logAll_of_le (by omega)
  have hzero := logAll_untouched fun d hd => (ht d hd).1
  have hiff := hw.crash_validFrame_iff hzero hn
  rw [hw.setWidth_seqNum] at hiff
  intro image passes replayed r
  by_cases hp : passes
  · have hreplayed : replayed = calls ++ [c.upTo n] := if_pos hp
    have hrep : replay b ((calls ++ [c.upTo n]).map LogCall.order) = r := by rw [← hreplayed]
    obtain ⟨hf, htorn⟩ := hw.crash_follows ht hzero hc hroom (hiff.mpr hp) b
    rw [hrep] at hf htorn
    refine ⟨hf, ?_⟩
    intro hr _ h48
    rw [htorn hr h48, decide_eq_true hp]
    rfl
  · have hreplayed : replayed = calls := if_neg hp
    have hrep : replay b (calls.map LogCall.order) = r := by rw [← hreplayed]
    obtain ⟨hf, htorn⟩ := hw.crash_stops ht (by omega) (mt hiff.mp hp) b
    rw [hrep] at hf htorn
    refine ⟨hf, ?_⟩
    intro hr hpos _
    rw [htorn hr, decide_eq_false hp, crashImage_marker hpos]
    decide

/-- Order 7, an add of one share; the upper half of its timestamp is the checksum of the frame up
to there. -/
def unluckyAdd : LogCall :=
  ⟨65#8 :: List.replicate 17 0#8 ++ [7#8, 66#8, 0#8, 0#8, 0#8, 1#8] ++ List.replicate 12 0#8, 65#8,
    940900510#32 ++ 0#32⟩

/-- The book recovered has an order 0 and no order 7. -/
theorem unluckyAdd_recovered :
    let r := runRecovery (.new 1) (crashImage .new unluckyAdd 16) fileSize
    r.report.recordsProcessed = 1 ∧ r.report.tornWriteDetected = false ∧
      (r.book.orders.get 0#64).isSome = true ∧ r.book.orders.get 7#64 = none := by
  have hc : unluckyAdd.WellTagged := ⟨by decide, by rintro len ⟨⟩; rfl⟩
  have hp : EndsInOwnCrc
      (((frameBytes (BitVec.ofNat 32 ([] : List LogCall).length) unluckyAdd).take 16).take 64) := by
    decide +kernel
  obtain ⟨hf, htorn⟩ :=
    crash_before_checksum [] (by simp) (by decide) unluckyAdd hc 16 (by decide) (.new 1)
  rw [if_pos hp] at hf htorn
  refine ⟨?_, ?_, ?_, ?_⟩
  · rw [List.foldl_nil] at hf
    rw [hf.records]
    decide +kernel
  · rw [List.foldl_nil] at htorn
    rw [htorn (by decide +kernel) (by decide) (by decide), decide_eq_true hp]
    rfl
  · rw [List.foldl_nil] at hf
    rw [hf.book]
    decide +kernel
  · rw [List.foldl_nil] at hf
    rw [hf.book]
    decide +kernel

/-- Dying later than that, recovery replays the calls made before, or those and this one. -/
theorem crash_at_checksum (calls : List LogCall) (ht : ∀ d ∈ calls, d.WellTagged)
    (hroom : calls.length + 1 < 2^24) (c : LogCall) (hc : c.WellTagged) (n : Nat)
    (hn : 16 + c.payload.length ≤ n) (b : LimitOrderBook) :
    let image := crashImage (calls.foldl logPayload .new) c n
    ∃ replayed, (replayed = calls ∨ replayed = calls ++ [c]) ∧
      (16 + c.payload.length + 4 ≤ n → replayed = calls ++ [c]) ∧
      Follows image 0 .new (replay b (replayed.map LogCall.order))
        (runRecovery b image fileSize) := by
  have hw : Written (calls.foldl logPayload .new) calls := written_logAll_of_le (by omega)
  have hzero := logAll_untouched fun d hd => (ht d hd).1
  intro image
  by_cases hv : ValidFrame image calls.length
  · obtain ⟨hf, -⟩ := hw.crash_follows ht hzero hc hroom hv b
    rw [LogCall.upTo_of_le hn] at hf
    exact ⟨calls ++ [c], Or.inr rfl, fun _ => rfl, hf⟩
  · refine ⟨calls, Or.inl rfl, ?_, (hw.crash_stops ht (by omega) hv b).1⟩
    intro hall
    refine absurd ?_ hv
    have hroom' : (calls.foldl logPayload .new).logger.curr + frameSize ≤ fileSize := by
      rw [hw.curr, frameSize, fileSize]
      omega
    have himage : image = (logPayload (calls.foldl logPayload .new) c).logger.mem :=
      crashImage_complete hroom' hall
    have hnext := hw.append (by omega) c
    rw [himage]
    exact hnext.validFrame (by rw [List.length_append]; exact Nat.lt_succ_self _)

/-- With the whole frame stored, order 7 is back. -/
theorem unluckyAdd_logged :
    let r := runRecovery (.new 1) (crashImage .new unluckyAdd 56) fileSize
    r.report.recordsProcessed = 1 ∧ (r.book.orders.get 7#64).isSome = true := by
  have hc : unluckyAdd.WellTagged := ⟨by decide, by rintro len ⟨⟩; rfl⟩
  obtain ⟨replayed, -, hall, hf⟩ :=
    crash_at_checksum [] (by simp) (by decide) unluckyAdd hc 56 (by decide) (.new 1)
  rw [hall (by decide), List.foldl_nil] at hf
  refine ⟨?_, ?_⟩
  · rw [hf.records]
    decide +kernel
  · rw [hf.book]
    decide +kernel

section Timestamp

end Timestamp

end MarketDataBook
