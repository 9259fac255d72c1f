import MarketDataBook.Crc32
import MarketDataBook.ItchOrderTypes

/-! `utils/WalFrame.h`, `recovery/MmapLogger.{h,cpp}` and `ItchParser::log_payload`. The log
is memory from `start_` on. A payload longer than its field runs over the checksum, which is
written last, and into the frame behind, which is not written yet; no frame that has been
written is ever touched again. -/
namespace MarketDataBook
open ByteMemory

def frameSize : Nat := 64
def fileSize : Nat := 1 <<< 30
def validFrameMarker : Byte := 0xAA#8

structure MmapLogger where
  mem : Memory
  curr : Nat

/-- A freshly allocated file reads as zeros. -/
def MmapLogger.new : MmapLogger := ⟨fun _ => 0#8, 0⟩

def MmapLogger.reserveFrame (l : MmapLogger) : Option (Nat × MmapLogger) :=
  if fileSize < l.curr + frameSize then none
  else some (l.curr, { l with curr := l.curr + frameSize })

/-- One call of `log_payload`: the bytes it copies, the type and what `__rdtsc` returns. -/
structure LogCall where
  payload : List Byte
  msgType : Byte
  rdtsc : BitVec 64

/-- The stores into the reserved frame before its checksum, in the order of the source. -/
def populateFields (m : Memory) (frame : Nat) (seqNum : BitVec 32) (c : LogCall) : Memory :=
  let m := store m frame [validFrameMarker]
  let m := store m (frame + 1) [c.msgType]
  let m := store m (frame + 2) (leBytes 2 1#16)
  let m := store m (frame + 4) (leBytes 4 seqNum)
  let m := store m (frame + 8) (leBytes 8 c.rdtsc)
  store m (frame + 16) c.payload

def populate (m : Memory) (frame : Nat) (seqNum : BitVec 32) (c : LogCall) : Memory :=
  let m := populateFields m frame seqNum c
  store m (frame + 60) (leBytes 4 (calculateCrc32 fun i => m (frame + i)))

structure PayloadLog where
  logger : MmapLogger
  currSeqNum : BitVec 64

def PayloadLog.new : PayloadLog := ⟨.new, 0#64⟩

def logPayload (l : PayloadLog) (c : LogCall) : PayloadLog :=
  match l.logger.reserveFrame with
  | none => l
  | some (frame, logger) =>
    { logger := { logger with
        mem := populate logger.mem frame (l.currSeqNum.setWidth 32) c }
      currSeqNum := l.currSeqNum + 1#64 }

def frameAt (m : Memory) (k : Nat) : Memory := fun i => m (frameSize * k + i)

structure FrameOf (frame : Memory) (seq : Nat) (c : LogCall) : Prop where
  marker : frame 0 = validFrameMarker
  msgType : frame 1 = c.msgType
  seqNum : load frame 4 4 = BitVec.ofNat 32 seq
  payload : ∀ i b, i < 44 → c.payload[i]? = some b → frame (16 + i) = b
  checksum : validChecksum frame = true

theorem FrameOf.congr {frame frame' : Memory} {seq : Nat} {c : LogCall} (h : FrameOf frame seq c)
    (he : ∀ i < 64, frame' i = frame i) : FrameOf frame' seq c where
  marker := by rw [he 0 (by decide), h.marker]
  msgType := by rw [he 1 (by decide), h.msgType]
  seqNum := by rw [load_congr fun i hi => he (4 + i) (by omega), h.seqNum]
  payload := by
    intro i b hi hb
    rw [he (16 + i) (by omega), h.payload i b hi hb]
  checksum := by rw [validChecksum_congr he, h.checksum]

section Populate
variable {m : Memory} {frame a : Nat} {seqNum : BitVec 32} {c : LogCall}

theorem populateFields_below (h : a < frame) : populateFields m frame seqNum c a = m a := by
  rw [populateFields, store_of_lt (by omega), store_of_lt (by omega), store_of_lt (by omega),
    store_of_lt (by omega), store_of_lt (by omega), store_of_lt h]

theorem populate_below (h : a < frame) : populate m frame seqNum c a = m a := by
  rw [populate, store_of_lt (by omega), populateFields_below h]

theorem populate_above (h : frame + 64 ≤ a) (hp : frame + 16 + c.payload.length ≤ a) :
    populate m frame seqNum c a = m a := by
  rw [populate, store_of_ge (by rw [length_leBytes]; omega), populateFields, store_of_ge hp,
    store_of_ge (by rw [length_leBytes]; omega), store_of_ge (by rw [length_leBytes]; omega),
    store_of_ge (by rw [length_leBytes]; omega), store_of_ge (by simp; omega),
    store_of_ge (by simp; omega)]

theorem populate_field (h : a < frame + 60) :
    populate m frame seqNum c a = populateFields m frame seqNum c a := by
  rw [populate, store_of_lt h]

theorem populateFields_marker : populateFields m frame seqNum c frame = validFrameMarker := by
  rw [populateFields, store_of_lt (by omega), store_of_lt (by omega), store_of_lt (by omega),
    store_of_lt (by omega), store_of_lt (by omega), store_singleton]

theorem populateFields_msgType : populateFields m frame seqNum c (frame + 1) = c.msgType := by
  rw [populateFields, store_of_lt (by omega), store_of_lt (by omega), store_of_lt (by omega),
    store_of_lt (by omega), store_singleton]

theorem populateFields_seqNum {i : Nat} (hi : i < 4) :
    populateFields m frame seqNum c (frame + 4 + i) = seqNum.extractLsb' (8 * i) 8 := by
  rw [populateFields, store_of_lt (by omega), store_of_lt (by omega)]
  exact store_of_mem (getElem?_leBytes seqNum hi)

theorem populateFields_payload {i : Nat} {b : Byte} (hb : c.payload[i]? = some b) :
    populateFields m frame seqNum c (frame + 16 + i) = b := by
  rw [populateFields]
  exact store_of_mem hb

theorem populate_checksum :
    validChecksum (fun i => populate m frame seqNum c (frame + i)) = true := by
  have hcrc : (calculateCrc32 fun i => populate m frame seqNum c (frame + i)) =
      calculateCrc32 fun i => populateFields m frame seqNum c (frame + i) :=
    calculateCrc32_congr fun i hi => populate_field (by omega)
  rw [validChecksum, decide_eq_true_iff, hcrc]
  symm
  apply load_of_bytes
  intro i hi
  rw [← Nat.add_assoc, populate]
  exact store_of_mem (getElem?_leBytes _ hi)

theorem populate_frameOf {seq : Nat} (hs : seqNum = BitVec.ofNat 32 seq) :
    FrameOf (fun i => populate m frame seqNum c (frame + i)) seq c where
  marker := by rw [Nat.add_zero, populate_field (by omega), populateFields_marker]
  msgType := by rw [populate_field (by omega), populateFields_msgType]
  seqNum := by
    apply load_of_bytes
    intro i hi
    rw [populate_field (by omega), ← Nat.add_assoc, populateFields_seqNum hi, hs]
  payload := by
    intro i b hi hb
    rw [populate_field (by omega), ← Nat.add_assoc, populateFields_payload hb]
  checksum := populate_checksum

end Populate

/-- The log `l` is `l₀` after calls that all found room: their frames stand behind those of
`l₀`, which nobody touched. -/
structure Appended (l₀ l : PayloadLog) (calls : List LogCall) : Prop where
  curr : l.logger.curr = l₀.logger.curr + frameSize * calls.length
  seqNum : l.currSeqNum = l₀.currSeqNum + BitVec.ofNat 64 calls.length
  before : ∀ a < l₀.logger.curr, l.logger.mem a = l₀.logger.mem a
  frames : ∀ j c, calls[j]? = some c →
    FrameOf (fun i => l.logger.mem (l₀.logger.curr + frameSize * j + i))
      (l₀.currSeqNum.toNat + j) c

section Append
variable {l₀ l : PayloadLog} {calls : List LogCall}

theorem Appended.nil (l : PayloadLog) : Appended l l [] where
  curr := rfl
  seqNum := (BitVec.add_zero _).symm
  before := fun _ _ => rfl
  frames := by simp

theorem logPayload_of_room (hroom : l.logger.curr + frameSize ≤ fileSize) (c : LogCall) :
    logPayload l c =
      ⟨⟨populate l.logger.mem l.logger.curr (l.currSeqNum.setWidth 32) c,
        l.logger.curr + frameSize⟩, l.currSeqNum + 1#64⟩ := by
  rw [logPayload, MmapLogger.reserveFrame, if_neg (Nat.not_lt.mpr hroom)]

theorem logPayload_of_full (hfull : fileSize < l.logger.curr + frameSize) (c : LogCall) :
    logPayload l c = l := by
  rw [logPayload, MmapLogger.reserveFrame, if_pos hfull]

theorem Appended.one (hroom : l.logger.curr + frameSize ≤ fileSize) (c : LogCall) :
    Appended l (logPayload l c) [c] := by
  rw [logPayload_of_room hroom]
  refine ⟨rfl, rfl, fun a ha => populate_below ha, ?_⟩
  intro j d hd
  have hseq : l.currSeqNum.setWidth 32 = BitVec.ofNat 32 (l.currSeqNum.toNat + 0) := by
    apply BitVec.eq_of_toNat_eq
    simp only [BitVec.toNat_setWidth, BitVec.toNat_ofNat, Nat.add_zero]
  cases j with
  | zero =>
    cases hd
    exact populate_frameOf hseq
  | succ j => simp at hd

/-- Frames once written stay as they are. -/
theorem Appended.trans {l' : PayloadLog} {more : List LogCall} (h : Appended l₀ l calls)
    (h' : Appended l l' more) : Appended l₀ l' (calls ++ more) where
  curr := by rw [h'.curr, h.curr, List.length_append, Nat.mul_add, Nat.add_assoc]
  seqNum := by rw [h'.seqNum, h.seqNum, List.length_append, BitVec.ofNat_add, BitVec.add_assoc]
  before := by
    intro a ha
    have hcurr := h.curr
    rw [h'.before a (by omega), h.before a ha]
  frames := by
    intro j c hc
    obtain hlt | hge := Nat.lt_or_ge j calls.length
    · rw [List.getElem?_append_left hlt] at hc
      apply (h.frames j c hc).congr
      intro i hi
      have hbelow : l₀.logger.curr + frameSize * j + i < l.logger.curr := by
        rw [h.curr, frameSize]
        omega
      exact h'.before _ hbelow
    · rw [List.getElem?_append_right hge] at hc
      have hf := h'.frames (j - calls.length) c hc
      have hpos : l.logger.curr + frameSize * (j - calls.length) =
          l₀.logger.curr + frameSize * j := by
        rw [h.curr, frameSize]
        omega
      rw [hpos] at hf
      refine ⟨hf.marker, hf.msgType, ?_, hf.payload, hf.checksum⟩
      rw [hf.seqNum, h.seqNum]
      apply BitVec.eq_of_toNat_eq
      simp only [BitVec.toNat_add, BitVec.toNat_ofNat]
      omega

theorem appended_logAll (calls : List LogCall)
    (hroom : l.logger.curr + frameSize * calls.length ≤ fileSize) :
    Appended l (calls.foldl logPayload l) calls := by
  induction calls generalizing l with
  | nil => exact .nil l
  | cons c cs ih =>
    rw [List.length_cons, Nat.mul_succ] at hroom
    have hone : Appended l (logPayload l c) [c] := .one (by omega) c
    have hcurr : (logPayload l c).logger.curr = l.logger.curr + frameSize := hone.curr
    exact hone.trans (ih (by omega))

end Append

structure Written (l : PayloadLog) (calls : List LogCall) : Prop where
  curr : l.logger.curr = frameSize * calls.length
  bounded : calls.length ≤ 2^24
  seqNum : l.currSeqNum = BitVec.ofNat 64 calls.length
  frames : ∀ k c, calls[k]? = some c → FrameOf (frameAt l.logger.mem k) k c

theorem Written.new : Written .new [] where
  curr := rfl
  bounded := by decide
  seqNum := rfl
  frames := by simp

section Written
variable {l : PayloadLog} {calls : List LogCall}

theorem Written.appended (h : Written l calls) : Appended .new l calls where
  curr := h.curr.trans (Nat.zero_add _).symm
  seqNum := h.seqNum.trans (BitVec.zero_add _).symm
  before := fun _ ha => absurd ha (Nat.not_lt_zero _)
  frames := by
    intro j c hc
    have hzero : PayloadLog.new.logger.curr + frameSize * j = frameSize * j := Nat.zero_add _
    have hseq : PayloadLog.new.currSeqNum.toNat + j = j := Nat.zero_add j
    rw [hzero, hseq]
    exact h.frames j c hc

theorem Appended.written (h : Appended .new l calls) (hb : calls.length ≤ 2^24) :
    Written l calls where
  curr := h.curr.trans (Nat.zero_add _)
  bounded := hb
  seqNum := h.seqNum.trans (BitVec.zero_add _)
  frames := by
    intro j c hc
    have hf := h.frames j c hc
    have hzero : PayloadLog.new.logger.curr + frameSize * j = frameSize * j := Nat.zero_add _
    have hseq : PayloadLog.new.currSeqNum.toNat + j = j := Nat.zero_add j
    rw [hzero, hseq] at hf
    exact hf

theorem Written.append (h : Written l calls) (hroom : calls.length < 2^24) (c : LogCall) :
    Written (logPayload l c) (calls ++ [c]) := by
  have hfit : l.logger.curr + frameSize ≤ fileSize := by
    rw [h.curr, fileSize, frameSize]
    omega
  exact (h.appended.trans (.one hfit c)).written (by rw [List.length_append]; exact hroom)

/-- A call without room changes nothing. -/
theorem Written.full (h : Written l calls) (hfull : calls.length = 2^24) (c : LogCall) :
    logPayload l c = l := by
  apply logPayload_of_full
  rw [h.curr, hfull, fileSize, frameSize]
  decide

theorem Written.logPayload (h : Written l calls) (c : LogCall) :
    Written (logPayload l c) ((calls ++ [c]).take (2^24)) := by
  obtain hlt | hge := Nat.lt_or_ge calls.length (2^24)
  · have hall : (calls ++ [c]).take (2^24) = calls ++ [c] :=
      List.take_of_length_le (by rw [List.length_append]; exact hlt)
    rw [hall]
    exact h.append hlt c
  · have heq : calls.length = 2^24 := Nat.le_antisymm h.bounded hge
    have hall : (calls ++ [c]).take (2^24) = calls := by
      rw [List.take_append_of_le_length heq.ge, ← heq, List.take_length]
    rw [hall, h.full heq]
    exact h

end Written

/-- The log a run of calls leaves: one frame for each of the first two to the 24. -/
theorem written_logAll (calls : List LogCall) :
    Written (calls.foldl logPayload .new) (calls.take (2^24)) := by
  have hgen : ∀ (l : PayloadLog) (done : List LogCall), Written l (done.take (2^24)) →
      Written (calls.foldl logPayload l) ((done ++ calls).take (2^24)) := by
    induction calls with
    | nil =>
      intro l done h
      simpa using h
    | cons c cs ih =>
      intro l done h
      have hc := h.logPayload c
      rw [List.append_cons]
      apply ih
      have ht : (done.take (2^24) ++ [c]).take (2^24) = (done ++ [c]).take (2^24) := by
        rw [List.take_append, List.take_append, List.take_take, List.length_take, Nat.min_self]
        congr 2
        omega
      rw [ht] at hc
      exact hc
  exact hgen .new [] Written.new

theorem written_logAll_of_le {calls : List LogCall} (h : calls.length ≤ 2^24) :
    Written (calls.foldl logPayload .new) calls := by
  have hw := written_logAll calls
  rw [List.take_of_length_le h] at hw
  exact hw

/-- Behind the last frame at most two bytes have been written to. -/
theorem logPayload_untouched {l : PayloadLog} {c : LogCall} (hc : c.payload.length ≤ 50)
    (h : ∀ a, l.logger.curr + 2 ≤ a → l.logger.mem a = 0#8) :
    ∀ a, (logPayload l c).logger.curr + 2 ≤ a → (logPayload l c).logger.mem a = 0#8 := by
  intro a
  rw [logPayload, MmapLogger.reserveFrame]
  split_ifs with hfull
  · exact h a
  · intro ha
    dsimp only [frameSize] at ha ⊢
    rw [populate_above (by omega) (by omega)]
    exact h a (by omega)

theorem logAll_untouched {calls : List LogCall} (hc : ∀ c ∈ calls, c.payload.length ≤ 50) :
    ∀ a, (calls.foldl logPayload .new).logger.curr + 2 ≤ a →
      (calls.foldl logPayload .new).logger.mem a = 0#8 := by
  induction calls using List.reverseRecOn with
  | nil => exact fun _ _ => rfl
  | append_singleton cs c ih =>
    rw [List.foldl_append]
    apply logPayload_untouched (hc c (by simp))
    exact ih fun d hd => hc d (List.mem_append_left _ hd)

/-- Bits flipped in the log, as seen in one frame. -/
theorem bit_frameAt_flipBits (m : Memory) (positions : Finset Nat) (k i : Nat) :
    bit (frameAt (flipBits m positions) k) i =
      xor (bit (frameAt m k) i) (decide (512 * k + i ∈ positions)) := by
  have hbit : ∀ m : Memory, bit (frameAt m k) i = bit m (512 * k + i) := by
    intro m
    rw [bit, bit, frameAt, frameSize, show (512 * k + i) / 8 = 64 * k + i / 8 by omega,
      show (512 * k + i) % 8 = i % 8 by omega]
  rw [hbit, hbit, bit_flipBits]

/-- A bid of 5 shares at 7 with reference number 1, and its cancellation. -/
def orderAndCancel : List LogCall :=
  [⟨[65, 0, 1, 0, 0, 0, 0, 0, 0, 0, 1, 0, 0, 0, 0, 0, 0, 0, 1, 66, 0, 0, 0, 5,
      65, 66, 67, 68, 32, 32, 32, 32, 0, 0, 0, 7], 65#8, 100#64⟩,
    ⟨[88, 0, 1, 0, 0, 0, 0, 0, 0, 0, 2, 0, 0, 0, 0, 0, 0, 0, 1, 0, 0, 0, 5], 88#8, 200#64⟩]

end MarketDataBook
