import MarketDataBook.BlockFraming

/-! The payload field of a frame has 44 bytes and `log_payload` copies what the length table
says. The longer messages lose their end to the checksum and run into the frame behind. -/
namespace MarketDataBook
open ByteMemory

/-- The call writes to the frame it reserves only, and the message is there in full. -/
structure AppendIntact (l : PayloadLog) (c : LogCall) : Prop where
  outside : ∀ a, a < l.logger.curr ∨ l.logger.curr + frameSize ≤ a →
    (logPayload l c).logger.mem a = l.logger.mem a
  payload : slice (logPayload l c).logger.mem (l.logger.curr + 16) c.payload.length = c.payload

section Frame
variable {l : PayloadLog} {c c' : LogCall}

theorem logPayload_mem (hroom : l.logger.curr + frameSize ≤ fileSize) (c : LogCall) :
    (logPayload l c).logger.mem =
      populate l.logger.mem l.logger.curr (l.currSeqNum.setWidth 32) c := by
  rw [logPayload_of_room hroom]

theorem appendIntact_of_le (hroom : l.logger.curr + frameSize ≤ fileSize)
    (hlen : c.payload.length ≤ 44) : AppendIntact l c := by
  refine ⟨?_, ?_⟩
  · intro a ha
    rw [logPayload_mem hroom]
    obtain ha | ha := ha
    · exact populate_below ha
    · rw [frameSize] at ha
      exact populate_above ha (by omega)
  · rw [logPayload_mem hroom]
    apply List.ext_getElem?
    intro i
    obtain hi | hi := Nat.lt_or_ge i c.payload.length
    · have hb := List.getElem?_eq_getElem hi
      rw [getElem?_slice hi, populate_field (by omega), populateFields_payload hb, hb]
    · rw [List.getElem?_eq_none (by rw [length_slice]; exact hi), List.getElem?_eq_none hi]

/-- The fields before the checksum depend on the first 44 bytes of the payload. -/
theorem populateFields_congr {m : Memory} {frame : Nat} {seqNum : BitVec 32}
    (ht : c'.msgType = c.msgType) (hr : c'.rdtsc = c.rdtsc)
    (hp : ∀ i < 44, c'.payload[i]? = c.payload[i]?) {i : Nat} (hi : i < 60) :
    populateFields m frame seqNum c' (frame + i) = populateFields m frame seqNum c (frame + i) := by
  rw [populateFields, populateFields, ht, hr]
  apply store_congr
  intro hle
  exact hp _ (by omega)

theorem populate_crc_congr {m : Memory} {frame : Nat} {seqNum : BitVec 32}
    (ht : c'.msgType = c.msgType) (hr : c'.rdtsc = c.rdtsc)
    (hp : ∀ i < 44, c'.payload[i]? = c.payload[i]?) :
    populate m frame seqNum c' (frame + 60) = populate m frame seqNum c (frame + 60) := by
  have hcrc : (calculateCrc32 fun i => populateFields m frame seqNum c' (frame + i)) =
      calculateCrc32 fun i => populateFields m frame seqNum c (frame + i) :=
    calculateCrc32_congr fun i hi => populateFields_congr ht hr hp hi
  have hfirst : ∀ c : LogCall, populate m frame seqNum c (frame + 60 + 0) =
      (calculateCrc32 fun i => populateFields m frame seqNum c (frame + i)).extractLsb' 0 8 := by
    intro c
    rw [populate]
    exact store_of_mem (getElem?_leBytes _ (by decide))
  rw [← Nat.add_zero (frame + 60), hfirst, hfirst, hcrc]

/-- Two payloads that differ in byte 44 only: the checksum takes the place of one of them. -/
theorem not_both_intact (c c' : LogCall) (hroom : l.logger.curr + frameSize ≤ fileSize)
    (ht : c'.msgType = c.msgType) (hr : c'.rdtsc = c.rdtsc)
    (hp : ∀ i < 44, c'.payload[i]? = c.payload[i]?) (hlen : 44 < c.payload.length)
    (hlen' : 44 < c'.payload.length) (hne : c'.payload[44]? ≠ c.payload[44]?) :
    ¬ (AppendIntact l c ∧ AppendIntact l c') := by
  rintro ⟨h, h'⟩
  have hat : ∀ {c : LogCall}, 44 < c.payload.length → AppendIntact l c → c.payload[44]? =
      some (populate l.logger.mem l.logger.curr (l.currSeqNum.setWidth 32) c
        (l.logger.curr + 60)) := by
    intro c hlen h
    have hs := congrArg (fun bytes => bytes[44]?) h.payload
    rw [logPayload_mem hroom] at hs
    exact hs.symm.trans (getElem?_slice hlen)
  apply hne
  rw [hat hlen h, hat hlen' h', populate_crc_congr ht hr hp]

end Frame

def longMessage (t : Byte) (len : Nat) (b : Byte) : List Byte :=
  (t :: List.replicate (len - 1) 0#8).set 44 b

section LongMessage
variable {t : Byte} {len : Nat}

theorem longMessage_length (h : 44 < len) (b : Byte) : (longMessage t len b).length = len := by
  rw [longMessage, List.length_set, List.length_cons, List.length_replicate]
  omega

theorem longMessage_complete (hl : messageLength t = some len) (h : 44 < len) (b : Byte) :
    Complete (longMessage t len b) :=
  ⟨t, rfl, by rw [hl, longMessage_length h]⟩

theorem longMessage_getElem (h : 44 < len) (b : Byte) : (longMessage t len b)[44]? = some b := by
  rw [longMessage, List.getElem?_set_self]
  rw [List.length_cons, List.length_replicate]
  omega

/-- Two of them differ in byte 44 only, so one of them does not survive. -/
theorem longMessage_not_intact {l : PayloadLog} (hroom : l.logger.curr + frameSize ≤ fileSize)
    (h : 44 < len) (rdtsc : BitVec 64) : ∃ b,
    ¬ AppendIntact l ⟨longMessage t len b, messageTag (longMessage t len b), rdtsc⟩ := by
  by_contra hall
  push Not at hall
  refine not_both_intact ⟨longMessage t len 0#8, _, rdtsc⟩ ⟨longMessage t len 1#8, _, rdtsc⟩
    hroom rfl rfl ?_ ?_ ?_ ?_ ⟨hall 0#8, hall 1#8⟩
  · intro i hi
    dsimp only [longMessage]
    rw [List.getElem?_set_ne (by omega), List.getElem?_set_ne (by omega)]
  · rw [longMessage_length h]
    exact h
  · rw [longMessage_length h]
    exact h
  · rw [longMessage_getElem h, longMessage_getElem h]
    decide

end LongMessage

/-- Whatever the log, an append of a message of type `t` is intact for every content exactly
when the type's length fits the payload field. -/
theorem append_intact_iff (l : PayloadLog) (hroom : l.logger.curr + frameSize ≤ fileSize)
    (t : Byte) (len : Nat) (hl : messageLength t = some len) (rdtsc : BitVec 64) :
    (∀ m, Complete m → m.head? = some t → AppendIntact l ⟨m, messageTag m, rdtsc⟩) ↔
      len ≤ 44 := by
  constructor
  · intro h
    by_contra hlong
    obtain ⟨b, hb⟩ := longMessage_not_intact (t := t) hroom (Nat.not_le.mp hlong) rdtsc
    exact hb (h _ (longMessage_complete hl (Nat.not_le.mp hlong) b) rfl)
  · intro hle m hm ht
    obtain ⟨s, hs, hlen⟩ := hm
    rw [ht, Option.some.injEq] at hs
    rw [← hs, hl, Option.some.injEq] at hlen
    apply appendIntact_of_le hroom
    dsimp only
    omega

theorem append_intact_by_type :
    (∀ m, Complete m → m.head? = some 65#8 → AppendIntact .new ⟨m, messageTag m, 0#64⟩) ∧
      ¬ ∀ m, Complete m → m.head? = some 73#8 → AppendIntact .new ⟨m, messageTag m, 0#64⟩ := by
  refine ⟨(append_intact_iff .new (by decide) 65#8 36 (by decide) 0#64).mpr (by decide), ?_⟩
  intro h
  have hle := (append_intact_iff .new (by decide) 73#8 50 (by decide) 0#64).mp h
  exact absurd hle (by decide)

def imbalanceMessage : List Byte := 73#8 :: List.replicate 49 1#8

def imbalanceCall : LogCall := ⟨imbalanceMessage, 45#8, 0#64⟩

section Imbalance
variable {l : PayloadLog}

theorem imbalanceCall_ofMessage : imbalanceCall.OfMessage :=
  ⟨⟨73#8, rfl, by decide⟩, by decide⟩

/-- Byte 48 of the message is the marker of the frame behind. -/
theorem imbalance_next_marker (hroom : l.logger.curr + frameSize ≤ fileSize) :
    (logPayload l imbalanceCall).logger.mem (l.logger.curr + 64) = 1#8 := by
  have hb : imbalanceCall.payload[48]? = some 1#8 := by decide
  have hout : l.logger.curr + 60 + (leBytes 4 (calculateCrc32 fun i =>
      populateFields l.logger.mem l.logger.curr (l.currSeqNum.setWidth 32) imbalanceCall
        (l.logger.curr + i))).length ≤ l.logger.curr + 16 + 48 := by
    rw [length_leBytes]
  rw [logPayload_mem hroom, populate]
  exact (store_of_ge hout).trans (populateFields_payload hb)

theorem imbalance_not_intact (hroom : l.logger.curr + frameSize ≤ fileSize)
    (hzero : l.logger.mem (l.logger.curr + 64) = 0#8) : ¬ AppendIntact l imbalanceCall := by
  intro h
  have hout := h.outside (l.logger.curr + 64) (Or.inr (Nat.le_refl _))
  rw [imbalance_next_marker hroom, hzero] at hout
  cases hout

theorem imbalances_curr {n : Nat} (h : n ≤ 2^24) :
    ((List.replicate n imbalanceCall).foldl logPayload .new).logger.curr = frameSize * n := by
  have hle : (List.replicate n imbalanceCall).length ≤ 2^24 := by
    rw [List.length_replicate]
    exact h
  rw [(written_logAll_of_le hle).curr, List.length_replicate]

theorem imbalances_ofMessage (n : Nat) :
    ∀ c ∈ List.replicate n imbalanceCall, c.OfMessage := by
  intro c hc
  rw [List.eq_of_mem_replicate hc]
  exact imbalanceCall_ofMessage

theorem imbalances_untouched (n : Nat) : ∀ a,
    ((List.replicate n imbalanceCall).foldl logPayload .new).logger.curr + 2 ≤ a →
      ((List.replicate n imbalanceCall).foldl logPayload .new).logger.mem a = 0#8 := by
  apply logAll_untouched
  intro c hc
  rw [List.eq_of_mem_replicate hc]
  decide

end Imbalance

/-- In the first frame of the log the message reaches into the second one; in the last frame it
writes past the end of the mapped file. -/
theorem imbalance_spills : imbalanceCall.OfMessage ∧ ¬ AppendIntact .new imbalanceCall ∧
    ∃ calls : List LogCall, (∀ c ∈ calls, c.OfMessage) ∧
      (calls.foldl logPayload .new).logger.curr + frameSize = fileSize ∧
      (calls.foldl logPayload .new).logger.mem fileSize = 0#8 ∧
      (logPayload (calls.foldl logPayload .new) imbalanceCall).logger.mem fileSize = 1#8 := by
  -- all but the last of the frames the file has room for
  obtain ⟨n, hn⟩ : ∃ n, n + 1 = 2^24 := ⟨2^24 - 1, rfl⟩
  have hcurr := imbalances_curr (n := n) (by omega)
  have huntouched := imbalances_untouched n
  refine ⟨imbalanceCall_ofMessage, imbalance_not_intact (by decide) rfl,
    List.replicate n imbalanceCall, imbalances_ofMessage n, ?_⟩
  generalize (List.replicate n imbalanceCall).foldl logPayload .new = l at hcurr huntouched ⊢
  have hend : l.logger.curr + frameSize = fileSize := by
    rw [hcurr, frameSize, fileSize]
    omega
  have hmark := imbalance_next_marker hend.le
  have hfile : l.logger.curr + 64 = fileSize := hend
  rw [hfile] at hmark
  exact ⟨hend, huntouched _ (by omega), hmark⟩

end MarketDataBook
