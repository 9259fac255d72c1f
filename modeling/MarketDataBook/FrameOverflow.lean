import MarketDataBook.MulticastReceiver
import Mathlib.Logic.Function.Iterate

/-! What an iteration of `simulate_packets` writes. The copied length is the prefix in the file
and is compared with nothing, so a record longer than a frame runs on into the next one. -/
namespace MarketDataBook
open ByteMemory

def OnlyFrame (ring ring' : Memory) (idx : Nat) : Prop :=
  ∀ a, a < rxFrame idx ∨ rxFrame idx + rxFrameSize ≤ a → ring' a = ring a

section
variable {ring ring' : Memory} {idx : Nat}

theorem OnlyFrame.trans {ring'' : Memory} (h : OnlyFrame ring ring' idx)
    (h' : OnlyFrame ring' ring'' idx) : OnlyFrame ring ring'' idx :=
  fun a ha => (h' a ha).trans (h a ha)

theorem store_onlyFrame {offset : Nat} {bytes : List Byte}
    (hfit : offset + bytes.length ≤ rxFrameSize) :
    OnlyFrame ring (store ring (rxFrame idx + offset) bytes) idx := by
  rintro a (hlt | hge)
  · exact store_of_lt (by omega)
  · exact store_of_ge (by omega)

theorem leBytes_onlyFrame (offset n : Nat) (v : BitVec (8 * n)) (hfit : offset + n ≤ rxFrameSize) :
    OnlyFrame ring (store ring (rxFrame idx + offset) (leBytes n v)) idx :=
  store_onlyFrame (by rw [length_leBytes]; exact hfit)

theorem setHeader_onlyFrame (messageLen : BitVec 16) :
    OnlyFrame ring (setHeader ring (rxFrame idx) messageLen) idx :=
  (((leBytes_onlyFrame 8 4 _ (by decide)).trans (leBytes_onlyFrame 4 4 _ (by decide))).trans
    (leBytes_onlyFrame 12 2 _ (by decide))).trans (leBytes_onlyFrame 14 2 _ (by decide))

theorem setStatus_onlyFrame (status : BitVec 32) :
    OnlyFrame ring (setStatus ring (rxFrame idx) status) idx := by
  have hs : OnlyFrame ring (store ring (rxFrame idx + 0) (leBytes 4 status)) idx :=
    leBytes_onlyFrame 0 4 status (by decide)
  rw [Nat.add_zero] at hs
  exact hs

end

namespace MockReceiver

/-- One iteration of the loop of `simulate_packets`, through to the next loop head if the
status lets it. -/
def iteration (file : List Byte) (s : MockReceiver) : MockReceiver :=
  (simulatePackets file)^[5] { s with simulatePc := .next }

def afterRecord (ring : Memory) (idx : Nat) (messageLen : BitVec 16) (record : List Byte) : Memory :=
  setStatus (store (setHeader ring (rxFrame idx) messageLen) (rxFrame idx + 32) record)
    (rxFrame idx) tpStatusUser

theorem afterRecord_onlyFrame {ring : Memory} {idx : Nat} {messageLen : BitVec 16}
    {record : List Byte} (hfit : 32 + record.length ≤ rxFrameSize) :
    OnlyFrame ring (afterRecord ring idx messageLen record) idx :=
  ((setHeader_onlyFrame messageLen).trans (store_onlyFrame hfit)).trans
    (setStatus_onlyFrame tpStatusUser)

/-- The record's bytes from 2016 on land behind the frame. -/
theorem afterRecord_past {ring : Memory} {idx k : Nat} {messageLen : BitVec 16}
    {record : List Byte} {b : Byte} (hb : record[2016 + k]? = some b) :
    afterRecord ring idx messageLen record (rxFrame idx + rxFrameSize + k) = b := by
  have haddr : rxFrame idx + rxFrameSize + k = rxFrame idx + 32 + (2016 + k) := by
    rw [rxFrameSize]
    omega
  rw [afterRecord, setStatus_onlyFrame tpStatusUser _ (by omega), haddr]
  exact store_of_mem hb

theorem iteration_eq (file : List Byte) (s : MockReceiver) :
    iteration file s =
      (simulatePackets file)^[4] (nextRecord file { s with simulatePc := .next }) := rfl

theorem iteration_of_end {file : List Byte} {s : MockReceiver}
    (h : completeRecords (file.drop s.data) = []) : (iteration file s).ring = s.ring := by
  obtain ⟨data, heq, -⟩ | ⟨messageLen, -, -, hdrop⟩ :=
    nextRecord_cases file { s with simulatePc := .next }
  · rw [iteration_eq, heq, Function.iterate_fixed rfl]
  · rw [h] at hdrop
    cases hdrop

/-- With a complete record ahead, the iteration waits for the frame and then fills it. -/
theorem iteration_of_record {file record : List Byte} {rest : List (List Byte)} {s : MockReceiver}
    (h : completeRecords (file.drop s.data) = record :: rest) :
    ∃ messageLen, (iteration file s).ring =
      if tpStatus s.ring (rxFrame s.frameIdx) &&& tpStatusUser ≠ 0 then s.ring
      else afterRecord s.ring s.frameIdx messageLen record := by
  obtain ⟨data, -, hend⟩ | ⟨messageLen, heq, -, hdrop⟩ :=
    nextRecord_cases file { s with simulatePc := .next }
  · rw [h] at hend
    cases hend
  · rw [h] at hdrop
    obtain ⟨hrec, -⟩ := List.cons.inj hdrop
    refine ⟨messageLen, ?_⟩
    rw [iteration_eq, heq]
    split_ifs with hstatus
    · have hwait : simulatePackets file
          { s with data := s.data + 2, simulatePc := .wait messageLen } =
          { s with data := s.data + 2, simulatePc := .wait messageLen } := if_pos hstatus
      rw [Function.iterate_fixed hwait]
    · have hfill : simulatePackets file
          { s with data := s.data + 2, simulatePc := .wait messageLen } =
          { s with data := s.data + 2, simulatePc := .fill messageLen } := if_neg hstatus
      have hmac := (setHeader_set s.ring s.frameIdx messageLen).mac
      rw [Function.iterate_succ_apply, hfill, afterRecord, hrec, ← hmac]
      rfl

def RecordFits (file : List Byte) (s : MockReceiver) : Prop :=
  ∀ record ∈ (completeRecords (file.drop s.data)).head?,
    record.length ≤ rxFrameSize - tpacketAlign sizeofTpacket2Hdr

def markedRing (addr : Nat) (b : Byte) : Memory := Function.update (fun _ => 0#8) addr b

theorem tpStatus_markedRing {idx addr : Nat} (b : Byte) (h : rxFrame idx + rxFrameSize ≤ addr) :
    tpStatus (markedRing addr b) (rxFrame idx) = tpStatusKernel := by
  have hsize : rxFrameSize = 2048 := rfl
  apply load_of_bytes
  intro i hi
  rw [markedRing, Function.update_of_ne (by omega), tpStatusKernel, BitVec.extractLsb'_zero]

theorem byte_ne_not (b : Byte) : b ≠ ~~~b := by
  decide +revert

/-- A record that does not fit changes the byte behind the frame of some ring. -/
theorem long_record_spills {file record : List Byte} {rest : List (List Byte)} {s : MockReceiver}
    (hrecords : completeRecords (file.drop s.data) = record :: rest)
    (hlong : rxFrameSize < 32 + record.length) :
    ∃ ring, ¬ OnlyFrame ring (iteration file { s with ring := ring }).ring s.frameIdx := by
  have hsize : rxFrameSize = 2048 := rfl
  have hb := List.getElem?_eq_getElem (show 2016 + 0 < record.length by omega)
  generalize record[2016 + 0] = b at hb
  refine ⟨markedRing (rxFrame s.frameIdx + rxFrameSize) (~~~b), ?_⟩
  intro h
  obtain ⟨messageLen, heq⟩ := iteration_of_record
    (s := { s with ring := markedRing (rxFrame s.frameIdx + rxFrameSize) (~~~b) }) hrecords
  have hsame := h (rxFrame s.frameIdx + rxFrameSize + 0) (by omega)
  dsimp only at heq
  rw [heq, tpStatus_markedRing _ (Nat.le_refl _), if_neg (by decide), afterRecord_past hb,
    Nat.add_zero, markedRing, Function.update_self] at hsame
  exact byte_ne_not b hsame

theorem recordFits_cons {file record : List Byte} {rest : List (List Byte)} {s : MockReceiver}
    (hrecords : completeRecords (file.drop s.data) = record :: rest) :
    RecordFits file s ↔ 32 + record.length ≤ rxFrameSize := by
  have hbound : rxFrameSize - tpacketAlign sizeofTpacket2Hdr = 2016 := by decide
  have hsize : rxFrameSize = 2048 := rfl
  rw [RecordFits, hrecords, hbound, hsize]
  simp only [List.head?_cons, Option.mem_some_iff, forall_eq']
  omega

/-- Wherever an iteration stands in whatever file: it changes nothing outside its own frame, be
the ring as it may, exactly when the record it accepts fits in the frame. -/
theorem iteration_onlyFrame_iff (file : List Byte) (s : MockReceiver) :
    (∀ ring, OnlyFrame ring (iteration file { s with ring := ring }).ring s.frameIdx) ↔
      RecordFits file s := by
  cases hrecords : completeRecords (file.drop s.data) with
  | nil =>
    refine iff_of_true ?_ (by rw [RecordFits, hrecords]; intro _ h; cases h)
    intro ring
    rw [iteration_of_end (s := { s with ring := ring }) hrecords]
    exact fun _ _ => rfl
  | cons record rest =>
    rw [recordFits_cons hrecords]
    constructor
    · intro h
      by_contra hlong
      obtain ⟨ring, hring⟩ := long_record_spills hrecords (Nat.lt_of_not_ge hlong)
      exact hring (h ring)
    · intro hfit ring
      obtain ⟨messageLen, heq⟩ := iteration_of_record (s := { s with ring := ring }) hrecords
      rw [heq]
      split_ifs
      · exact fun _ _ => rfl
      · exact afterRecord_onlyFrame hfit

def longRecordFile : List Byte := 7#8 :: 228#8 :: List.replicate 2020 1#8

theorem completeRecords_longRecordFile :
    completeRecords longRecordFile = [List.replicate 2020 1#8] := by
  have hlen : bigEndian [7#8, 228#8] = 2020 := by decide
  rw [longRecordFile, completeRecords, hlen, List.length_replicate, if_neg (Nat.lt_irrefl _),
    List.take_of_length_le (by rw [List.length_replicate]),
    List.drop_of_length_le (by rw [List.length_replicate]), completeRecords_short (by decide)]

/-- The first frame's record hands the second frame, which is the kernel's, to the poller. -/
theorem long_record_sets_next_status :
    tpStatus start.ring (rxFrame 1) = tpStatusKernel ∧
      tpStatus (iteration longRecordFile start).ring (rxFrame 1) = 0x01010101#32 ∧
      ¬ OnlyFrame start.ring (iteration longRecordFile start).ring start.frameIdx := by
  have hfree : ¬ tpStatus start.ring (rxFrame start.frameIdx) &&& tpStatusUser ≠ 0 := by decide
  have hrecords : completeRecords (longRecordFile.drop start.data) = [List.replicate 2020 1#8] :=
    completeRecords_longRecordFile
  obtain ⟨messageLen, heq⟩ := iteration_of_record hrecords
  rw [if_neg hfree] at heq
  have hone : ∀ i < 4, (iteration longRecordFile start).ring (rxFrame 1 + i) = 1#8 := by
    intro i hi
    have hb : (List.replicate 2020 1#8)[2016 + i]? = some 1#8 :=
      List.getElem?_replicate_of_lt (by omega)
    rw [heq]
    exact afterRecord_past hb
  refine ⟨rfl, ?_, ?_⟩
  · apply load_of_bytes
    intro i hi
    rw [hone i hi]
    decide +revert
  · intro h
    have hsame := h (rxFrame 1 + 0) (Or.inr (by decide))
    rw [hone 0 (by decide)] at hsame
    cases hsame

end MockReceiver
end MarketDataBook
