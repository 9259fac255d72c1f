import MarketDataBook.ItchParser
import MarketDataBook.Library.FlagRing
import MarketDataBook.Library.StepRun
import Mathlib.Tactic.SplitIfs

/-! `network/MulticastReceiver.h` in mock mode: `simulate_packets` copies the records of a file
into the frames of the RX ring and `poll_simulation` hands them to `parse_block`. The ring is
one piece of memory; a frame changes hands by its status word. -/
namespace MarketDataBook
open ByteMemory

def rxBlockSize : Nat := 1 <<< 16
def rxFrameSize : Nat := 2048
def rxBlockNr : Nat := 128
def rxFrameNr : Nat := rxBlockSize * rxBlockNr / rxFrameSize

def tpStatusKernel : BitVec 32 := 0#32
def tpStatusUser : BitVec 32 := 1#32

def tpacketAlign (x : Nat) : Nat := (x + 15) / 16 * 16
def sizeofTpacket2Hdr : Nat := 32

def ntohs (v : BitVec 16) : BitVec 16 := bswap 2 v

def rxFrame (idx : Nat) : Nat := idx * rxFrameSize

def tpStatus (ring : Memory) (frame : Nat) : BitVec 32 := load ring frame 4
def tpSnaplen (ring : Memory) (frame : Nat) : BitVec 32 := load ring (frame + 8) 4
def tpMac (ring : Memory) (frame : Nat) : BitVec 16 := load ring (frame + 12) 2
def tpNet (ring : Memory) (frame : Nat) : BitVec 16 := load ring (frame + 14) 2

def setHeader (ring : Memory) (frame : Nat) (messageLen : BitVec 16) : Memory :=
  let ring := store ring (frame + 8) (leBytes 4 (messageLen.setWidth 32))
  let ring := store ring (frame + 4) (leBytes 4 (messageLen.setWidth 32))
  let ring := store ring (frame + 12) (leBytes 2 (BitVec.ofNat 16 (tpacketAlign sizeofTpacket2Hdr)))
  store ring (frame + 14) (leBytes 2 (tpMac ring frame))

def setStatus (ring : Memory) (frame : Nat) (status : BitVec 32) : Memory :=
  store ring frame (leBytes 4 status)

inductive SimulatePc where
  | next
  | wait (messageLen : BitVec 16)
  | fill (messageLen : BitVec 16)
  | copy (messageLen : BitVec 16)
  | publish (messageLen : BitVec 16)
  | finished
  deriving DecidableEq

inductive PollPc where
  | wait | parse | release | advance
  deriving DecidableEq

structure MockReceiver where
  ring : Memory
  /-- Where the producer stands in the file. -/
  data : Nat
  frameIdx : Nat
  simulatePc : SimulatePc
  currFrameIdx : Nat
  pollPc : PollPc
  /-- The payloads `parse_block` has been called with. -/
  parsed : List (List Byte)

inductive ReceiverThread where
  | simulate | poll
  deriving DecidableEq

namespace MockReceiver

/-- Anonymous mapped memory is zero, so every frame starts with the kernel. -/
def start : MockReceiver := ⟨fun _ => 0#8, 0, 0, .next, 0, .wait, []⟩

def nextRecord (file : List Byte) (s : MockReceiver) : MockReceiver :=
  if s.data < file.length then
    if file.length < s.data + 2 then { s with simulatePc := .finished }
    else
      let messageLen := ntohs (load (fun i => file.getD i 0#8) s.data 2)
      let data := s.data + 2
      if file.length < data + messageLen.toNat then
        { s with data := data, simulatePc := .finished }
      else { s with data := data, simulatePc := .wait messageLen }
  else { s with simulatePc := .finished }

def simulatePackets (file : List Byte) (s : MockReceiver) : MockReceiver :=
  let frame := rxFrame s.frameIdx
  match s.simulatePc with
  | .next => s.nextRecord file
  | .wait messageLen =>
    if tpStatus s.ring frame &&& tpStatusUser ≠ 0 then s
    else { s with simulatePc := .fill messageLen }
  | .fill messageLen =>
    { s with ring := setHeader s.ring frame messageLen, simulatePc := .copy messageLen }
  | .copy messageLen =>
    { s with
      ring := store s.ring (frame + (tpMac s.ring frame).toNat)
        ((file.drop s.data).take messageLen.toNat)
      simulatePc := .publish messageLen }
  | .publish messageLen =>
    { s with
      ring := setStatus s.ring frame tpStatusUser
      data := s.data + messageLen.toNat
      frameIdx := (s.frameIdx + 1) % rxFrameNr
      simulatePc := .next }
  | .finished => s

def pollSimulation (s : MockReceiver) : MockReceiver :=
  let frame := rxFrame s.currFrameIdx
  match s.pollPc with
  | .wait => if tpStatus s.ring frame &&& tpStatusUser = 0 then s else { s with pollPc := .parse }
  | .parse =>
    let payload := slice s.ring (frame + (tpNet s.ring frame).toNat) (tpSnaplen s.ring frame).toNat
    { s with parsed := s.parsed ++ [payload], pollPc := .release }
  | .release => { s with ring := setStatus s.ring frame tpStatusKernel, pollPc := .advance }
  | .advance => { s with currFrameIdx := (s.currFrameIdx + 1) % rxFrameNr, pollPc := .wait }

def step (file : List Byte) (s : MockReceiver) : ReceiverThread → MockReceiver
  | .simulate => s.simulatePackets file
  | .poll => s.pollSimulation

def run (file : List Byte) (schedule : List ReceiverThread) : MockReceiver :=
  schedule.foldl (step file) start

end MockReceiver

/-- What a file says: records of a big-endian length and that many bytes, up to the first one
that is cut off. -/
def completeRecords : List Byte → List (List Byte)
  | hi::lo::rest =>
    let len := bigEndian [hi, lo]
    if rest.length < len then [] else rest.take len :: completeRecords (rest.drop len)
  | _ => []
termination_by file => file.length
decreasing_by
  rw [List.length_drop, List.length_cons, List.length_cons]
  omega

def RecordsFit (file : List Byte) : Prop :=
  ∀ m ∈ completeRecords file, m.length ≤ rxFrameSize - tpacketAlign sizeofTpacket2Hdr

def SameFrame (ring ring' : Memory) (idx : Nat) : Prop :=
  ∀ a, rxFrame idx ≤ a → a < rxFrame idx + rxFrameSize → ring' a = ring a

/-- The records reach `parse_block` in order; a frame is not touched while the consumer has it;
and once the producer is done and every frame is back, all of them have arrived. -/
structure Delivers (file : List Byte) (s : MockReceiver) : Prop where
  inOrder : s.parsed <+: completeRecords file
  untouched : s.pollPc = .parse ∨ s.pollPc = .release →
    SameFrame s.ring (s.simulatePackets file).ring s.currFrameIdx
  all : s.simulatePc = .finished →
    (∀ idx < rxFrameNr, tpStatus s.ring (rxFrame idx) = tpStatusKernel) →
    s.parsed = completeRecords file

theorem completeRecords_short {file : List Byte} (h : file.length < 2) : completeRecords file = [] := by
  match file, h with
  | [], _ => rw [completeRecords]; simp
  | [_], _ => rw [completeRecords]; simp
  | _::_::_, h =>
    simp only [List.length_cons] at h
    omega

/-- The length the producer reads at `data` is that of the next record. -/
theorem completeRecords_drop (file : List Byte) (data : Nat) (h : data + 2 ≤ file.length)
    {messageLen : BitVec 16} (hl : messageLen = ntohs (load (fun i => file.getD i 0#8) data 2)) :
    completeRecords (file.drop data) =
      if file.length < data + 2 + messageLen.toNat then []
      else (file.drop (data + 2)).take messageLen.toNat ::
        completeRecords (file.drop (data + 2 + messageLen.toNat)) := by
  have hcut : file.drop data = file.getD data 0#8 :: file.getD (data + 1) 0#8 ::
      file.drop (data + 2) := by
    rw [List.drop_eq_getElem_cons (by omega), List.drop_eq_getElem_cons (i := data + 1) (by omega)]
    simp [List.getD, List.getElem?_eq_getElem (show data < file.length by omega),
      List.getElem?_eq_getElem (show data + 1 < file.length by omega)]
  have hlen : messageLen.toNat = bigEndian [file.getD data 0#8, file.getD (data + 1) 0#8] := by
    rw [hl, ntohs, toNat_bswap_load]
    rfl
  rw [hcut, completeRecords, ← hlen, List.length_drop, List.drop_drop]
  have hiff : file.length - (data + 2) < messageLen.toNat ↔
      file.length < data + 2 + messageLen.toNat := by omega
  simp only [hiff]

/-- The head of the loop either finds the data at an end or comes to a complete record. -/
theorem MockReceiver.nextRecord_cases (file : List Byte) (s : MockReceiver) :
    (∃ data, s.nextRecord file = { s with data := data, simulatePc := .finished } ∧
      completeRecords (file.drop s.data) = []) ∨
    ∃ messageLen : BitVec 16,
      s.nextRecord file = { s with data := s.data + 2, simulatePc := .wait messageLen } ∧
      s.data + 2 + messageLen.toNat ≤ file.length ∧
      completeRecords (file.drop s.data) = (file.drop (s.data + 2)).take messageLen.toNat ::
        completeRecords (file.drop (s.data + 2 + messageLen.toNat)) := by
  rw [MockReceiver.nextRecord]
  by_cases hdata : s.data < file.length
  · rw [if_pos hdata]
    by_cases hshort : file.length < s.data + 2
    · rw [if_pos hshort]
      exact Or.inl ⟨s.data, rfl, completeRecords_short (by rw [List.length_drop]; omega)⟩
    · rw [if_neg hshort]
      have hdrop := completeRecords_drop file s.data (by omega) rfl
      dsimp only
      split_ifs with hcut
      · rw [if_pos hcut] at hdrop
        exact Or.inl ⟨_, rfl, hdrop⟩
      · rw [if_neg hcut] at hdrop
        exact Or.inr ⟨_, rfl, by omega, hdrop⟩
  · rw [if_neg hdata]
    exact Or.inl ⟨s.data, rfl, completeRecords_short (by rw [List.length_drop]; omega)⟩

structure FrameHolds (ring : Memory) (idx : Nat) (message : List Byte) : Prop where
  user : tpStatus ring (rxFrame idx) &&& tpStatusUser ≠ 0
  snaplen : (tpSnaplen ring (rxFrame idx)).toNat = message.length
  net : (tpNet ring (rxFrame idx)).toNat = 32
  payload : slice ring (rxFrame idx + 32) message.length = message
  fits : 32 + message.length ≤ rxFrameSize

structure HeaderSet (ring : Memory) (idx : Nat) (messageLen : BitVec 16) : Prop where
  snaplen : (tpSnaplen ring (rxFrame idx)).toNat = messageLen.toNat
  mac : (tpMac ring (rxFrame idx)).toNat = 32
  net : (tpNet ring (rxFrame idx)).toNat = 32

section Frames
variable {ring ring' : Memory} {idx : Nat}

theorem SameFrame.load (h : SameFrame ring ring' idx) (offset n : Nat)
    (hn : offset + n ≤ rxFrameSize) :
    load ring' (rxFrame idx + offset) n = load ring (rxFrame idx + offset) n :=
  load_congr fun i hi => h _ (by omega) (by omega)

theorem SameFrame.slice (h : SameFrame ring ring' idx) {offset n : Nat}
    (hn : offset + n ≤ rxFrameSize) :
    slice ring' (rxFrame idx + offset) n = slice ring (rxFrame idx + offset) n :=
  slice_congr fun i hi => h _ (by omega) (by omega)

theorem SameFrame.status (h : SameFrame ring ring' idx) :
    tpStatus ring' (rxFrame idx) = tpStatus ring (rxFrame idx) := by
  have hl := h.load 0 4 (by decide)
  rw [Nat.add_zero] at hl
  exact hl

theorem FrameHolds.congr {message : List Byte} (h : FrameHolds ring idx message)
    (hs : SameFrame ring ring' idx) : FrameHolds ring' idx message where
  user := by rw [hs.status]; exact h.user
  snaplen := by rw [tpSnaplen, hs.load 8 4 (by decide)]; exact h.snaplen
  net := by rw [tpNet, hs.load 14 2 (by decide)]; exact h.net
  payload := by rw [hs.slice h.fits]; exact h.payload
  fits := h.fits

theorem HeaderSet.congr {messageLen : BitVec 16} (h : HeaderSet ring idx messageLen)
    (hs : SameFrame ring ring' idx) : HeaderSet ring' idx messageLen where
  snaplen := by rw [tpSnaplen, hs.load 8 4 (by decide)]; exact h.snaplen
  mac := by rw [tpMac, hs.load 12 2 (by decide)]; exact h.mac
  net := by rw [tpNet, hs.load 14 2 (by decide)]; exact h.net

theorem SameFrame.trans {ring'' : Memory} (h : SameFrame ring ring' idx)
    (h' : SameFrame ring' ring'' idx) : SameFrame ring ring'' idx :=
  fun a hl hr => (h' a hl hr).trans (h a hl hr)

theorem rxFrame_add_le {i j : Nat} (h : i < j) : rxFrame i + rxFrameSize ≤ rxFrame j := by
  rw [rxFrame, rxFrame, ← Nat.succ_mul]
  exact Nat.mul_le_mul_right rxFrameSize h

/-- A store into one frame leaves the others alone. -/
theorem store_sameFrame {own offset : Nat} {bytes : List Byte}
    (hfit : offset + bytes.length ≤ rxFrameSize) (hne : idx ≠ own) :
    SameFrame ring (store ring (rxFrame own + offset) bytes) idx := by
  intro a hl hr
  obtain hlt | hgt := Nat.lt_or_gt_of_ne hne
  · have hsep := rxFrame_add_le hlt
    exact store_of_lt (by omega)
  · have hsep := rxFrame_add_le hgt
    exact store_of_ge (by omega)

theorem setStatus_sameFrame {own : Nat} (status : BitVec 32) (hne : idx ≠ own) :
    SameFrame ring (setStatus ring (rxFrame own) status) idx := by
  have hfit : 0 + (leBytes 4 status).length ≤ rxFrameSize := by
    rw [length_leBytes]
    decide
  have hs : SameFrame ring (store ring (rxFrame own + 0) (leBytes 4 status)) idx :=
    store_sameFrame hfit hne
  rw [Nat.add_zero] at hs
  exact hs

theorem setHeader_sameFrame {own : Nat} (messageLen : BitVec 16) (hne : idx ≠ own) :
    SameFrame ring (setHeader ring (rxFrame own) messageLen) idx := by
  have hstore : ∀ (m : Memory) (offset n : Nat) (v : BitVec (8 * n)), offset + n ≤ rxFrameSize →
      SameFrame m (store m (rxFrame own + offset) (leBytes n v)) idx := fun m offset n v h =>
    store_sameFrame (by rw [length_leBytes]; exact h) hne
  exact (((hstore _ 8 4 _ (by decide)).trans (hstore _ 4 4 _ (by decide))).trans
    (hstore _ 12 2 _ (by decide))).trans (hstore _ 14 2 _ (by decide))

theorem setHeader_status (ring : Memory) (frame : Nat) (messageLen : BitVec 16) :
    tpStatus (setHeader ring frame messageLen) frame = tpStatus ring frame := by
  rw [tpStatus, setHeader, load_store_of_disjoint (by omega), load_store_of_disjoint (by omega),
    load_store_of_disjoint (by omega), load_store_of_disjoint (by omega), tpStatus]

theorem setHeader_set (ring : Memory) (idx : Nat) (messageLen : BitVec 16) :
    HeaderSet (setHeader ring (rxFrame idx) messageLen) idx messageLen := by
  have hlen := length_leBytes 4 (messageLen.setWidth 32)
  have hmac := length_leBytes 2 (BitVec.ofNat 16 (tpacketAlign sizeofTpacket2Hdr))
  refine ⟨?_, ?_, ?_⟩
  · rw [tpSnaplen, setHeader, load_store_of_disjoint (by omega),
      load_store_of_disjoint (by omega), load_store_of_disjoint (by omega), load_store_self,
      BitVec.toNat_setWidth]
    omega
  · rw [tpMac, setHeader, load_store_of_disjoint (by omega), load_store_self]
    rfl
  · rw [tpNet, setHeader, load_store_self, tpMac, load_store_self]
    rfl

end Frames

end MarketDataBook
