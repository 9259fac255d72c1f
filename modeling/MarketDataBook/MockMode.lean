import MarketDataBook.ParseInPlace
import MarketDataBook.RingHandover

/-! `run_mock_mode` of `main.cpp`: four threads from the file to the book. `simulate_packets`
fills the ring, the main thread polls it and runs `parse_block` on the frame in place, `consume`
applies the orders to the book, and `print_statistics_mock_mode` takes the packet count. The
threads are interleaved at every access to what they share. -/
namespace MarketDataBook
open ByteMemory

def MockReceiver.payloadPtr (s : MockReceiver) : Nat :=
  rxFrame s.currFrameIdx + (tpNet s.ring (rxFrame s.currFrameIdx)).toNat

def MockReceiver.payloadLength (s : MockReceiver) : Nat :=
  (tpSnaplen s.ring (rxFrame s.currFrameIdx)).toNat

structure MockMode extends InPlaceFeed where
  receiver : MockReceiver
  totalPackets : BitVec 64
  /-- The numbers printed so far. -/
  printed : List (BitVec 64)

inductive MockThread where
  | simulate | main | consume | statistics
  deriving DecidableEq

namespace MockMode
variable (size : Nat) (clock : Nat → BitVec 64) (file : List Byte)

def start (data : Nat → NormalizedOrder) (book : LimitOrderBook) : MockMode :=
  ⟨.start data book, .start, 0#64, []⟩

/-- One step of `parse_block` on the current frame; when it returns, the poller goes on. -/
def parseBlock (s : MockMode) : MockMode :=
  let f := s.toInPlaceFeed.parseBlock size clock s.receiver.ring s.receiver.payloadPtr
    s.receiver.payloadLength
  match f.parser with
  | .call => { s with toInPlaceFeed := f, receiver := s.receiver.pollSimulation }
  | _ => { s with toInPlaceFeed := f }

def pollSimulation (s : MockMode) : MockMode :=
  match s.receiver.pollPc with
  | .parse => s.parseBlock size clock
  | .advance =>
    { s with receiver := s.receiver.pollSimulation, totalPackets := s.totalPackets + 1#64 }
  | _ => { s with receiver := s.receiver.pollSimulation }

def consume (s : MockMode) : MockMode :=
  { s with toInPlaceFeed := s.toInPlaceFeed.consume size }

def printStatisticsMockMode (s : MockMode) : MockMode :=
  { s with totalPackets := 0#64, printed := s.printed ++ [s.totalPackets] }

def step (s : MockMode) : MockThread → MockMode
  | .simulate => { s with receiver := s.receiver.simulatePackets file }
  | .main => s.pollSimulation size clock
  | .consume => s.consume size
  | .statistics => s.printStatisticsMockMode

def run (data : Nat → NormalizedOrder) (book : LimitOrderBook) (schedule : List MockThread) :
    MockMode :=
  schedule.foldl (step size clock file) (start data book)

end MockMode

def MockMode.toFeed (file : List Byte) (s : MockMode) : Feed :=
  s.read s.receiver.ring
    ((completeRecords file).drop (s.parser.begun s.receiver.parsed.length))

/-- The main thread reads in the frame it holds, and the feed goes as `f`. -/
structure Feeds (file : List Byte) (s : MockMode) (f : Feed) : Prop where
  handover : ∃ r, Handover file s.receiver r
  outside : s.receiver.pollPc ≠ .parse → s.parser = .call
  within : s.parser.Within s.receiver.currFrameIdx
  feed : s.toFeed file = f

/-- What the producer leaves alone. -/
theorem simulatePackets_poll (file : List Byte) (s : MockReceiver) :
    (s.simulatePackets file).pollPc = s.pollPc ∧
      (s.simulatePackets file).currFrameIdx = s.currFrameIdx ∧
      (s.simulatePackets file).parsed = s.parsed := by
  rw [MockReceiver.simulatePackets]
  cases s.simulatePc with
  | next =>
    obtain ⟨data, heq, -⟩ | ⟨messageLen, heq, -⟩ := s.nextRecord_cases file
    · dsimp only
      rw [heq]
      exact ⟨rfl, rfl, rfl⟩
    · dsimp only
      rw [heq]
      exact ⟨rfl, rfl, rfl⟩
  | wait messageLen =>
    dsimp only
    split_ifs
    · exact ⟨rfl, rfl, rfl⟩
    · exact ⟨rfl, rfl, rfl⟩
  | fill messageLen => exact ⟨rfl, rfl, rfl⟩
  | copy messageLen => exact ⟨rfl, rfl, rfl⟩
  | publish messageLen => exact ⟨rfl, rfl, rfl⟩
  | finished => exact ⟨rfl, rfl, rfl⟩

section Steps
variable {k : Nat} {clock : Nat → BitVec 64} {file : List Byte} {s : MockMode} {f : Feed}

/-- A step of the simulator is not seen by the feed. -/
theorem Feeds.simulate (h : Feeds file s f) (hfit : RecordsFit file) :
    Feeds file { s with receiver := s.receiver.simulatePackets file } f := by
  obtain ⟨r, hr⟩ := h.handover
  obtain ⟨hpc, hidx, hparsed⟩ := simulatePackets_poll file s.receiver
  have hread : s.parser.read (s.receiver.simulatePackets file).ring =
      s.parser.read s.receiver.ring := by
    by_cases hp : s.receiver.pollPc = .parse
    · obtain ⟨m, hm⟩ := hr.poll.holds (Or.inl hp)
      exact h.within.read_eq (hr.untouched hfit hm)
    · rw [h.outside hp]
      rfl
  refine ⟨hr.simulatePackets hfit, ?_, ?_, ?_⟩
  · rw [hpc]
    exact h.outside
  · rw [hidx]
    exact h.within
  · rw [← h.feed, MockMode.toFeed, MockMode.toFeed, InPlaceFeed.read, InPlaceFeed.read]
    dsimp only
    rw [hread, hparsed]

/-- A step of the poller outside `parse_block` is not seen by the feed either. -/
theorem Feeds.poll (h : Feeds file s f) (hfit : RecordsFit file)
    (hpc : s.receiver.pollPc ≠ .parse) {total : BitVec 64} :
    Feeds file { s with receiver := s.receiver.pollSimulation, totalPackets := total } f := by
  obtain ⟨r, hr⟩ := h.handover
  have hcall := h.outside hpc
  have hparsed : s.receiver.pollSimulation.parsed = s.receiver.parsed := by
    rw [MockReceiver.pollSimulation]
    cases hp : s.receiver.pollPc with
    | parse => exact absurd hp hpc
    | release => rfl
    | advance => rfl
    | wait =>
      dsimp only
      split_ifs
      · rfl
      · rfl
  refine ⟨hr.pollSimulation hfit, fun _ => hcall, ?_, ?_⟩
  · dsimp only
    rw [hcall]
    trivial
  · rw [← h.feed, MockMode.toFeed, MockMode.toFeed, InPlaceFeed.read, InPlaceFeed.read]
    dsimp only
    rw [hparsed, hcall]
    rfl

/-- While it parses, the poller holds the frame of the next record. -/
theorem Handover.current {s : MockReceiver} {r : FlagRing (List Byte)} (h : Handover file s r)
    (hpc : s.pollPc = .parse) :
    ∃ m, FrameHolds s.ring s.currFrameIdx m ∧
      (completeRecords file)[s.parsed.length]? = some m := by
  have hpoll := h.poll
  rw [hpc] at hpoll
  obtain ⟨hidx, hparsed, m, hm⟩ := hpoll
  have hlt : s.currFrameIdx < rxFrameNr := hidx ▸ Nat.mod_lt _ rxFrameNr_pos
  have hold := h.inv.oldest rxFrameNr_pos (hidx ▸ hm)
  have hlen : s.parsed.length = r.freed := by
    rw [hparsed, List.length_take, Nat.min_eq_left h.inv.le]
  refine ⟨m, h.held _ hlt m hm, ?_⟩
  obtain ⟨rest, hrest⟩ := h.simulate.filled_initial
  have hlt' := (List.getElem?_eq_some_iff.mp hold).1
  rw [hlen, ← hrest, List.getElem?_append_left hlt', hold]

/-- While it parses, `parse_block` is called on the next record, inside the frame. -/
theorem Handover.span {s : MockReceiver} {r : FlagRing (List Byte)} (h : Handover file s r)
    (hpc : s.pollPc = .parse) :
    SpanWithin s.currFrameIdx s.payloadPtr s.payloadLength ∧
      (completeRecords file).drop s.parsed.length =
        slice s.ring s.payloadPtr s.payloadLength ::
          (completeRecords file).drop (s.parsed.length + 1) := by
  obtain ⟨m, hholds, hm⟩ := h.current hpc
  obtain ⟨hlt, hget⟩ := List.getElem?_eq_some_iff.mp hm
  have hfits := hholds.fits
  refine ⟨?_, ?_⟩
  · rw [MockReceiver.payloadPtr, MockReceiver.payloadLength, hholds.net, hholds.snaplen]
    exact ⟨Nat.le_add_right _ _, by omega⟩
  · rw [MockReceiver.payloadPtr, MockReceiver.payloadLength, hholds.read,
      List.drop_eq_getElem_cons hlt, hget]

/-- Either `parse_block` has returned and the poller goes on, or the poller stays where it is. -/
theorem MockMode.parseBlock_cases (size : Nat) (clock : Nat → BitVec 64) (s : MockMode) :
    let f := s.toInPlaceFeed.parseBlock size clock s.receiver.ring s.receiver.payloadPtr
      s.receiver.payloadLength
    (f.parser = .call ∧ s.parseBlock size clock =
      { s with toInPlaceFeed := f, receiver := s.receiver.pollSimulation }) ∨
    (f.parser ≠ .call ∧ s.parseBlock size clock = { s with toInPlaceFeed := f }) := by
  rw [MockMode.parseBlock]
  dsimp only
  split
  · next hcall => exact Or.inl ⟨hcall, rfl⟩
  · next hbusy => exact Or.inr ⟨hbusy, rfl⟩

/-- A step of `parse_block` is a step of the feed thread. -/
theorem Feeds.parseBlock (h : Feeds file s f) (hfit : RecordsFit file)
    (hpc : s.receiver.pollPc = .parse) :
    Feeds file (s.parseBlock (2^k) clock) (f.parseBlock (2^k) clock) := by
  obtain ⟨r, hr⟩ := h.handover
  obtain ⟨hspan, hblocks⟩ := hr.span hpc
  have hwithin := InPlaceFeed.parseBlock_within (2^k) clock s.receiver.ring h.within hspan
  have hread := s.toInPlaceFeed.read_parseBlock (2^k) clock hblocks
  rw [← h.feed, MockMode.toFeed, ← hread]
  obtain ⟨hcall, heq⟩ | ⟨hbusy, heq⟩ := s.parseBlock_cases (2^k) clock
  · have hparsed : s.receiver.pollSimulation.parsed.length = s.receiver.parsed.length + 1 := by
      simp only [MockReceiver.pollSimulation, hpc, List.length_append, List.length_singleton]
    have hring : s.receiver.pollSimulation.ring = s.receiver.ring := by
      rw [MockReceiver.pollSimulation, hpc]
    rw [heq]
    refine ⟨hr.pollSimulation hfit, fun _ => hcall, ?_, ?_⟩
    · dsimp only
      rw [hcall]
      trivial
    · rw [MockMode.toFeed]
      dsimp only
      rw [hring, hparsed, hcall]
      rfl
  · rw [heq]
    refine ⟨⟨r, hr⟩, fun hne => absurd hpc hne, hwithin, ?_⟩
    rw [MockMode.toFeed]
    dsimp only
    rw [InPlacePc.begun_of_ne hbusy]

theorem Feeds.consume (h : Feeds file s f) (size : Nat) :
    Feeds file (s.consume size) (f.consume size) where
  handover := h.handover
  outside := h.outside
  within := h.within
  feed := by
    rw [← h.feed, MockMode.toFeed, MockMode.toFeed, InPlaceFeed.read, InPlaceFeed.read,
      ← InPlaceFeed.consume_feed]
    rfl

/-- Every step of the program is a step of the feed or none. -/
theorem Feeds.step (h : Feeds file s f) (hfit : RecordsFit file) (t : MockThread) :
    ∃ ts, Feeds file (s.step (2^k) clock file t) (List.foldl (Feed.step (2^k) clock) f ts) := by
  cases t with
  | simulate => exact ⟨[], h.simulate hfit⟩
  | consume => exact ⟨[.consumer], h.consume (2^k)⟩
  | statistics => exact ⟨[], h.handover, h.outside, h.within, h.feed⟩
  | main =>
    rw [MockMode.step, MockMode.pollSimulation]
    cases hpc : s.receiver.pollPc with
    | parse => exact ⟨[.parser], h.parseBlock hfit hpc⟩
    | wait => exact ⟨[], h.poll hfit (by simp [hpc])⟩
    | release => exact ⟨[], h.poll hfit (by simp [hpc])⟩
    | advance => exact ⟨[], h.poll hfit (by simp [hpc])⟩

theorem Feeds.start (file : List Byte) (data : Nat → NormalizedOrder) (book : LimitOrderBook) :
    Feeds file (.start data book) (.start data (completeRecords file) book) where
  handover := ⟨_, Handover.start file⟩
  outside := fun _ => rfl
  within := trivial
  feed := rfl

/-- Every run of the program is a run of the feed on the records of the file. -/
theorem MockMode.run_feeds (k : Nat) (clock : Nat → BitVec 64) (hfit : RecordsFit file)
    (data : Nat → NormalizedOrder) (book : LimitOrderBook) (schedule : List MockThread) :
    ∃ ts, Feeds file (MockMode.run (2^k) clock file data book schedule)
      (Feed.run (2^k) clock data (completeRecords file) book ts) :=
  StepRun.refines (Feeds.start file data book) schedule fun _ _ t h => h.step hfit t

end Steps

def PollPc.uncounted : PollPc → BitVec 64
  | .wait => 0#64
  | .parse => 0#64
  | .release => 1#64
  | .advance => 1#64

/-- Every packet is counted once, whenever the count is taken. -/
def MockMode.Counted (s : MockMode) : Prop :=
  s.printed.sum + s.totalPackets + s.receiver.pollPc.uncounted =
    BitVec.ofNat 64 s.receiver.parsed.length

section Count
variable {size : Nat} {clock : Nat → BitVec 64} {file : List Byte} {s : MockMode}

theorem MockMode.Counted.congr {s' : MockMode} (h : s.Counted) (hp : s'.printed = s.printed)
    (ht : s'.totalPackets = s.totalPackets) (hpc : s'.receiver.pollPc = s.receiver.pollPc)
    (hparsed : s'.receiver.parsed = s.receiver.parsed) : s'.Counted := by
  rw [MockMode.Counted, hp, ht, hpc, hparsed]
  exact h

theorem MockMode.Counted.parseBlock (h : s.Counted) (hpc : s.receiver.pollPc = .parse) :
    (s.parseBlock size clock).Counted := by
  obtain ⟨-, heq⟩ | ⟨-, heq⟩ := s.parseBlock_cases size clock
  · rw [MockMode.Counted, hpc, PollPc.uncounted, BitVec.add_zero] at h
    rw [heq]
    simp only [MockMode.Counted, MockReceiver.pollSimulation, hpc, PollPc.uncounted,
      List.length_append, List.length_singleton, BitVec.ofNat_add, h]
  · rw [heq]
    exact h.congr rfl rfl rfl rfl

theorem MockMode.Counted.step (h : s.Counted) (t : MockThread) :
    (s.step size clock file t).Counted := by
  cases t with
  | simulate =>
    obtain ⟨hpc, -, hparsed⟩ := simulatePackets_poll file s.receiver
    exact h.congr rfl rfl hpc hparsed
  | consume => exact h.congr rfl rfl rfl rfl
  | statistics =>
    rw [MockMode.Counted] at h
    simp only [MockMode.Counted, MockMode.step, MockMode.printStatisticsMockMode,
      List.sum_append, List.sum_singleton, BitVec.add_zero, h]
  | main =>
    rw [MockMode.step, MockMode.pollSimulation]
    cases hpc : s.receiver.pollPc with
    | parse => exact h.parseBlock hpc
    | wait =>
      simp only [MockReceiver.pollSimulation, hpc]
      split_ifs
      · exact h.congr rfl rfl rfl rfl
      · rw [MockMode.Counted, hpc] at h
        exact h
    | release =>
      rw [MockMode.Counted, hpc] at h
      simp only [MockReceiver.pollSimulation, hpc]
      exact h
    | advance =>
      rw [MockMode.Counted, hpc] at h
      simp only [MockMode.Counted, MockReceiver.pollSimulation, hpc, PollPc.uncounted,
        BitVec.add_zero, ← BitVec.add_assoc]
      exact h

end Count

/-- The file is through: the simulator is done, no frame has the user status, and the book thread
has emptied the queue. -/
structure MockMode.Through (s : MockMode) : Prop where
  finished : s.receiver.simulatePc = .finished
  back : ∀ idx < rxFrameNr, tpStatus s.receiver.ring (rxFrame idx) &&& tpStatusUser = 0
  empty : s.channel.popped.length = s.channel.pushed.length
  idle : s.consumer = .pop

section Outcome
variable {file : List Byte} {s : MockMode} {f : Feed}

/-- With every frame back, `parse_block` is not running and there are no records left. -/
theorem Feeds.finished (h : Feeds file s f) (ht : s.Through) :
    f.parser = .idle ∧ f.blocks = [] := by
  obtain ⟨r, hr⟩ := h.handover
  have hcells : ∀ idx < rxFrameNr, r.cells idx = none := by
    intro idx hidx
    cases hc : r.cells idx with
    | none => rfl
    | some m => exact absurd (ht.back idx hidx) (hr.held idx hidx m hc).user
  have hpc : s.receiver.pollPc ≠ .parse := by
    intro hpc
    obtain ⟨m, hm⟩ := hr.poll.holds (Or.inl hpc)
    have hpoll := hr.poll
    rw [hpc] at hpoll
    rw [hcells _ (hpoll.1 ▸ Nat.mod_lt _ rxFrameNr_pos)] at hm
    cases hm
  have hsim := hr.simulate
  rw [ht.finished] at hsim
  obtain ⟨n, hn, hparsed⟩ := hr.poll.parsed_eq
  have hfreed := hr.inv.all_free rxFrameNr_pos hcells
  rw [List.take_of_length_le (by omega)] at hparsed
  have hall : s.receiver.parsed = completeRecords file := hparsed.trans hsim.symm
  rw [← h.feed, MockMode.toFeed, InPlaceFeed.read, h.outside hpc, hall]
  exact ⟨rfl, List.drop_length⟩

theorem MockMode.run_carried (k : Nat) (clock : Nat → BitVec 64) (hfit : RecordsFit file)
    {blocks : List Block} (hblocks : completeRecords file = blocks.map Block.bytes)
    (data : Nat → NormalizedOrder) (b : LimitOrderBook) (schedule : List MockThread) :
    let s := MockMode.run (2^k) clock file data b schedule
    Carried (blocks.flatMap Block.messages) b s.toInPlaceFeed ∧
      (s.Through → (∀ p ∈ s.channel.pushes, p.2 = true) →
        CarriedThrough (blocks.flatMap Block.messages) b s.toInPlaceFeed) := by
  intro s
  obtain ⟨ts, h⟩ := MockMode.run_feeds k clock hfit data b schedule
  rw [hblocks] at h
  obtain ⟨hcarried, hcompleted⟩ := InPlaceFeed.carried_of_feed h.feed.symm
  refine ⟨hcarried, ?_⟩
  intro ht hpush
  obtain ⟨hidle, hnone⟩ := h.finished ht
  rw [← h.feed] at hidle hnone
  exact hcompleted ⟨hidle, hnone, ht.empty, ht.idle⟩ hpush

end Outcome

def addCancelFile : List Byte := 0#8 :: 72#8 :: addCancelBlock.bytes

theorem completeRecords_singleton {high low : Byte} {m : List Byte}
    (hlen : m.length = bigEndian [high, low]) : completeRecords (high :: low :: m) = [m] := by
  rw [completeRecords, if_neg (Nat.not_lt.mpr hlen.ge), ← hlen, List.take_length,
    List.drop_length, completeRecords_short (by decide)]

theorem completeRecords_addCancelFile :
    completeRecords addCancelFile = [addCancelBlock].map Block.bytes :=
  completeRecords_singleton (by decide +kernel)

theorem recordsFit_addCancelFile : RecordsFit addCancelFile := by
  intro m hm
  rw [completeRecords_addCancelFile] at hm
  rw [List.mem_singleton.mp hm]
  decide +kernel

end MarketDataBook
