import MarketDataBook.MockMode

/-! Mock mode never gets stuck: from wherever the threads stand, the file can be carried through
to the book. A weight of what the simulator and the main thread have left goes down with every
step that is not a wait, and the two never wait for each other. -/
namespace MarketDataBook
open ByteMemory

def simulateWork (file : List Byte) (s : MockReceiver) : Nat :=
  let behind := fun len : BitVec 16 =>
    5 * ((completeRecords (file.drop (s.data + len.toNat))).length + 1)
  match s.simulatePc with
  | .next => 5 * (completeRecords (file.drop s.data)).length + 4
  | .wait len => behind len + 3
  | .fill len => behind len + 2
  | .copy len => behind len + 1
  | .publish len => behind len
  | .finished => 0

def PollPc.weight : PollPc → Nat
  | .parse => 0
  | .wait => 1
  | .advance => 2
  | .release => 3

def pollWork (file : List Byte) (s : MockReceiver) : Nat :=
  4 * ((completeRecords file).length - s.parsed.length) + s.pollPc.weight

def MockReceiver.SimulateReady (s : MockReceiver) : Prop :=
  match s.simulatePc with
  | .wait _ => tpStatus s.ring (rxFrame s.frameIdx) &&& tpStatusUser = 0
  | .finished => False
  | _ => True

def MockReceiver.PollReady (s : MockReceiver) : Prop :=
  s.pollPc = .wait → tpStatus s.ring (rxFrame s.currFrameIdx) &&& tpStatusUser ≠ 0

section Receiver
variable {file : List Byte} {s : MockReceiver} {r : FlagRing (List Byte)}

theorem simulateWork_lt (h : s.SimulateReady) :
    simulateWork file (s.simulatePackets file) < simulateWork file s := by
  rw [MockReceiver.SimulateReady] at h
  rw [MockReceiver.simulatePackets]
  cases hpc : s.simulatePc with
  | next =>
    have hwork : simulateWork file s = 5 * (completeRecords (file.drop s.data)).length + 4 := by
      rw [simulateWork, hpc]
    dsimp only
    rw [hwork]
    obtain ⟨data, heq, -⟩ | ⟨messageLen, heq, -, hrecords⟩ := s.nextRecord_cases file
    · rw [heq, simulateWork]
      exact Nat.succ_pos _
    · rw [heq, simulateWork, hrecords, List.length_cons]
      exact Nat.lt_succ_self _
  | wait len =>
    rw [hpc] at h
    dsimp only at h ⊢
    rw [if_neg (not_not.mpr h)]
    simp only [simulateWork, hpc]
    omega
  | fill len =>
    simp only [simulateWork, hpc]
    omega
  | copy len =>
    simp only [simulateWork, hpc]
    omega
  | publish len =>
    simp only [simulateWork, hpc]
    omega
  | finished =>
    rw [hpc] at h
    exact absurd h id

theorem pollWork_simulate : pollWork file (s.simulatePackets file) = pollWork file s := by
  obtain ⟨hpc, -, hparsed⟩ := simulatePackets_poll file s
  rw [pollWork, pollWork, hpc, hparsed]

theorem simulateWork_poll : simulateWork file s.pollSimulation = simulateWork file s := by
  rw [MockReceiver.pollSimulation]
  cases s.pollPc with
  | wait =>
    dsimp only
    split_ifs
    · rfl
    · rfl
  | parse => rfl
  | release => rfl
  | advance => rfl

theorem pollWork_lt (h : Handover file s r) (hready : s.PollReady) :
    pollWork file s.pollSimulation < pollWork file s := by
  rw [MockReceiver.pollSimulation]
  cases hpc : s.pollPc with
  | wait =>
    dsimp only
    rw [if_neg (hready hpc)]
    simp only [pollWork, hpc, PollPc.weight]
    omega
  | parse =>
    obtain ⟨m, -, hm⟩ := h.current hpc
    have hlt := (List.getElem?_eq_some_iff.mp hm).1
    simp only [pollWork, hpc, PollPc.weight, List.length_append, List.length_singleton]
    omega
  | release =>
    simp only [pollWork, hpc, PollPc.weight]
    omega
  | advance =>
    simp only [pollWork, hpc, PollPc.weight]
    omega

/-- A poller that waits has given back every frame that was filled. -/
theorem Handover.all_back (h : Handover file s r) (hwait : ¬ s.PollReady) :
    ∀ idx < rxFrameNr, tpStatus s.ring (rxFrame idx) &&& tpStatusUser = 0 := by
  obtain ⟨hpc, hfree⟩ := Classical.not_imp.mp hwait
  have hpoll := h.poll
  rw [hpc] at hpoll
  obtain ⟨hidx, -⟩ := hpoll
  have hlt : s.currFrameIdx < rxFrameNr := hidx ▸ Nat.mod_lt _ rxFrameNr_pos
  have hnone : r.cells s.currFrameIdx = none := by
    cases hc : r.cells s.currFrameIdx with
    | none => rfl
    | some m => exact absurd (h.held _ hlt m hc).user hfree
  have hall : r.freed = r.filled.length := by
    refine Nat.le_antisymm h.inv.le ?_
    by_contra hltf
    have hcell := h.inv.cell_mod rxFrameNr_pos (Nat.le_refl _)
      (List.getElem?_eq_getElem (Nat.lt_of_not_le hltf))
    rw [← hidx, hnone] at hcell
    cases hcell
  intro idx hi
  apply h.free idx hi
  cases hc : r.cells idx with
  | none => rfl
  | some m =>
    obtain ⟨i, hi', hm, -⟩ := (h.inv.cell idx hi m).mp hc
    have := (List.getElem?_eq_some_iff.mp hm).1
    omega

/-- The two threads do not wait for each other. -/
theorem Handover.ready (h : Handover file s r) (hbusy : s.simulatePc ≠ .finished)
    (hwait : ¬ s.PollReady) : s.SimulateReady := by
  rw [MockReceiver.SimulateReady]
  cases hpc : s.simulatePc with
  | wait len => exact h.all_back hwait _ h.frameIdx_lt
  | finished => exact absurd hpc hbusy
  | next => trivial
  | fill len => trivial
  | copy len => trivial
  | publish len => trivial

end Receiver

/-- The program is in step with a feed of the blocks and has `n` left to do before the last
frame is back. -/
def MockWork (k : Nat) (file : List Byte) (blocks : List Block) (b : LimitOrderBook)
    (s : MockMode) (n : Nat) : Prop :=
  ∃ f cur rest, Feeds file s f ∧ FeedOk k b f ∧ InStep blocks cur rest f ∧
    simulateWork file s.receiver + pollWork file s.receiver + parserWork cur rest f = n

section Rounds
variable {k n : Nat} {clock : Nat → BitVec 64} {file : List Byte} {blocks : List Block}
  {b : LimitOrderBook} {s : MockMode} {f : Feed}

theorem InPlacePc.eq_call_of_read {ring : Memory} {pc : InPlacePc} (h : pc.read ring = .idle) :
    pc = .call := by
  cases pc with
  | call => rfl
  | loop payload payloadLen => cases h
  | push newOrder payload payloadLen => cases h
  | inPush payload payloadLen => cases h
  | outOfBounds => cases h

/-- In `parse_block` the feed thread has something to do. -/
theorem Feeds.busy (h : Feeds file s f) (hpc : s.receiver.pollPc = .parse) :
    ¬ (f.parser = .idle ∧ f.blocks = []) := by
  obtain ⟨r, hr⟩ := h.handover
  obtain ⟨-, hblocks⟩ := hr.span hpc
  rintro ⟨hidle, hnone⟩
  rw [← h.feed] at hidle hnone
  have hcall : s.parser = .call := InPlacePc.eq_call_of_read hidle
  have hempty : (completeRecords file).drop (s.parser.begun s.receiver.parsed.length) = [] :=
    hnone
  rw [hcall, InPlacePc.begun, hblocks] at hempty
  cases hempty

theorem MockWork.parse (h : MockWork k file blocks b s n) (hfit : RecordsFit file)
    (hpc : s.receiver.pollPc = .parse) :
    ∃ m < n, MockWork k file blocks b (s.parseBlock (2^k) clock) m := by
  obtain ⟨f, cur, rest, hf, hok, hin, rfl⟩ := h
  obtain ⟨r, hr⟩ := hf.handover
  obtain ⟨cur', rest', hin', hlt⟩ := hin.parseBlock (2^k) clock (hf.busy hpc)
  have hwork : simulateWork file (s.parseBlock (2^k) clock).receiver +
      pollWork file (s.parseBlock (2^k) clock).receiver ≤
        simulateWork file s.receiver + pollWork file s.receiver := by
    obtain ⟨-, heq⟩ | ⟨-, heq⟩ := s.parseBlock_cases (2^k) clock
    · have hready : s.receiver.PollReady := fun hw => by rw [hpc] at hw; cases hw
      have hpoll := pollWork_lt hr hready
      rw [heq]
      dsimp only
      rw [simulateWork_poll]
      omega
    · rw [heq]
  exact ⟨_, by omega, _, cur', rest', hf.parseBlock hfit hpc, hok.parseBlock, hin', rfl⟩

theorem MockWork.main (h : MockWork k file blocks b s n) (hfit : RecordsFit file)
    (hready : s.receiver.PollReady) :
    ∃ m < n, MockWork k file blocks b (s.step (2^k) clock file .main) m := by
  have hother : s.receiver.pollPc ≠ .parse → ∀ total, ∃ m < n, MockWork k file blocks b
      { s with receiver := s.receiver.pollSimulation, totalPackets := total } m := by
    intro hpc total
    obtain ⟨f, cur, rest, hf, hok, hin, rfl⟩ := h
    obtain ⟨r, hr⟩ := hf.handover
    have hlt := pollWork_lt hr hready
    have hsim : simulateWork file s.receiver.pollSimulation = simulateWork file s.receiver :=
      simulateWork_poll
    refine ⟨_, ?_, f, cur, rest, hf.poll hfit hpc, hok, hin, rfl⟩
    dsimp only
    omega
  rw [MockMode.step, MockMode.pollSimulation]
  cases hpc : s.receiver.pollPc with
  | parse => exact h.parse hfit hpc
  | wait => exact hother (by simp [hpc]) s.totalPackets
  | release => exact hother (by simp [hpc]) s.totalPackets
  | advance => exact hother (by simp [hpc]) (s.totalPackets + 1#64)

theorem MockWork.simulate (h : MockWork k file blocks b s n) (clock : Nat → BitVec 64)
    (hfit : RecordsFit file) (hready : s.receiver.SimulateReady) :
    ∃ m < n, MockWork k file blocks b (s.step (2^k) clock file .simulate) m := by
  obtain ⟨f, cur, rest, hf, hok, hin, rfl⟩ := h
  have hlt : simulateWork file (s.receiver.simulatePackets file) < simulateWork file s.receiver :=
    simulateWork_lt hready
  have hpoll : pollWork file (s.receiver.simulatePackets file) = pollWork file s.receiver :=
    pollWork_simulate
  refine ⟨_, ?_, f, cur, rest, hf.simulate hfit, hok, hin, rfl⟩
  dsimp only [MockMode.step]
  omega

/-- The simulator and the main thread can get the last frame back. -/
theorem MockWork.returns (h : MockWork k file blocks b s n) (clock : Nat → BitVec 64)
    (hfit : RecordsFit file) :
    ∃ more, ((List.foldl (MockMode.step (2^k) clock file) s more).receiver.simulatePc = .finished ∧
        ¬ (List.foldl (MockMode.step (2^k) clock file) s more).receiver.PollReady) ∧
      ∃ m, MockWork k file blocks b (List.foldl (MockMode.step (2^k) clock file) s more) m := by
  refine StepRun.reaches_by_rounds (D := fun s : MockMode =>
    s.receiver.simulatePc = .finished ∧ ¬ s.receiver.PollReady) ?_ h
  intro s n h hbusy
  by_cases hpoll : s.receiver.PollReady
  · exact ⟨[.main], h.main hfit hpoll⟩
  · obtain ⟨f, cur, rest, hf, -⟩ := id h
    obtain ⟨r, hr⟩ := hf.handover
    have hsim := hr.ready (fun hfin => hbusy ⟨hfin, hpoll⟩) hpoll
    exact ⟨[.simulate], h.simulate clock hfit hsim⟩

end Rounds

section Consumer
variable {k : Nat} {clock : Nat → BitVec 64} {file : List Byte} {b : LimitOrderBook}
  {s : MockMode} {f : Feed}

theorem Feeds.consumes (h : Feeds file s f) (clock : Nat → BitVec 64) (n : Nat) :
    Feeds file ((List.replicate n MockThread.consume).foldl (MockMode.step (2^k) clock file) s)
        ((List.replicate n FeedThread.consumer).foldl (Feed.step (2^k) clock) f) ∧
      ((List.replicate n MockThread.consume).foldl
        (MockMode.step (2^k) clock file) s).receiver = s.receiver := by
  induction n generalizing s f with
  | zero => exact ⟨h, rfl⟩
  | succ n ih => exact ih (h.consume (2^k))

/-- The order in hand is applied, or ends the thread. -/
theorem consume_dispatch (size : Nat) {order : NormalizedOrder}
    (hc : f.consumer = .dispatch order) :
    (f.consume size).channel = f.channel ∧
      ((f.consume size).consumer = .pop ∨
        ∃ what, (f.consume size).consumer = .terminated what) := by
  rw [Feed.consume, hc]
  dsimp only
  cases f.book.step (dispatchTable order) with
  | mk book out =>
    cases out with
    | returned => exact ⟨rfl, Or.inl rfl⟩
    | raised what => exact ⟨rfl, Or.inr ⟨what, rfl⟩⟩

/-- The book thread left alone empties the queue and is done with the last order, unless an
exception ends it. -/
theorem FeedOk.empties (h : FeedOk k b f) (clock : Nat → BitVec 64) : ∃ n,
    let f' := (List.replicate n FeedThread.consumer).foldl (Feed.step (2^k) clock) f
    (f'.channel.popped.length = f'.channel.pushed.length ∧ f'.consumer = .pop) ∨
      ∃ what, f'.consumer = .terminated what := by
  obtain ⟨n, hempty | hterm⟩ := h.drains clock
  · generalize hf : (List.replicate n FeedThread.consumer).foldl (Feed.step (2^k) clock) f = f'
      at hempty
    cases hc : f'.consumer with
    | pop =>
      refine ⟨n, ?_⟩
      rw [hf]
      exact Or.inl ⟨hempty, hc⟩
    | terminated what =>
      refine ⟨n, ?_⟩
      rw [hf]
      exact Or.inr ⟨what, hc⟩
    | dispatch order =>
      obtain ⟨hchannel, hpop | hterm⟩ := consume_dispatch (2^k) hc
      · refine ⟨n+1, ?_⟩
        rw [List.replicate_succ', List.foldl_append, hf]
        refine Or.inl ⟨?_, hpop⟩
        rw [List.foldl_cons, List.foldl_nil, Feed.step, hchannel]
        exact hempty
      · refine ⟨n+1, ?_⟩
        rw [List.replicate_succ', List.foldl_append, hf]
        exact Or.inr hterm
  · exact ⟨n, Or.inr hterm⟩

end Consumer

/-- For every file of complete messages whose records fit their frames: however the threads have
been interleaved so far, they can go on until the file is through, unless the book raises. -/
theorem MockMode.run_completes (k : Nat) (clock : Nat → BitVec 64) (file : List Byte)
    (hfit : RecordsFit file) (blocks : List Block)
    (hblocks : completeRecords file = blocks.map Block.bytes) (data : Nat → NormalizedOrder)
    (b : LimitOrderBook) (schedule : List MockThread) :
    ∃ more,
      let s := MockMode.run (2^k) clock file data b (schedule ++ more)
      s.Through ∨ ∃ what, s.consumer = .terminated what := by
  obtain ⟨ts, hf⟩ := MockMode.run_feeds k clock hfit data b schedule
  rw [hblocks] at hf
  obtain ⟨cur, rest, hin⟩ := InStep.run (2^k) clock data blocks b ts
  have hwork : MockWork k file blocks b (MockMode.run (2^k) clock file data b schedule) _ :=
    ⟨_, cur, rest, hf, FeedOk.run k clock data _ b ts, hin, rfl⟩
  obtain ⟨more, ⟨hfin, hwait⟩, m, f, -, -, hf', hok, -⟩ := hwork.returns clock hfit
  obtain ⟨n, hn⟩ := hok.empties clock
  obtain ⟨hc, hrec⟩ := hf'.consumes clock n
  obtain ⟨r, hr⟩ := hf'.handover
  refine ⟨more ++ List.replicate n .consume, ?_⟩
  dsimp only
  rw [MockMode.run, ← List.append_assoc, List.foldl_append, List.foldl_append]
  obtain ⟨hempty, hpop⟩ | ⟨what, hterm⟩ := hn
  · left
    refine ⟨?_, ?_, ?_, ?_⟩
    · rw [← MockMode.run, hrec]
      exact hfin
    · rw [← MockMode.run, hrec]
      exact hr.all_back hwait
    · rw [← hc.feed] at hempty
      exact hempty
    · rw [← hc.feed] at hpop
      exact hpop
  · right
    refine ⟨what, ?_⟩
    rw [← hc.feed] at hterm
    exact hterm

/-- With the simulator in the middle of its copy and the count taken. -/
theorem addCancelFile_completes :
    ∃ more,
      let s := MockMode.run (2^2) (fun _ => 0#64) addCancelFile
        (fun _ => .addOrder (.plain 66#8 1#64 5#32 3#32)) (.new 1)
        ([.simulate, .main, .simulate, .simulate, .statistics] ++ more)
      s.Through ∨ ∃ what, s.consumer = .terminated what :=
  MockMode.run_completes 2 (fun _ => 0#64) addCancelFile recordsFit_addCancelFile
    [addCancelBlock] completeRecords_addCancelFile
    (fun _ => .addOrder (.plain 66#8 1#64 5#32 3#32)) (.new 1)
    [.simulate, .main, .simulate, .simulate, .statistics]

end MarketDataBook
