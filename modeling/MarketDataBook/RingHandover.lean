import MarketDataBook.MulticastReceiver

/-! The mock ring refines a ring of cells that producer and consumer hand to each other: a
frame with the user status is a filled cell, and the two indices follow the numbers of cells
filled and freed. Delivery of the file's records follows from the abstract ring. -/
namespace MarketDataBook
open ByteMemory

structure Upcoming (file : List Byte) (r : FlagRing (List Byte)) (data : Nat)
    (messageLen : BitVec 16) : Prop where
  bounded : data + messageLen.toNat ≤ file.length
  records : completeRecords file = r.filled ++ (file.drop data).take messageLen.toNat ::
    completeRecords (file.drop (data + messageLen.toNat))

def SimulateOk (file : List Byte) (ring : Memory) (r : FlagRing (List Byte))
    (data frameIdx : Nat) : SimulatePc → Prop
  | .next => completeRecords file = r.filled ++ completeRecords (file.drop data)
  | .wait messageLen => Upcoming file r data messageLen
  | .fill messageLen => Upcoming file r data messageLen ∧ r.cells frameIdx = none
  | .copy messageLen => Upcoming file r data messageLen ∧ r.cells frameIdx = none ∧
      HeaderSet ring frameIdx messageLen
  | .publish messageLen => Upcoming file r data messageLen ∧ r.cells frameIdx = none ∧
      HeaderSet ring frameIdx messageLen ∧
      slice ring (rxFrame frameIdx + 32) messageLen.toNat =
        (file.drop data).take messageLen.toNat
  | .finished => completeRecords file = r.filled

def PollOk (r : FlagRing (List Byte)) (currFrameIdx : Nat) (parsed : List (List Byte)) :
    PollPc → Prop
  | .wait => currFrameIdx = r.freed % rxFrameNr ∧ parsed = r.filled.take r.freed
  | .parse => currFrameIdx = r.freed % rxFrameNr ∧ parsed = r.filled.take r.freed ∧
      ∃ m, r.cells currFrameIdx = some m
  | .release => currFrameIdx = r.freed % rxFrameNr ∧ parsed = r.filled.take (r.freed + 1) ∧
      ∃ m, r.cells currFrameIdx = some m
  | .advance => (currFrameIdx + 1) % rxFrameNr = r.freed % rxFrameNr ∧
      parsed = r.filled.take r.freed

/-- The frames with their status words are the cells of the abstract ring, and each thread
stands where its index says. -/
structure Handover (file : List Byte) (s : MockReceiver) (r : FlagRing (List Byte)) : Prop where
  inv : r.Inv rxFrameNr
  free : ∀ idx < rxFrameNr, r.cells idx = none →
    tpStatus s.ring (rxFrame idx) &&& tpStatusUser = 0
  held : ∀ idx < rxFrameNr, ∀ m, r.cells idx = some m → FrameHolds s.ring idx m
  frameIdx : s.frameIdx = r.filled.length % rxFrameNr
  simulate : SimulateOk file s.ring r s.data s.frameIdx s.simulatePc
  poll : PollOk r s.currFrameIdx s.parsed s.pollPc

theorem rxFrameNr_pos : 0 < rxFrameNr := by decide

theorem Handover.start (file : List Byte) : Handover file .start .empty where
  inv := FlagRing.Inv.empty
  free := by
    intro idx _ _
    have hz : tpStatus (fun _ => 0#8) (rxFrame idx) = 0#32 := by
      apply load_of_bytes
      intro i _
      simp
    exact congrArg (· &&& tpStatusUser) hz
  held := by simp [FlagRing.empty]
  frameIdx := rfl
  simulate := rfl
  poll := ⟨rfl, rfl⟩

section Producer
variable {file : List Byte} {s : MockReceiver} {r : FlagRing (List Byte)}

theorem Handover.frameIdx_lt (h : Handover file s r) : s.frameIdx < rxFrameNr :=
  h.frameIdx ▸ Nat.mod_lt _ rxFrameNr_pos

/-- A move of the producer that leaves the ring alone. -/
theorem Handover.move (h : Handover file s r) {data : Nat} {pc : SimulatePc}
    (hpc : SimulateOk file s.ring r data s.frameIdx pc) :
    Handover file { s with data := data, simulatePc := pc } r :=
  ⟨h.inv, h.free, h.held, h.frameIdx, hpc, h.poll⟩

theorem Handover.nextRecord (h : Handover file s r) (hpc : s.simulatePc = .next) :
    Handover file (s.nextRecord file) r := by
  have hrec : completeRecords file = r.filled ++ completeRecords (file.drop s.data) := by
    have hsim := h.simulate
    rw [hpc] at hsim
    exact hsim
  obtain ⟨data, heq, hend⟩ | ⟨messageLen, heq, hlen, hdrop⟩ := s.nextRecord_cases file
  · rw [heq]
    apply h.move
    rw [SimulateOk, hrec, hend, List.append_nil]
  · rw [heq]
    apply h.move
    exact ⟨hlen, by rw [hrec, hdrop]⟩

/-- Stores of the producer into its own free frame. -/
theorem Handover.ownWrite (h : Handover file s r) {ring : Memory} {pc : SimulatePc}
    (hown : r.cells s.frameIdx = none)
    (hother : ∀ idx, idx ≠ s.frameIdx → SameFrame s.ring ring idx)
    (hstatus : tpStatus ring (rxFrame s.frameIdx) = tpStatus s.ring (rxFrame s.frameIdx))
    (hpc : SimulateOk file ring r s.data s.frameIdx pc) :
    Handover file { s with ring := ring, simulatePc := pc } r where
  inv := h.inv
  free := by
    intro idx hidx hc
    by_cases he : idx = s.frameIdx
    · rw [he, hstatus, ← he]
      exact h.free idx hidx hc
    · rw [(hother idx he).status]
      exact h.free idx hidx hc
  held := by
    intro idx hidx m hc
    have hne : idx ≠ s.frameIdx := by
      rintro rfl
      rw [hown] at hc
      cases hc
    exact (h.held idx hidx m hc).congr (hother idx hne)
  frameIdx := h.frameIdx
  simulate := hpc
  poll := h.poll

theorem Handover.setHeader (h : Handover file s r) {messageLen : BitVec 16}
    (hpc : s.simulatePc = .fill messageLen) :
    Handover file { s with ring := setHeader s.ring (rxFrame s.frameIdx) messageLen
                           simulatePc := .copy messageLen } r := by
  have hsim := h.simulate
  rw [hpc] at hsim
  obtain ⟨hup, hown⟩ := hsim
  apply h.ownWrite hown
  · exact fun idx hne => setHeader_sameFrame messageLen hne
  · exact setHeader_status s.ring _ messageLen
  · exact ⟨hup, hown, setHeader_set s.ring s.frameIdx messageLen⟩

theorem Upcoming.length_eq {data : Nat} {messageLen : BitVec 16}
    (h : Upcoming file r data messageLen) :
    ((file.drop data).take messageLen.toNat).length = messageLen.toNat := by
  have hb := h.bounded
  rw [List.length_take, List.length_drop]
  omega

theorem Upcoming.fits {data : Nat} {messageLen : BitVec 16} (h : Upcoming file r data messageLen)
    (hfit : RecordsFit file) : 32 + messageLen.toNat ≤ rxFrameSize := by
  have hm := hfit ((file.drop data).take messageLen.toNat) (by rw [h.records]; simp)
  rw [h.length_eq] at hm
  have h32 : rxFrameSize - tpacketAlign sizeofTpacket2Hdr + 32 = rxFrameSize := by decide
  omega

theorem Handover.copyPayload (h : Handover file s r) (hfit : RecordsFit file)
    {messageLen : BitVec 16} (hpc : s.simulatePc = .copy messageLen) :
    Handover file
      { s with ring := store s.ring (rxFrame s.frameIdx + (tpMac s.ring (rxFrame s.frameIdx)).toNat)
                 ((file.drop s.data).take messageLen.toNat)
               simulatePc := .publish messageLen } r := by
  have hsim := h.simulate
  rw [hpc] at hsim
  obtain ⟨hup, hown, hset⟩ := hsim
  have hlen := hup.length_eq
  have hfits := hup.fits hfit
  rw [hset.mac]
  have hlow : ∀ offset n, offset + n ≤ 32 →
      load (store s.ring (rxFrame s.frameIdx + 32) ((file.drop s.data).take messageLen.toNat))
        (rxFrame s.frameIdx + offset) n = load s.ring (rxFrame s.frameIdx + offset) n :=
    fun offset n hn => load_store_of_disjoint (Or.inl (by omega))
  apply h.ownWrite hown
  · exact fun idx hne => store_sameFrame (by omega) hne
  · exact load_store_of_disjoint (Or.inl (by omega))
  · refine ⟨hup, hown, ⟨?_, ?_, ?_⟩, ?_⟩
    · rw [tpSnaplen, hlow 8 4 (by decide)]
      exact hset.snaplen
    · rw [tpMac, hlow 12 2 (by decide)]
      exact hset.mac
    · rw [tpNet, hlow 14 2 (by decide)]
      exact hset.net
    · have hslice := slice_store_self s.ring (rxFrame s.frameIdx + 32)
        ((file.drop s.data).take messageLen.toNat)
      rw [hlen] at hslice
      exact hslice

/-- What the consumer knows survives the filling of a free cell. -/
theorem PollOk.fill {currFrameIdx : Nat} {parsed : List (List Byte)} {pc : PollPc}
    (h : PollOk r currFrameIdx parsed pc) (hinv : r.Inv rxFrameNr)
    (hown : r.cells (r.filled.length % rxFrameNr) = none) (m : List Byte) :
    PollOk (r.fill rxFrameNr m) currFrameIdx parsed pc := by
  have htake : ∀ n ≤ r.filled.length, (r.filled ++ [m]).take n = r.filled.take n :=
    fun n hn => List.take_append_of_le_length hn
  have hcell : ∀ v, r.cells currFrameIdx = some v →
      (r.fill rxFrameNr m).cells currFrameIdx = some v := by
    intro v hv
    have hne : currFrameIdx ≠ r.filled.length % rxFrameNr := by
      rintro rfl
      rw [hown] at hv
      cases hv
    rw [FlagRing.fill_cells, if_neg hne, hv]
  cases pc with
  | wait => exact ⟨h.1, by rw [FlagRing.fill, htake _ hinv.le]; exact h.2⟩
  | advance => exact ⟨h.1, by rw [FlagRing.fill, htake _ hinv.le]; exact h.2⟩
  | parse =>
    obtain ⟨hidx, hp, v, hv⟩ := h
    exact ⟨hidx, by rw [FlagRing.fill, htake _ hinv.le]; exact hp, v, hcell v hv⟩
  | release =>
    obtain ⟨hidx, hp, v, hv⟩ := h
    have hlt := (List.getElem?_eq_some_iff.mp (hinv.oldest rxFrameNr_pos (hidx ▸ hv))).1
    exact ⟨hidx, by rw [FlagRing.fill, htake _ hlt]; exact hp, v, hcell v hv⟩

/-- The status word makes the frame the consumer's. -/
theorem FrameHolds.publish {ring : Memory} {idx : Nat} {messageLen : BitVec 16} {m : List Byte}
    (hset : HeaderSet ring idx messageLen) (hlen : m.length = messageLen.toNat)
    (hfits : 32 + messageLen.toNat ≤ rxFrameSize)
    (hm : slice ring (rxFrame idx + 32) messageLen.toNat = m) :
    FrameHolds (setStatus ring (rxFrame idx) tpStatusUser) idx m := by
  have hbytes := length_leBytes 4 tpStatusUser
  refine ⟨?_, ?_, ?_, ?_, by omega⟩
  · rw [tpStatus, setStatus, load_store_self]
    decide
  · rw [tpSnaplen, setStatus, load_store_of_disjoint (by omega), hlen]
    exact hset.snaplen
  · rw [tpNet, setStatus, load_store_of_disjoint (by omega)]
    exact hset.net
  · rw [hlen, ← hm]
    apply slice_congr
    intro i _
    exact store_of_ge (by omega)

theorem Handover.publish (h : Handover file s r) (hfit : RecordsFit file)
    {messageLen : BitVec 16} (hpc : s.simulatePc = .publish messageLen) :
    Handover file
      { s with ring := setStatus s.ring (rxFrame s.frameIdx) tpStatusUser
               data := s.data + messageLen.toNat
               frameIdx := (s.frameIdx + 1) % rxFrameNr
               simulatePc := .next }
      (r.fill rxFrameNr ((file.drop s.data).take messageLen.toNat)) := by
  have hsim := h.simulate
  rw [hpc] at hsim
  obtain ⟨hup, hown, hset, hslice⟩ := hsim
  have hfull := FrameHolds.publish hset hup.length_eq (hup.fits hfit) hslice
  have hown' : r.cells (r.filled.length % rxFrameNr) = none := h.frameIdx ▸ hown
  have hcells : ∀ idx, (r.fill rxFrameNr ((file.drop s.data).take messageLen.toNat)).cells idx =
      if idx = s.frameIdx then some ((file.drop s.data).take messageLen.toNat)
      else r.cells idx := by
    intro idx
    rw [h.frameIdx, FlagRing.fill_cells]
  refine ⟨h.inv.fill rxFrameNr_pos hown' _, ?_, ?_, ?_, ?_, h.poll.fill h.inv hown' _⟩
  · intro idx hidx hc
    rw [hcells] at hc
    split_ifs at hc with hne
    rw [(setStatus_sameFrame tpStatusUser hne).status]
    exact h.free idx hidx hc
  · intro idx hidx m hc
    rw [hcells] at hc
    split_ifs at hc with hne
    · cases hc
      rw [hne]
      exact hfull
    · exact (h.held idx hidx m hc).congr (setStatus_sameFrame tpStatusUser hne)
  · simp only [FlagRing.fill, List.length_append, List.length_singleton]
    rw [h.frameIdx, RingIndex.mod_succ_mod]
  · rw [SimulateOk, hup.records, FlagRing.fill, List.append_assoc]
    rfl

/-- Every step of the producer is a step of the abstract ring or none. -/
theorem Handover.simulatePackets (h : Handover file s r) (hfit : RecordsFit file) :
    ∃ r', Handover file (s.simulatePackets file) r' := by
  rw [MockReceiver.simulatePackets]
  cases hpc : s.simulatePc with
  | next => exact ⟨r, h.nextRecord hpc⟩
  | fill messageLen => exact ⟨r, h.setHeader hpc⟩
  | copy messageLen => exact ⟨r, h.copyPayload hfit hpc⟩
  | publish messageLen => exact ⟨_, h.publish hfit hpc⟩
  | finished => exact ⟨r, h⟩
  | wait messageLen =>
    have hup := h.simulate
    rw [hpc] at hup
    dsimp only
    split_ifs with hbusy
    · exact ⟨r, h⟩
    · refine ⟨r, h.move ⟨hup, ?_⟩⟩
      cases hc : r.cells s.frameIdx with
      | none => rfl
      | some m => exact absurd (h.held _ h.frameIdx_lt m hc).user hbusy

end Producer

section Consumer
variable {file : List Byte} {s : MockReceiver} {r : FlagRing (List Byte)}

theorem FrameHolds.read {ring : Memory} {idx : Nat} {m : List Byte} (h : FrameHolds ring idx m) :
    slice ring (rxFrame idx + (tpNet ring (rxFrame idx)).toNat)
      (tpSnaplen ring (rxFrame idx)).toNat = m := by
  rw [h.net, h.snaplen, h.payload]

theorem take_succ_of_getElem? {l : List (List Byte)} {n : Nat} {m : List Byte}
    (h : l[n]? = some m) : l.take (n+1) = l.take n ++ [m] := by
  rw [List.take_add_one, h]
  rfl

theorem Handover.parse (h : Handover file s r) (hpc : s.pollPc = .parse) :
    Handover file
      { s with parsed := s.parsed ++ [slice s.ring
                 (rxFrame s.currFrameIdx + (tpNet s.ring (rxFrame s.currFrameIdx)).toNat)
                 (tpSnaplen s.ring (rxFrame s.currFrameIdx)).toNat]
               pollPc := .release } r := by
  have hpoll := h.poll
  rw [hpc] at hpoll
  obtain ⟨hidx, hp, m, hm⟩ := hpoll
  have hlt : s.currFrameIdx < rxFrameNr := hidx ▸ Nat.mod_lt _ rxFrameNr_pos
  have hold := h.inv.oldest rxFrameNr_pos (hidx ▸ hm)
  refine ⟨h.inv, h.free, h.held, h.frameIdx, h.simulate, hidx, ?_, m, hm⟩
  rw [(h.held _ hlt m hm).read, hp, take_succ_of_getElem? hold]

/-- What the producer knows of its free frame survives the release of another frame. -/
theorem SimulateOk.free {ring ring' : Memory} {data frameIdx currFrameIdx : Nat} {m : List Byte}
    {pc : SimulatePc} (h : SimulateOk file ring r data frameIdx pc)
    (hidx : currFrameIdx = r.freed % rxFrameNr) (hm : r.cells currFrameIdx = some m)
    (hother : ∀ idx, idx ≠ currFrameIdx → SameFrame ring ring' idx)
    (hfits : ∀ messageLen, Upcoming file r data messageLen →
      32 + messageLen.toNat ≤ rxFrameSize) :
    SimulateOk file ring' (r.free rxFrameNr) data frameIdx pc := by
  have hsame : r.cells frameIdx = none → SameFrame ring ring' frameIdx := by
    intro hown
    apply hother
    rintro rfl
    rw [hm] at hown
    cases hown
  have hfree : r.cells frameIdx = none → (r.free rxFrameNr).cells frameIdx = none := by
    intro hown
    rw [FlagRing.free_cells, hown, ite_self]
  cases pc with
  | next => exact h
  | wait messageLen => exact ⟨h.bounded, h.records⟩
  | finished => exact h
  | fill messageLen => exact ⟨⟨h.1.bounded, h.1.records⟩, hfree h.2⟩
  | copy messageLen =>
    obtain ⟨hup, hown, hset⟩ := h
    exact ⟨⟨hup.bounded, hup.records⟩, hfree hown, hset.congr (hsame hown)⟩
  | publish messageLen =>
    obtain ⟨hup, hown, hset, hslice⟩ := h
    refine ⟨⟨hup.bounded, hup.records⟩, hfree hown, hset.congr (hsame hown), ?_⟩
    rw [(hsame hown).slice (hfits messageLen hup), hslice]

theorem Handover.release (h : Handover file s r) (hfit : RecordsFit file)
    (hpc : s.pollPc = .release) :
    Handover file
      { s with ring := setStatus s.ring (rxFrame s.currFrameIdx) tpStatusKernel
               pollPc := .advance } (r.free rxFrameNr) := by
  have hpoll := h.poll
  rw [hpc] at hpoll
  obtain ⟨hidx, hp, m, hm⟩ := hpoll
  have hother : ∀ idx, idx ≠ s.currFrameIdx → SameFrame s.ring
      (setStatus s.ring (rxFrame s.currFrameIdx) tpStatusKernel) idx :=
    fun idx hne => setStatus_sameFrame tpStatusKernel hne
  have hcells : ∀ idx, (r.free rxFrameNr).cells idx =
      if idx = s.currFrameIdx then none else r.cells idx := by
    intro idx
    rw [hidx, FlagRing.free_cells]
  refine ⟨h.inv.free rxFrameNr_pos (hidx ▸ hm), ?_, ?_, h.frameIdx, ?_, ?_, hp⟩
  · intro idx hlt hc
    rw [hcells] at hc
    split_ifs at hc with hne
    · rw [hne, tpStatus, setStatus, load_store_self]
      decide
    · rw [(hother idx hne).status]
      exact h.free idx hlt hc
  · intro idx hlt v hc
    rw [hcells] at hc
    split_ifs at hc with hne
    exact (h.held idx hlt v hc).congr (hother idx hne)
  · exact h.simulate.free hidx hm hother fun _ hup => hup.fits hfit
  · dsimp only
    rw [hidx, RingIndex.mod_succ_mod]
    rfl

/-- Every step of the consumer is a step of the abstract ring or none. -/
theorem Handover.pollSimulation (h : Handover file s r) (hfit : RecordsFit file) :
    ∃ r', Handover file s.pollSimulation r' := by
  rw [MockReceiver.pollSimulation]
  cases hpc : s.pollPc with
  | parse => exact ⟨r, h.parse hpc⟩
  | release => exact ⟨_, h.release hfit hpc⟩
  | advance =>
    have hpoll := h.poll
    rw [hpc] at hpoll
    exact ⟨r, h.inv, h.free, h.held, h.frameIdx, h.simulate, hpoll⟩
  | wait =>
    have hpoll := h.poll
    rw [hpc] at hpoll
    obtain ⟨hidx, hp⟩ := hpoll
    dsimp only
    split_ifs with hfree
    · exact ⟨r, h⟩
    · refine ⟨r, h.inv, h.free, h.held, h.frameIdx, h.simulate, hidx, hp, ?_⟩
      cases hc : r.cells s.currFrameIdx with
      | none => exact absurd (h.free _ (hidx ▸ Nat.mod_lt _ rxFrameNr_pos) hc) hfree
      | some m => exact ⟨m, rfl⟩

end Consumer

section Delivery
variable {file : List Byte} {s : MockReceiver} {r : FlagRing (List Byte)}

theorem SimulateOk.filled_initial {ring : Memory} {data frameIdx : Nat} {pc : SimulatePc}
    (h : SimulateOk file ring r data frameIdx pc) : r.filled <+: completeRecords file := by
  cases pc with
  | next => exact ⟨_, h.symm⟩
  | wait messageLen => exact ⟨_, h.records.symm⟩
  | fill messageLen => exact ⟨_, h.1.records.symm⟩
  | copy messageLen => exact ⟨_, h.1.records.symm⟩
  | publish messageLen => exact ⟨_, h.1.records.symm⟩
  | finished => exact ⟨[], by rw [List.append_nil]; exact h.symm⟩

/-- The consumer has parsed the values it freed, and the one it holds after parsing it. -/
theorem PollOk.parsed_eq {currFrameIdx : Nat} {parsed : List (List Byte)} {pc : PollPc}
    (h : PollOk r currFrameIdx parsed pc) : ∃ n, r.freed ≤ n ∧ parsed = r.filled.take n := by
  cases pc with
  | wait => exact ⟨r.freed, Nat.le_refl _, h.2⟩
  | parse => exact ⟨r.freed, Nat.le_refl _, h.2.1⟩
  | release => exact ⟨r.freed + 1, Nat.le_succ _, h.2.1⟩
  | advance => exact ⟨r.freed, Nat.le_refl _, h.2⟩

/-- From seeing the user status to giving the frame back the consumer has a filled cell. -/
theorem PollOk.holds {currFrameIdx : Nat} {parsed : List (List Byte)} {pc : PollPc}
    (h : PollOk r currFrameIdx parsed pc) (hpc : pc = .parse ∨ pc = .release) :
    ∃ m, r.cells currFrameIdx = some m := by
  obtain rfl | rfl := hpc
  · exact h.2.2
  · exact h.2.2

theorem nextRecord_ring (file : List Byte) (s : MockReceiver) :
    (s.nextRecord file).ring = s.ring := by
  obtain ⟨data, heq, -⟩ | ⟨messageLen, heq, -⟩ := s.nextRecord_cases file
  · rw [heq]
  · rw [heq]

/-- The producer stores only into a frame that the abstract ring has free. -/
theorem Handover.untouched (h : Handover file s r) (hfit : RecordsFit file) {idx : Nat}
    {m : List Byte} (hm : r.cells idx = some m) :
    SameFrame s.ring (s.simulatePackets file).ring idx := by
  have hne : r.cells s.frameIdx = none → idx ≠ s.frameIdx := by
    rintro hown rfl
    rw [hm] at hown
    cases hown
  have hsim := h.simulate
  have hrefl : SameFrame s.ring s.ring idx := fun _ _ _ => rfl
  rw [MockReceiver.simulatePackets]
  cases hpc : s.simulatePc with
  | next =>
    dsimp only
    rw [nextRecord_ring]
    exact hrefl
  | wait messageLen =>
    dsimp only
    split_ifs
    · exact hrefl
    · exact hrefl
  | fill messageLen =>
    rw [hpc] at hsim
    exact setHeader_sameFrame messageLen (hne hsim.2)
  | copy messageLen =>
    rw [hpc] at hsim
    obtain ⟨hup, hown, hset⟩ := hsim
    have hlen := hup.length_eq
    have hfits := hup.fits hfit
    dsimp only
    rw [hset.mac]
    exact store_sameFrame (by omega) (hne hown)
  | publish messageLen =>
    rw [hpc] at hsim
    exact setStatus_sameFrame tpStatusUser (hne hsim.2.1)
  | finished => exact hrefl

theorem Handover.delivers (h : Handover file s r) (hfit : RecordsFit file) : Delivers file s := by
  obtain ⟨n, hn, hp⟩ := h.poll.parsed_eq
  refine ⟨?_, ?_, ?_⟩
  · rw [hp]
    exact (List.take_prefix n r.filled).trans h.simulate.filled_initial
  · intro hpc
    obtain ⟨m, hm⟩ := h.poll.holds hpc
    exact h.untouched hfit hm
  · intro hpc hback
    have hsim := h.simulate
    rw [hpc] at hsim
    have hcells : ∀ idx < rxFrameNr, r.cells idx = none := by
      intro idx hidx
      cases hc : r.cells idx with
      | none => rfl
      | some m =>
        have huser := (h.held idx hidx m hc).user
        rw [hback idx hidx] at huser
        exact absurd rfl huser
    have hall := h.inv.all_free rxFrameNr_pos hcells
    rw [hp, List.take_of_length_le (by omega)]
    exact hsim.symm

end Delivery

theorem run_handover (file : List Byte) (hfit : RecordsFit file) (schedule : List ReceiverThread) :
    ∃ r, Handover file (MockReceiver.run file schedule) r := by
  refine StepRun.invariant (I := fun s => ∃ r, Handover file s r) schedule
    ⟨.empty, Handover.start file⟩ ?_
  rintro s t ⟨r, h⟩
  cases t with
  | simulate => exact h.simulatePackets hfit
  | poll => exact h.pollSimulation hfit

/-- Under every interleaving of the two threads the ring delivers the records of the file. -/
theorem run_delivers (file : List Byte) (hfit : RecordsFit file) (schedule : List ReceiverThread) :
    Delivers file (MockReceiver.run file schedule) := by
  obtain ⟨r, h⟩ := run_handover file hfit schedule
  exact h.delivers hfit

def cutOffFile : List Byte := [0#8, 2#8, 5#8, 6#8, 0#8, 0#8, 0#8, 3#8, 9#8]

theorem completeRecords_cutOffFile : completeRecords cutOffFile = [[5#8, 6#8], []] := by
  simp [cutOffFile, completeRecords, bigEndian]

/-- The two threads take turns until both records are through. -/
theorem cutOffFile_delivered :
    Delivers cutOffFile (MockReceiver.run cutOffFile
      ((List.replicate 12 [ReceiverThread.simulate, .poll]).flatten)) ∧
    (MockReceiver.run cutOffFile
      ((List.replicate 12 [ReceiverThread.simulate, .poll]).flatten)).parsed = [[5#8, 6#8], []] := by
  refine ⟨run_delivers cutOffFile ?_ _, by decide +kernel⟩
  intro m hm
  rw [completeRecords_cutOffFile] at hm
  have hcases : m = [5#8, 6#8] ∨ m = [] := by simpa using hm
  obtain rfl | rfl := hcases
  · decide
  · decide

end MarketDataBook
