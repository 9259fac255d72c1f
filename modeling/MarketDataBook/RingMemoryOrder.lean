import MarketDataBook.Library.PassedFlag
import MarketDataBook.RingHandover

/-! The RX ring of `network/MulticastReceiver.h` in mock mode with the memory orders it asks for:
acquire loads and release stores of the status words through `atomic_ref`, plain accesses to all
other bytes. A load of a status word may return an old store. That only makes a thread wait
longer: every run is one of the sequentially consistent model, and no two accesses race. -/
namespace MarketDataBook
open ByteMemory ReleaseAcquire

/-- The status words are the atomic locations, by frame, and the bytes the plain ones. -/
abbrev RxMemory := Machine ReceiverThread Nat Nat (BitVec 32) Byte

structure WeakReceiver where
  mem : RxMemory
  data : Nat
  frameIdx : Nat
  simulatePc : SimulatePc
  currFrameIdx : Nat
  pollPc : PollPc
  parsed : List (List Byte)

/-- The ring as it would be if every load returned the newest store. -/
def newestRing (m : RxMemory) : Memory := fun a =>
  if a % rxFrameSize < 4 then
    (m.latest (a / rxFrameSize) 0#32).extractLsb' (8 * (a % rxFrameSize)) 8
  else (m.cell a).value

namespace WeakReceiver

def start : WeakReceiver := ⟨.start (fun _ => 0#32) (fun _ => 0#8), 0, 0, .next, 0, .wait, []⟩

def newest (s : WeakReceiver) : MockReceiver :=
  ⟨newestRing s.mem, s.data, s.frameIdx, s.simulatePc, s.currFrameIdx, s.pollPc, s.parsed⟩

def bytes (s : WeakReceiver) : Memory := fun a => (s.mem.cell a).value

def span (addr n : Nat) (ring : Memory) : Nat → Option Byte := fun a =>
  if addr ≤ a ∧ a < addr + n then some (ring a) else none

/-- The plain bytes that the next step of `simulate_packets` writes: the header members from
`tp_len` to `tp_net`, or the payload. -/
def writes (file : List Byte) (s : WeakReceiver) : Nat → Option Byte :=
  let frame := rxFrame s.frameIdx
  match s.simulatePc with
  | .fill messageLen => span (frame + 4) 12 (setHeader s.bytes frame messageLen)
  | .copy messageLen =>
    let addr := frame + (tpMac s.bytes frame).toNat
    span addr messageLen.toNat (store s.bytes addr ((file.drop s.data).take messageLen.toNat))
  | _ => fun _ => none

/-- The plain bytes that the next step of `poll_simulation` reads: `tp_snaplen`, `tp_net` and the
payload. -/
def reads (s : WeakReceiver) : Nat → Bool :=
  let frame := rxFrame s.currFrameIdx
  match s.pollPc with
  | .parse => fun a => decide (frame + 8 ≤ a ∧ a < frame + 12 ∨ frame + 14 ≤ a ∧ a < frame + 16 ∨
      frame + (tpNet s.bytes frame).toNat ≤ a ∧
        a < frame + (tpNet s.bytes frame).toNat + (tpSnaplen s.bytes frame).toNat)
  | _ => fun _ => false

def simulatePackets (file : List Byte) (s : WeakReceiver) (n : Nat) : WeakReceiver :=
  match s.simulatePc with
  | .next =>
    let next := s.newest.nextRecord file
    { s with data := next.data, simulatePc := next.simulatePc }
  | .wait messageLen =>
    let status := s.mem.valueAt s.frameIdx n 0#32
    let s := { s with mem := s.mem.loadAcquire .simulate s.frameIdx n }
    if status &&& tpStatusUser ≠ 0 then s else { s with simulatePc := .fill messageLen }
  | .fill messageLen =>
    { s with mem := s.mem.writeCells .simulate (s.writes file), simulatePc := .copy messageLen }
  | .copy messageLen =>
    { s with mem := s.mem.writeCells .simulate (s.writes file), simulatePc := .publish messageLen }
  | .publish messageLen =>
    { s with
      mem := s.mem.storeRelease .simulate s.frameIdx tpStatusUser
      data := s.data + messageLen.toNat
      frameIdx := (s.frameIdx + 1) % rxFrameNr
      simulatePc := .next }
  | .finished => s

def pollSimulation (s : WeakReceiver) (n : Nat) : WeakReceiver :=
  let frame := rxFrame s.currFrameIdx
  match s.pollPc with
  | .wait =>
    let status := s.mem.valueAt s.currFrameIdx n 0#32
    let s := { s with mem := s.mem.loadAcquire .poll s.currFrameIdx n }
    if status &&& tpStatusUser = 0 then s else { s with pollPc := .parse }
  | .parse =>
    let payload := slice s.bytes (frame + (tpNet s.bytes frame).toNat)
      (tpSnaplen s.bytes frame).toNat
    { s with mem := s.mem.readCells .poll s.reads
             parsed := s.parsed ++ [payload], pollPc := .release }
  | .release =>
    { s with mem := s.mem.storeRelease .poll s.currFrameIdx tpStatusKernel, pollPc := .advance }
  | .advance => { s with currFrameIdx := (s.currFrameIdx + 1) % rxFrameNr, pollPc := .wait }

def step (file : List Byte) (s : WeakReceiver) : ReceiverThread × Nat → WeakReceiver
  | (.simulate, n) => s.simulatePackets file n
  | (.poll, n) => s.pollSimulation n

def loads (s : WeakReceiver) : ReceiverThread → Option Nat
  | .simulate => match s.simulatePc with
    | .wait _ => some s.frameIdx
    | _ => none
  | .poll => match s.pollPc with
    | .wait => some s.currFrameIdx
    | _ => none

def Legal (s : WeakReceiver) (a : ReceiverThread × Nat) : Prop :=
  ∀ idx ∈ s.loads a.1, s.mem.Readable a.1 idx a.2

instance (s : WeakReceiver) (a : ReceiverThread × Nat) : Decidable (s.Legal a) :=
  inferInstanceAs (Decidable (∀ idx ∈ s.loads a.1, s.mem.Readable a.1 idx a.2))

/-- The plain accesses that the threads make next have every conflicting access before them. -/
def RaceFree (file : List Byte) (s : WeakReceiver) : Prop :=
  (∀ a, (s.writes file a).isSome = true → s.mem.WriteOrdered .simulate a) ∧
  ∀ a, s.reads a = true → s.mem.ReadOrdered .poll a

end WeakReceiver

def frameTurn (status : BitVec 32) : ReceiverThread :=
  if status &&& tpStatusUser = 0 then .simulate else .poll

def InFrame (idx a : Nat) : Prop := rxFrame idx + 4 ≤ a ∧ a < rxFrame idx + rxFrameSize

theorem InFrame.unique {idx idx' a : Nat} (h : InFrame idx a) (h' : InFrame idx' a) : idx = idx' := by
  obtain hlt | heq | hgt := Nat.lt_trichotomy idx idx'
  · have hsep := rxFrame_add_le hlt
    have hend := h.2
    have hbegin := h'.1
    omega
  · exact heq
  · have hsep := rxFrame_add_le hgt
    have hend := h'.2
    have hbegin := h.1
    omega

section Newest
variable {m m' : RxMemory} {idx i : Nat}

theorem newestRing_status (m : RxMemory) (idx : Nat) (hi : i < 4) :
    newestRing m (rxFrame idx + i) = (m.latest idx 0#32).extractLsb' (8 * i) 8 := by
  have hmod : (rxFrame idx + i) % rxFrameSize = i := by
    simp only [rxFrame, rxFrameSize]
    omega
  have hdiv : (rxFrame idx + i) / rxFrameSize = idx := by
    simp only [rxFrame, rxFrameSize]
    omega
  rw [newestRing, hmod, hdiv, if_pos hi]

theorem newestRing_plain {a : Nat} (ha : InFrame idx a) : newestRing m a = (m.cell a).value := by
  have hmod : ¬ a % rxFrameSize < 4 := by
    have hbegin := ha.1
    have hend := ha.2
    simp only [rxFrame, rxFrameSize] at hbegin hend ⊢
    omega
  rw [newestRing, if_neg hmod]

/-- Each address is in a status word or among the bytes behind one. -/
theorem address_cases (a : Nat) : ∃ idx, (∃ i < 4, a = rxFrame idx + i) ∨ InFrame idx a := by
  refine ⟨a / rxFrameSize, ?_⟩
  by_cases hlow : a % rxFrameSize < 4
  · refine Or.inl ⟨a % rxFrameSize, hlow, ?_⟩
    simp only [rxFrame, rxFrameSize]
    omega
  · refine Or.inr ⟨?_, ?_⟩
    · simp only [rxFrame, rxFrameSize] at hlow ⊢
      omega
    · simp only [rxFrame, rxFrameSize]
      omega

theorem newestRing_congr (hs : m'.stores = m.stores)
    (hc : ∀ a, (m'.cell a).value = (m.cell a).value) : newestRing m' = newestRing m := by
  funext a
  simp only [newestRing, Machine.latest, Machine.valueAt, hs, hc]

theorem tpStatus_newestRing (m : RxMemory) (idx : Nat) :
    tpStatus (newestRing m) (rxFrame idx) = m.latest idx 0#32 :=
  load_of_bytes fun _ hi => newestRing_status m idx hi

theorem newestRing_storeRelease (m : RxMemory) (t : ReceiverThread) (idx : Nat) (v : BitVec 32) :
    newestRing (m.storeRelease t idx v) = setStatus (newestRing m) (rxFrame idx) v := by
  funext a
  obtain ⟨j, ⟨i, hi, rfl⟩ | ha⟩ := address_cases a
  · rw [newestRing_status _ _ hi, Machine.storeRelease_latest]
    split_ifs with hj
    · rw [hj, setStatus, store_of_mem (getElem?_leBytes v hi)]
    · rw [setStatus_sameFrame v hj _ (Nat.le_add_right _ _) (by simp only [rxFrameSize]; omega),
        newestRing_status _ _ hi]
  · rw [newestRing_plain ha]
    by_cases hj : j = idx
    · rw [← hj, setStatus, store_of_ge (by rw [length_leBytes]; exact ha.1), newestRing_plain ha]
      rfl
    · have hbegin := ha.1
      rw [setStatus_sameFrame v hj _ (by omega) ha.2, newestRing_plain ha]
      rfl

/-- Plain stores inside a frame are the same stores to the newest ring. -/
theorem newestRing_span (idx : Nat) {addr n : Nat} {ring ring' : Memory} (t : ReceiverThread)
    (hin : ∀ a, addr ≤ a → a < addr + n → InFrame idx a)
    (hsame : ∀ a, addr ≤ a → a < addr + n → ring a = ring' a)
    (hout : ∀ a, ¬ (addr ≤ a ∧ a < addr + n) → ring' a = newestRing m a) :
    newestRing (m.writeCells t (WeakReceiver.span addr n ring)) = ring' := by
  funext a
  by_cases ha : addr ≤ a ∧ a < addr + n
  · rw [newestRing_plain (hin a ha.1 ha.2), Machine.writeCells_cell_value, WeakReceiver.span,
      if_pos ha, ← hsame a ha.1 ha.2]
    rfl
  · rw [hout a ha]
    simp only [newestRing, Machine.writeCells_cell_value, WeakReceiver.span, if_neg ha]
    rfl

end Newest

theorem store_apply_congr {ring ring' : Memory} {a : Nat} (h : ring a = ring' a) (addr : Nat)
    (bytes : List Byte) : store ring addr bytes a = store ring' addr bytes a := by
  simp only [store, h]

/-- What the header stores leave at an address depends on nothing else. -/
theorem setHeader_congr {ring ring' : Memory} {a : Nat} (h : ring a = ring' a) (frame : Nat)
    (messageLen : BitVec 16) :
    setHeader ring frame messageLen a = setHeader ring' frame messageLen a := by
  have hmac : ∀ r : Memory, tpMac (store r (frame + 12)
      (leBytes 2 (BitVec.ofNat 16 (tpacketAlign sizeofTpacket2Hdr)))) frame =
        BitVec.ofNat 16 (tpacketAlign sizeofTpacket2Hdr) := fun r => load_store_self r _ 2 _
  simp only [setHeader, hmac]
  exact store_apply_congr (store_apply_congr (store_apply_congr (store_apply_congr h _ _) _ _) _ _) _ _

theorem setHeader_of_not_mem {ring : Memory} {frame a : Nat} (messageLen : BitVec 16)
    (h : ¬ (frame + 4 ≤ a ∧ a < frame + 4 + 12)) : setHeader ring frame messageLen a = ring a := by
  have hstore : ∀ (m : Memory) (offset n : Nat) (v : BitVec (8 * n)), 4 ≤ offset → offset + n ≤ 16 →
      store m (frame + offset) (leBytes n v) a = m a := by
    intro m offset n v hl hr
    have hlen := length_leBytes n v
    obtain hlt | hge := Nat.lt_or_ge a (frame + 4)
    · exact store_of_lt (by omega)
    · exact store_of_ge (by omega)
  rw [setHeader, hstore _ 14 2 _ (by decide) (by decide), hstore _ 12 2 _ (by decide) (by decide),
    hstore _ 4 4 _ (by decide) (by decide), hstore _ 8 4 _ (by decide) (by decide)]

def SimulatePc.holds : SimulatePc → Bool
  | .fill _ => true
  | .copy _ => true
  | .publish _ => true
  | _ => false

def PollPc.holds : PollPc → Bool
  | .parse => true
  | .release => true
  | _ => false

structure FramesPassed (s : WeakReceiver)
    (last : Nat → Store ReceiverThread Nat (BitVec 32)) : Prop where
  synced : s.mem.Synced
  passed : ∀ idx, s.mem.Passed idx (InFrame idx) frameTurn (last idx)
  simulate : s.simulatePc.holds = true →
    s.mem.Holds s.frameIdx frameTurn (last s.frameIdx) .simulate
  poll : s.pollPc.holds = true →
    s.mem.Holds s.currFrameIdx frameTurn (last s.currFrameIdx) .poll

theorem FramesPassed.start : FramesPassed .start (fun _ => ⟨0#32, .bottom⟩) where
  synced := Machine.synced_start _ _
  passed := fun idx => Machine.passed_start _ _ idx _ _
  simulate := fun h => absurd h Bool.false_ne_true
  poll := fun h => absurd h Bool.false_ne_true

theorem valueAt_of_store {m : RxMemory} {idx n : Nat} {st : Store ReceiverThread Nat (BitVec 32)}
    (hs : (m.stores idx)[n]? = some st) : m.valueAt idx n 0#32 = st.value := by
  rw [Machine.valueAt, hs]
  rfl

section Frames
variable {file : List Byte} {s : WeakReceiver}
  {last : Nat → Store ReceiverThread Nat (BitVec 32)} {n : Nat}

/-- The threads never have the same frame. -/
theorem FramesPassed.apart (h : FramesPassed s last) (hsim : s.simulatePc.holds = true)
    (hpoll : s.pollPc.holds = true) : s.currFrameIdx ≠ s.frameIdx := by
  intro heq
  have hs := (h.simulate hsim).1
  have hp := (h.poll hpoll).1
  rw [heq, hs] at hp
  cases hp

theorem FramesPassed.waitFree (h : FramesPassed s last) {messageLen : BitVec 16}
    (hpc : s.simulatePc = .wait messageLen) (hr : s.mem.Readable .simulate s.frameIdx n) :
    FramesPassed (s.simulatePackets file n) last := by
  have hc := h.synced.consistent
  obtain ⟨st, hs⟩ := hr.store
  have hpassed := fun idx => (h.passed idx).loadAcquire hc hr
  rw [WeakReceiver.simulatePackets, hpc]
  dsimp only
  rw [valueAt_of_store hs]
  split_ifs with hbusy
  · refine ⟨h.synced.loadAcquire hr, hpassed, ?_, fun hp => (h.poll hp).loadAcquire hc hr⟩
    exact fun hp => absurd hp Bool.false_ne_true
  · refine ⟨h.synced.loadAcquire hr, hpassed, ?_, fun hp => (h.poll hp).loadAcquire hc hr⟩
    intro _
    refine (h.passed s.frameIdx).acquired hc hr hs ?_
    rw [ne_eq, not_not] at hbusy
    rw [frameTurn, if_pos hbusy]

theorem FramesPassed.writeOwn (h : FramesPassed s last) (hsim : s.simulatePc.holds = true)
    {f : Nat → Option Byte} (hin : ∀ a, (f a).isSome = true → InFrame s.frameIdx a)
    (pc : SimulatePc) :
    FramesPassed { s with mem := s.mem.writeCells .simulate f, simulatePc := pc } last where
  synced := h.synced.writeCells
  passed := by
    intro idx
    apply (h.passed idx).writeCells
    intro a ha hf
    rw [ha.unique (hin a hf)]
    exact (h.simulate hsim).1
  simulate := fun _ => (h.simulate hsim).writeCells
  poll := fun hp => (h.poll hp).writeCells

/-- A thread gives its frame away. -/
theorem FramesPassed.pass (h : FramesPassed s last) {t : ReceiverThread} {idx : Nat}
    (ht : s.mem.Holds idx frameTurn (last idx) t) (v : BitVec 32) (j : Nat) :
    (s.mem.storeRelease t idx v).Passed j (InFrame j) frameTurn
      (Function.update last idx ⟨v, (s.mem.view t).raise idx (s.mem.stores idx).length⟩ j) := by
  by_cases hj : j = idx
  · rw [hj, Function.update_self]
    exact (h.passed idx).storeRelease_self h.synced ht v
  · rw [Function.update_of_ne hj]
    exact (h.passed j).storeRelease_of_ne hj v

theorem FramesPassed.publish (h : FramesPassed s last) {messageLen : BitVec 16}
    (hpc : s.simulatePc = .publish messageLen) :
    ∃ last', FramesPassed (s.simulatePackets file n) last' := by
  have hsim : s.simulatePc.holds = true := by
    rw [hpc]
    rfl
  rw [WeakReceiver.simulatePackets, hpc]
  refine ⟨_, h.synced.storeRelease _, h.pass (h.simulate hsim) _,
    fun hp => absurd hp Bool.false_ne_true, ?_⟩
  intro hp
  have hne := h.apart hsim hp
  dsimp only
  rw [Function.update_of_ne hne]
  exact (h.poll hp).storeRelease_of_ne hne _

theorem nextRecord_holds (file : List Byte) (s : MockReceiver) :
    (s.nextRecord file).simulatePc.holds = false := by
  obtain ⟨data, heq, -⟩ | ⟨messageLen, heq, -⟩ := s.nextRecord_cases file
  · rw [heq]
    rfl
  · rw [heq]
    rfl

theorem FramesPassed.simulatePackets (h : FramesPassed s last)
    (hin : ∀ a, (s.writes file a).isSome = true → InFrame s.frameIdx a)
    (hl : s.Legal (.simulate, n)) : ∃ last', FramesPassed (s.simulatePackets file n) last' := by
  cases hpc : s.simulatePc with
  | next =>
    rw [WeakReceiver.simulatePackets, hpc]
    refine ⟨last, h.synced, h.passed, ?_, h.poll⟩
    dsimp only
    rw [nextRecord_holds]
    exact fun hp => absurd hp Bool.false_ne_true
  | wait messageLen =>
    have hr : s.mem.Readable .simulate s.frameIdx n :=
      hl s.frameIdx (by rw [WeakReceiver.loads, hpc]; rfl)
    exact ⟨last, h.waitFree hpc hr⟩
  | fill messageLen =>
    rw [WeakReceiver.simulatePackets, hpc]
    exact ⟨last, h.writeOwn (by rw [hpc]; rfl) hin _⟩
  | copy messageLen =>
    rw [WeakReceiver.simulatePackets, hpc]
    exact ⟨last, h.writeOwn (by rw [hpc]; rfl) hin _⟩
  | publish messageLen => exact h.publish hpc
  | finished =>
    rw [WeakReceiver.simulatePackets, hpc]
    exact ⟨last, h⟩

theorem FramesPassed.waitUser (h : FramesPassed s last) (hpc : s.pollPc = .wait)
    (hr : s.mem.Readable .poll s.currFrameIdx n) : FramesPassed (s.pollSimulation n) last := by
  have hc := h.synced.consistent
  obtain ⟨st, hs⟩ := hr.store
  have hpassed := fun idx => (h.passed idx).loadAcquire hc hr
  rw [WeakReceiver.pollSimulation, hpc]
  dsimp only
  rw [valueAt_of_store hs]
  split_ifs with hfree
  · refine ⟨h.synced.loadAcquire hr, hpassed, fun hp => (h.simulate hp).loadAcquire hc hr, ?_⟩
    exact fun hp => absurd hp Bool.false_ne_true
  · refine ⟨h.synced.loadAcquire hr, hpassed, fun hp => (h.simulate hp).loadAcquire hc hr, ?_⟩
    intro _
    refine (h.passed s.currFrameIdx).acquired hc hr hs ?_
    rw [frameTurn, if_neg hfree]

theorem FramesPassed.parse (h : FramesPassed s last) (hpc : s.pollPc = .parse)
    (hin : ∀ a, s.reads a = true → InFrame s.currFrameIdx a) :
    FramesPassed (s.pollSimulation n) last := by
  have hpoll : s.pollPc.holds = true := by
    rw [hpc]
    rfl
  rw [WeakReceiver.pollSimulation, hpc]
  refine ⟨h.synced.readCells, ?_, fun hp => (h.simulate hp).readCells,
    fun _ => (h.poll hpoll).readCells⟩
  intro idx
  apply (h.passed idx).readCells
  intro a ha hr
  rw [ha.unique (hin a hr)]
  exact (h.poll hpoll).1

theorem FramesPassed.release (h : FramesPassed s last) (hpc : s.pollPc = .release) :
    ∃ last', FramesPassed (s.pollSimulation n) last' := by
  have hpoll : s.pollPc.holds = true := by
    rw [hpc]
    rfl
  rw [WeakReceiver.pollSimulation, hpc]
  refine ⟨_, h.synced.storeRelease _, h.pass (h.poll hpoll) _, ?_,
    fun hp => absurd hp Bool.false_ne_true⟩
  intro hp
  have hne := (h.apart hp hpoll).symm
  dsimp only
  rw [Function.update_of_ne hne]
  exact (h.simulate hp).storeRelease_of_ne hne _

theorem FramesPassed.pollSimulation (h : FramesPassed s last)
    (hin : ∀ a, s.reads a = true → InFrame s.currFrameIdx a)
    (hl : s.Legal (.poll, n)) : ∃ last', FramesPassed (s.pollSimulation n) last' := by
  cases hpc : s.pollPc with
  | wait =>
    have hr : s.mem.Readable .poll s.currFrameIdx n :=
      hl s.currFrameIdx (by rw [WeakReceiver.loads, hpc]; rfl)
    exact ⟨last, h.waitUser hpc hr⟩
  | parse => exact ⟨last, h.parse hpc hin⟩
  | release => exact h.release hpc
  | advance =>
    rw [WeakReceiver.pollSimulation, hpc]
    exact ⟨last, h.synced, h.passed, h.simulate, fun hp => absurd hp Bool.false_ne_true⟩

end Frames

section Simulation
variable {file : List Byte} {s : WeakReceiver} {r : FlagRing (List Byte)}
  {last : Nat → Store ReceiverThread Nat (BitVec 32)} {n : Nat}

/-- Inside a frame the plain bytes are those of the newest ring. -/
theorem bytes_eq_newest (idx : Nat) {a : Nat} (ha : InFrame idx a) : s.bytes a = s.newest.ring a :=
  (newestRing_plain ha).symm

theorem load_bytes_eq {idx : Nat} (offset k : Nat) (hl : 4 ≤ offset) (hr : offset + k ≤ rxFrameSize) :
    load s.bytes (rxFrame idx + offset) k = load s.newest.ring (rxFrame idx + offset) k :=
  load_congr fun i hi => bytes_eq_newest idx ⟨by omega, by omega⟩

theorem tpMac_bytes (idx : Nat) :
    tpMac s.bytes (rxFrame idx) = tpMac s.newest.ring (rxFrame idx) :=
  load_bytes_eq 12 2 (by decide) (by decide)

theorem tpNet_bytes (idx : Nat) :
    tpNet s.bytes (rxFrame idx) = tpNet s.newest.ring (rxFrame idx) :=
  load_bytes_eq 14 2 (by decide) (by decide)

theorem tpSnaplen_bytes (idx : Nat) :
    tpSnaplen s.bytes (rxFrame idx) = tpSnaplen s.newest.ring (rxFrame idx) :=
  load_bytes_eq 8 4 (by decide) (by decide)

/-- The header that the producer has set, and the room for the payload. -/
theorem Handover.copying (h : Handover file s.newest r) (hfit : RecordsFit file)
    {messageLen : BitVec 16} (hpc : s.simulatePc = .copy messageLen) :
    (tpMac s.bytes (rxFrame s.frameIdx)).toNat = 32 ∧
      32 + messageLen.toNat ≤ rxFrameSize ∧
      ((file.drop s.data).take messageLen.toNat).length = messageLen.toNat := by
  have hsim := h.simulate
  have hpc' : s.newest.simulatePc = .copy messageLen := hpc
  rw [hpc'] at hsim
  obtain ⟨hup, -, hset⟩ := hsim
  rw [tpMac_bytes]
  exact ⟨hset.mac, hup.fits hfit, hup.length_eq⟩

/-- The producer writes inside its frame, behind the status word. -/
theorem Handover.writes_inFrame (h : Handover file s.newest r) (hfit : RecordsFit file) {a : Nat}
    (ha : (s.writes file a).isSome = true) : InFrame s.frameIdx a := by
  rw [WeakReceiver.writes] at ha
  cases hpc : s.simulatePc with
  | fill messageLen =>
    rw [hpc] at ha
    dsimp only [WeakReceiver.span] at ha
    split_ifs at ha with hspan
    · exact ⟨hspan.1, by simp only [rxFrameSize]; omega⟩
    · cases ha
  | copy messageLen =>
    obtain ⟨hmac, hroom, -⟩ := h.copying hfit hpc
    rw [hpc] at ha
    dsimp only [WeakReceiver.span] at ha
    split_ifs at ha with hspan
    · exact ⟨by omega, by omega⟩
    · cases ha
  | _ =>
    rw [hpc] at ha
    cases ha

theorem Handover.parsing (h : Handover file s.newest r) (hpc : s.pollPc = .parse) :
    ∃ m, FrameHolds s.newest.ring s.currFrameIdx m := by
  have hpoll := h.poll
  have hpc' : s.newest.pollPc = .parse := hpc
  rw [hpc'] at hpoll
  obtain ⟨hidx, -, m, hm⟩ := hpoll
  have hlt : s.newest.currFrameIdx < rxFrameNr := hidx ▸ Nat.mod_lt _ rxFrameNr_pos
  exact ⟨m, h.held _ hlt m hm⟩

/-- The consumer reads inside its frame, behind the status word. -/
theorem Handover.reads_inFrame (h : Handover file s.newest r) {a : Nat} (ha : s.reads a = true) :
    InFrame s.currFrameIdx a := by
  rw [WeakReceiver.reads] at ha
  cases hpc : s.pollPc with
  | parse =>
    obtain ⟨m, hm⟩ := h.parsing hpc
    have hnet := hm.net
    have hlen := hm.snaplen
    have hroom := hm.fits
    rw [hpc] at ha
    have hspan := of_decide_eq_true ha
    rw [tpNet_bytes, tpSnaplen_bytes, hnet, hlen] at hspan
    have hsize : rxFrameSize = 2048 := rfl
    exact ⟨by omega, by omega⟩
  | _ =>
    rw [hpc] at ha
    cases ha

theorem FramesPassed.tpStatus_eq (h : FramesPassed s last) (idx : Nat) :
    tpStatus s.newest.ring (rxFrame idx) = (last idx).value :=
  (tpStatus_newestRing s.mem idx).trans (valueAt_of_store (h.passed idx).last)

theorem newestRing_loadAcquire (m : RxMemory) (t : ReceiverThread) (idx n : Nat) :
    newestRing (m.loadAcquire t idx n) = newestRing m :=
  newestRing_congr Machine.loadAcquire_stores fun _ => by rw [Machine.loadAcquire_cell]

/-- A load of the status word lets the producer go on only if the newest one does. -/
theorem FramesPassed.waitFree_newest (h : FramesPassed s last) {messageLen : BitVec 16}
    (hpc : s.simulatePc = .wait messageLen) (hr : s.mem.Readable .simulate s.frameIdx n) :
    (s.simulatePackets file n).newest = s.newest ∨
      (s.simulatePackets file n).newest = s.newest.simulatePackets file := by
  obtain ⟨st, hs⟩ := hr.store
  rw [WeakReceiver.simulatePackets, hpc]
  dsimp only
  rw [valueAt_of_store hs]
  split_ifs with hbusy
  · refine Or.inl ?_
    simp only [WeakReceiver.newest, newestRing_loadAcquire, hpc]
  · rw [ne_eq, not_not] at hbusy
    obtain ⟨rfl, -⟩ := (h.passed s.frameIdx).loaded hr hs (if_pos hbusy)
    have hpc' : s.newest.simulatePc = .wait messageLen := hpc
    have hfree : ¬ (tpStatus s.newest.ring (rxFrame s.newest.frameIdx) &&& tpStatusUser ≠ 0) := by
      rw [not_not, ← hbusy]
      exact congrArg (· &&& tpStatusUser) (h.tpStatus_eq s.frameIdx)
    refine Or.inr ?_
    rw [MockReceiver.simulatePackets, hpc']
    dsimp only
    rw [if_neg hfree]
    simp only [WeakReceiver.newest, newestRing_loadAcquire]

theorem WeakReceiver.fill_newest {messageLen : BitVec 16}
    (hpc : s.simulatePc = .fill messageLen) :
    (s.simulatePackets file n).newest = s.newest.simulatePackets file := by
  have hpc' : s.newest.simulatePc = .fill messageLen := hpc
  have hring : newestRing (s.mem.writeCells .simulate (s.writes file)) =
      setHeader s.newest.ring (rxFrame s.frameIdx) messageLen := by
    rw [WeakReceiver.writes, hpc]
    apply newestRing_span s.frameIdx
    · intro a hl hr
      exact ⟨hl, by simp only [rxFrameSize]; omega⟩
    · intro a hl hr
      exact setHeader_congr (bytes_eq_newest s.frameIdx
        ⟨hl, by simp only [rxFrameSize]; omega⟩) _ _
    · intro a ha
      exact setHeader_of_not_mem messageLen ha
  rw [WeakReceiver.simulatePackets, hpc, MockReceiver.simulatePackets, hpc']
  simp only [WeakReceiver.newest, hring]

theorem Handover.copy_newest (h : Handover file s.newest r) (hfit : RecordsFit file)
    {messageLen : BitVec 16} (hpc : s.simulatePc = .copy messageLen) :
    (s.simulatePackets file n).newest = s.newest.simulatePackets file := by
  have hpc' : s.newest.simulatePc = .copy messageLen := hpc
  obtain ⟨hmac, hroom, hlen⟩ := h.copying hfit hpc
  have hring : newestRing (s.mem.writeCells .simulate (s.writes file)) =
      store s.newest.ring (rxFrame s.frameIdx + (tpMac s.newest.ring (rxFrame s.frameIdx)).toNat)
        ((file.drop s.data).take messageLen.toNat) := by
    rw [WeakReceiver.writes, hpc, ← tpMac_bytes, hmac]
    have hin : ∀ a, rxFrame s.frameIdx + 32 ≤ a → a < rxFrame s.frameIdx + 32 + messageLen.toNat →
        InFrame s.frameIdx a := fun a hl hr => ⟨by omega, by omega⟩
    apply newestRing_span s.frameIdx _ hin
    · intro a hl hr
      exact store_apply_congr (bytes_eq_newest s.frameIdx (hin a hl hr)) _ _
    · intro a ha
      obtain hlt | hge := Nat.lt_or_ge a (rxFrame s.frameIdx + 32)
      · exact store_of_lt hlt
      · exact store_of_ge (by omega)
  rw [WeakReceiver.simulatePackets, hpc, MockReceiver.simulatePackets, hpc']
  simp only [WeakReceiver.newest, hring]

/-- Each step of the producer is one of the sequentially consistent model, or an old load that
keeps it waiting. -/
theorem FramesPassed.simulate_newest (h : FramesPassed s last) (hh : Handover file s.newest r)
    (hfit : RecordsFit file) (hl : s.Legal (.simulate, n)) :
    (s.simulatePackets file n).newest = s.newest ∨
      (s.simulatePackets file n).newest = s.newest.simulatePackets file := by
  cases hpc : s.simulatePc with
  | next =>
    refine Or.inr ?_
    have hpc' : s.newest.simulatePc = .next := hpc
    rw [WeakReceiver.simulatePackets, hpc, MockReceiver.simulatePackets, hpc']
    obtain ⟨data, heq, -⟩ | ⟨messageLen, heq, -⟩ := s.newest.nextRecord_cases file
    · dsimp only
      rw [heq]
      rfl
    · dsimp only
      rw [heq]
      rfl
  | wait messageLen =>
    exact h.waitFree_newest hpc (hl s.frameIdx (by rw [WeakReceiver.loads, hpc]; rfl))
  | fill messageLen => exact Or.inr (WeakReceiver.fill_newest hpc)
  | copy messageLen => exact Or.inr (hh.copy_newest hfit hpc)
  | publish messageLen =>
    refine Or.inr ?_
    have hpc' : s.newest.simulatePc = .publish messageLen := hpc
    rw [WeakReceiver.simulatePackets, hpc, MockReceiver.simulatePackets, hpc']
    simp only [WeakReceiver.newest, newestRing_storeRelease]
  | finished =>
    rw [WeakReceiver.simulatePackets, hpc]
    exact Or.inl rfl

theorem FramesPassed.waitUser_newest (h : FramesPassed s last) (hpc : s.pollPc = .wait)
    (hr : s.mem.Readable .poll s.currFrameIdx n) :
    (s.pollSimulation n).newest = s.newest ∨
      (s.pollSimulation n).newest = s.newest.pollSimulation := by
  obtain ⟨st, hs⟩ := hr.store
  rw [WeakReceiver.pollSimulation, hpc]
  dsimp only
  rw [valueAt_of_store hs]
  split_ifs with hfree
  · refine Or.inl ?_
    simp only [WeakReceiver.newest, newestRing_loadAcquire, hpc]
  · obtain ⟨rfl, -⟩ := (h.passed s.currFrameIdx).loaded hr hs (if_neg hfree)
    have hpc' : s.newest.pollPc = .wait := hpc
    have huser : tpStatus s.newest.ring (rxFrame s.newest.currFrameIdx) &&& tpStatusUser ≠ 0 := by
      intro he
      rw [← he] at hfree
      exact hfree (congrArg (· &&& tpStatusUser) (h.tpStatus_eq s.currFrameIdx).symm)
    refine Or.inr ?_
    rw [MockReceiver.pollSimulation, hpc']
    dsimp only
    rw [if_neg huser]
    simp only [WeakReceiver.newest, newestRing_loadAcquire]

theorem Handover.parse_newest (h : Handover file s.newest r) (hpc : s.pollPc = .parse) :
    (s.pollSimulation n).newest = s.newest.pollSimulation := by
  obtain ⟨m, hm⟩ := h.parsing hpc
  have hpc' : s.newest.pollPc = .parse := hpc
  have hring : newestRing (s.mem.readCells .poll s.reads) = newestRing s.mem :=
    newestRing_congr rfl fun _ => Machine.readCells_cell_value
  have hroom := hm.fits
  have hslice : slice s.bytes
        (rxFrame s.currFrameIdx + (tpNet s.bytes (rxFrame s.currFrameIdx)).toNat)
        (tpSnaplen s.bytes (rxFrame s.currFrameIdx)).toNat =
      slice s.newest.ring
        (rxFrame s.currFrameIdx + (tpNet s.newest.ring (rxFrame s.currFrameIdx)).toNat)
        (tpSnaplen s.newest.ring (rxFrame s.currFrameIdx)).toNat := by
    rw [tpNet_bytes, tpSnaplen_bytes, hm.net, hm.snaplen]
    apply slice_congr
    intro i hi
    exact bytes_eq_newest s.currFrameIdx ⟨by omega, by omega⟩
  rw [WeakReceiver.pollSimulation, hpc, MockReceiver.pollSimulation, hpc']
  dsimp only
  rw [hslice]
  simp only [WeakReceiver.newest, hring]

theorem FramesPassed.poll_newest (h : FramesPassed s last) (hh : Handover file s.newest r)
    (hl : s.Legal (.poll, n)) :
    (s.pollSimulation n).newest = s.newest ∨
      (s.pollSimulation n).newest = s.newest.pollSimulation := by
  cases hpc : s.pollPc with
  | wait => exact h.waitUser_newest hpc (hl s.currFrameIdx (by rw [WeakReceiver.loads, hpc]; rfl))
  | parse => exact Or.inr (hh.parse_newest hpc)
  | release =>
    refine Or.inr ?_
    have hpc' : s.newest.pollPc = .release := hpc
    rw [WeakReceiver.pollSimulation, hpc, MockReceiver.pollSimulation, hpc']
    simp only [WeakReceiver.newest, newestRing_storeRelease]
  | advance =>
    refine Or.inr ?_
    have hpc' : s.newest.pollPc = .advance := hpc
    rw [WeakReceiver.pollSimulation, hpc, MockReceiver.pollSimulation, hpc']
    rfl

end Simulation

def WeakHandover (file : List Byte) (s : WeakReceiver) : Prop :=
  (∃ last, FramesPassed s last) ∧ ∃ schedule, s.newest = MockReceiver.run file schedule

section Runs
variable {file : List Byte} {s : WeakReceiver}

theorem WeakHandover.start (file : List Byte) : WeakHandover file .start := by
  refine ⟨⟨_, FramesPassed.start⟩, [], ?_⟩
  have hring : newestRing WeakReceiver.start.mem = fun _ => 0#8 := by
    funext a
    rw [newestRing]
    split_ifs
    · exact BitVec.extractLsb'_zero
    · rfl
  rw [WeakReceiver.newest, hring]
  rfl

theorem MockReceiver.run_concat (file : List Byte) (schedule : List ReceiverThread)
    (t : ReceiverThread) :
    MockReceiver.run file (schedule ++ [t]) = (MockReceiver.run file schedule).step file t := by
  rw [MockReceiver.run, List.foldl_append]
  rfl

/-- A step that the sequentially consistent run takes as well, or does not see. -/
theorem newest_run {schedule : List ReceiverThread} {s' : WeakReceiver} {t : ReceiverThread}
    (hs : s.newest = MockReceiver.run file schedule)
    (hstep : s'.newest = s.newest ∨ s'.newest = s.newest.step file t) :
    ∃ schedule', s'.newest = MockReceiver.run file schedule' := by
  obtain hstay | hgo := hstep
  · exact ⟨schedule, hstay.trans hs⟩
  · exact ⟨schedule ++ [t], by rw [hgo, hs, MockReceiver.run_concat]⟩

theorem WeakHandover.step (h : WeakHandover file s) (hfit : RecordsFit file)
    {a : ReceiverThread × Nat} (hl : s.Legal a) : WeakHandover file (s.step file a) := by
  obtain ⟨⟨last, hf⟩, schedule, hs⟩ := h
  obtain ⟨r, hh⟩ := run_handover file hfit schedule
  rw [← hs] at hh
  obtain ⟨t, n⟩ := a
  cases t with
  | simulate =>
    exact ⟨hf.simulatePackets (fun a ha => hh.writes_inFrame hfit ha) hl,
      newest_run (t := .simulate) hs (hf.simulate_newest hh hfit hl)⟩
  | poll =>
    exact ⟨hf.pollSimulation (fun a ha => hh.reads_inFrame ha) hl,
      newest_run (t := .poll) hs (hf.poll_newest hh hl)⟩

/-- A thread accesses only the bytes of the frame it has. -/
theorem FramesPassed.raceFree {r : FlagRing (List Byte)}
    {last : Nat → Store ReceiverThread Nat (BitVec 32)} (h : FramesPassed s last)
    (hh : Handover file s.newest r) (hfit : RecordsFit file) : s.RaceFree file := by
  refine ⟨?_, ?_⟩
  · intro a ha
    have hsim : s.simulatePc.holds = true := by
      rw [WeakReceiver.writes] at ha
      cases hpc : s.simulatePc with
      | fill messageLen => rfl
      | copy messageLen => rfl
      | publish messageLen => rfl
      | _ =>
        rw [hpc] at ha
        cases ha
    exact (h.passed _).ordered h.synced (h.simulate hsim) (hh.writes_inFrame hfit ha)
  · intro a ha
    have hpoll : s.pollPc.holds = true := by
      rw [WeakReceiver.reads] at ha
      cases hpc : s.pollPc with
      | parse => rfl
      | release => rfl
      | _ =>
        rw [hpc] at ha
        cases ha
    have hordered := (h.passed _).ordered h.synced (h.poll hpoll) (hh.reads_inFrame ha)
    exact fun u => (hordered u).1

end Runs

namespace WeakReceiver

def run (file : List Byte) (schedule : List (ReceiverThread × Nat)) : WeakReceiver :=
  schedule.foldl (step file) start

/-- Every order of the steps and every choice of the stores that the loads return: no access
races, the newest ring is one that an interleaving reaches, and the records arrive. -/
theorem run_raceFree_delivers (file : List Byte) (hfit : RecordsFit file)
    (schedule : List (ReceiverThread × Nat))
    (hl : StepRun.Along (step file) Legal start schedule) :
    (run file schedule).RaceFree file ∧
    Delivers file (run file schedule).newest ∧
    ∃ interleaving, (run file schedule).newest = MockReceiver.run file interleaving := by
  have h : WeakHandover file (run file schedule) :=
    hl.invariant (I := WeakHandover file) (WeakHandover.start file)
      fun _ _ hs hleg => hs.step hfit hleg
  obtain ⟨⟨last, hf⟩, interleaving, hs⟩ := h
  obtain ⟨r, hh⟩ := run_handover file hfit interleaving
  rw [← hs] at hh
  exact ⟨hf.raceFree hh hfit, hh.delivers hfit, interleaving, hs⟩

/-- The consumer sees the old status of the first frame once more, and waits. -/
def lateSchedule : List (ReceiverThread × Nat) :=
  (List.replicate 5 (.simulate, 0)) ++ [(.poll, 0), (.poll, 1), (.poll, 0), (.poll, 0)]

theorem lateSchedule_delivered :
    StepRun.Along (step cutOffFile) Legal start lateSchedule ∧
    (run cutOffFile lateSchedule).parsed = [[5#8, 6#8]] ∧
    Delivers cutOffFile (run cutOffFile lateSchedule).newest := by
  have hl : StepRun.Along (step cutOffFile) Legal start lateSchedule := by decide +kernel
  refine ⟨hl, by decide +kernel, ?_⟩
  refine (run_raceFree_delivers cutOffFile ?_ lateSchedule hl).2.1
  intro m hm
  rw [completeRecords_cutOffFile] at hm
  have hcases : m = [5#8, 6#8] ∨ m = [] := by simpa using hm
  obtain rfl | rfl := hcases
  · decide
  · decide

end WeakReceiver
end MarketDataBook
