import MarketDataBook.MagicBuffer
import MarketDataBook.OuchClient

/-! `network/EpollReactor.h`: the loop of `run` that drains one descriptor into its buffer.
What the peer does and what `recv` returns are events; the loop touches no other descriptor's
socket or buffer. -/
namespace MarketDataBook
open ByteMemory

inductive RecvResult where
  | received (bytes : List Byte)
  | zero
  | failed (errno : Nat)

inductive DrainPhase where
  | epollWait | draining | closed
  deriving DecidableEq

structure Connection where
  phase : DrainPhase
  buffer : MagicBuffer
  /-- Bytes at the socket that `recv` has not returned. -/
  queue : List Byte
  peerShutdown : Bool
  recvFailed : Bool
  received : List Byte
  consumed : List Byte

inductive DrainEvent where
  /-- The descriptor is given to the next connection. -/
  | accept
  | arrive (bytes : List Byte)
  | shutdown
  /-- `epoll_wait` reports the descriptor. -/
  | report
  /-- One round of the loop, with what the handler consumes if it is called. -/
  | recv (result : RecvResult) (consumes : Nat)

namespace Connection

def maxBufferSize : Nat := 4096

def opened (b : MagicBuffer) : Connection := ⟨.epollWait, b, [], false, false, [], []⟩

/-- The buffer as `on_data` finds it: `recv` has stored the bytes at the write head. -/
def onDataBuffer (s : Connection) (bytes : List Byte) : MagicBuffer :=
  s.buffer.storeBytes s.buffer.writeHead bytes

def close (s : Connection) : Connection := { s with phase := .closed, buffer := s.buffer.reset }

def drainRound (s : Connection) (consumes : Nat) : RecvResult → Connection
  | .failed errno =>
    if errno = eagain ∨ errno = ewouldblock then { s with phase := .epollWait }
    else { s.close with recvFailed := true }
  | .zero => s.close
  | .received bytes =>
    let seen := s.onDataBuffer bytes
    { s with
      buffer := (seen.advanceRead consumes).advanceWrite bytes.length
      queue := s.queue.drop bytes.length
      received := s.received ++ bytes
      consumed := s.consumed ++ seen.loadBytes seen.readHead consumes }

def step (s : Connection) : DrainEvent → Connection
  | .accept => opened s.buffer
  | .arrive bytes => { s with queue := s.queue ++ bytes }
  | .shutdown => { s with peerShutdown := true }
  | .report => { s with phase := .draining }
  | .recv result consumes => s.drainRound consumes result

/-- What `recv` may return: 0 if no byte is asked for, and else only once the peer has shut
down. Asked for no byte it fails only with nothing queued. The handler consumes at most what it
can read. -/
def Returns (s : Connection) (consumes : Nat) : RecvResult → Prop
  | .received bytes => bytes ≠ [] ∧ bytes.length ≤ s.buffer.writeSpaceLeft ∧ bytes <+: s.queue ∧
      consumes ≤ (s.onDataBuffer bytes).readSpaceLeft
  | .zero => s.buffer.writeSpaceLeft = 0 ∨ s.peerShutdown = true
  | .failed _ => 0 < s.buffer.writeSpaceLeft ∨ s.queue = []

instance (s : Connection) (consumes : Nat) :
    (result : RecvResult) → Decidable (s.Returns consumes result)
  | .received bytes => inferInstanceAs (Decidable (bytes ≠ [] ∧
      bytes.length ≤ s.buffer.writeSpaceLeft ∧ bytes <+: s.queue ∧
      consumes ≤ (s.onDataBuffer bytes).readSpaceLeft))
  | .zero => inferInstanceAs (Decidable (s.buffer.writeSpaceLeft = 0 ∨ s.peerShutdown = true))
  | .failed _ => inferInstanceAs (Decidable (0 < s.buffer.writeSpaceLeft ∨ s.queue = []))

def Legal (s : Connection) : DrainEvent → Prop
  | .accept => s.phase = .closed
  | .arrive _ => s.phase ≠ .closed ∧ s.peerShutdown = false
  | .shutdown => s.phase ≠ .closed
  | .report => s.phase = .epollWait
  | .recv result consumes => s.phase = .draining ∧ s.Returns consumes result

instance (s : Connection) : (e : DrainEvent) → Decidable (s.Legal e)
  | .accept => inferInstanceAs (Decidable (s.phase = .closed))
  | .arrive _ => inferInstanceAs (Decidable (s.phase ≠ .closed ∧ s.peerShutdown = false))
  | .shutdown => inferInstanceAs (Decidable (s.phase ≠ .closed))
  | .report => inferInstanceAs (Decidable (s.phase = .epollWait))
  | .recv result consumes =>
    inferInstanceAs (Decidable (s.phase = .draining ∧ s.Returns consumes result))

def Cause (s : Connection) : Prop := s.peerShutdown = true ∨ s.recvFailed = true

/-- Without a reason the descriptor is open and no received byte is gone unless consumed. -/
def ClosedForCause (s : Connection) : Prop :=
  ¬ s.Cause → s.phase ≠ .closed ∧ s.received = s.consumed ++ s.buffer.readable

/-- `recv` is called only with room for a byte in the buffer or after the peer has shut down, or
with nothing queued, and fails. -/
def HasRoom (capacity : Nat) (s : Connection) : DrainEvent → Prop
  | .recv result _ => s.received.length - s.consumed.length < capacity - 1 ∨
      s.peerShutdown = true ∨ s.queue = [] ∧ ∃ errno, result = .failed errno
  | _ => True

/-- While the descriptor is open its buffer holds what is received and not consumed; a closed
one leaves an empty buffer behind. -/
structure Kept (base capacity : Nat) (s : Connection) : Prop where
  buffer : ∃ lo unread, s.buffer.Holds base capacity lo unread ∧
    (s.phase = .closed → unread = []) ∧ (s.phase ≠ .closed → s.received = s.consumed ++ unread)
  failed : s.phase ≠ .closed → s.recvFailed = false

section
variable {base capacity : Nat} {s : Connection}

theorem kept_opened {b : MagicBuffer} {lo : Nat} (h : b.Holds base capacity lo []) :
    (opened b).Kept base capacity :=
  ⟨⟨lo, [], h, fun _ => rfl, fun _ => rfl⟩, fun _ => rfl⟩

theorem kept_closed {s' : Connection} (h : s.Kept base capacity) (hp : s'.phase = .closed)
    (hb : s'.buffer = s.buffer.reset) : s'.Kept base capacity := by
  obtain ⟨lo, unread, hold, -⟩ := h.buffer
  refine ⟨⟨0, [], ?_, fun _ => rfl, fun hn => absurd hp hn⟩, fun hn => absurd hp hn⟩
  rw [hb]
  exact hold.reset

/-- An open connection with the bytes its buffer holds. -/
theorem Kept.unread (h : s.Kept base capacity) (hp : s.phase ≠ .closed) :
    ∃ lo unread, s.buffer.Holds base capacity lo unread ∧ s.received = s.consumed ++ unread := by
  obtain ⟨lo, unread, hold, -, hr⟩ := h.buffer
  exact ⟨lo, unread, hold, hr hp⟩

theorem Kept.setPhase (h : s.Kept base capacity) (hs : s.phase ≠ .closed) {p : DrainPhase}
    (hp : p ≠ .closed) : { s with phase := p }.Kept base capacity := by
  obtain ⟨lo, unread, hold, heq⟩ := h.unread hs
  exact ⟨⟨lo, unread, hold, fun hn => absurd hn hp, fun _ => heq⟩, fun _ => h.failed hs⟩

theorem Kept.drainRound (h : s.Kept base capacity) (hp : s.phase = .draining) {consumes : Nat}
    {result : RecvResult} (hr : s.Returns consumes result) :
    (s.drainRound consumes result).Kept base capacity := by
  have hopen : s.phase ≠ .closed := by rw [hp]; decide
  obtain ⟨lo, unread, hold, heq⟩ := h.unread hopen
  cases result with
  | received bytes =>
    obtain ⟨-, hlen, -, hc⟩ := hr
    have hcount : consumes ≤ unread.length := by
      rw [← (hold.storeBytes hlen).readSpaceLeft_eq]
      exact hc
    have hle : consumes ≤ (unread ++ bytes).length := by rw [List.length_append]; omega
    -- the handler moves the read head only, so it may as well be called after the advance
    have hadvanced := (hold.write_bytes hlen).advanceRead hle
    refine ⟨⟨_, _, hadvanced, fun hn => absurd hn hopen, fun _ => ?_⟩, fun _ => h.failed hopen⟩
    dsimp only [Connection.drainRound, onDataBuffer]
    rw [(hold.storeBytes hlen).loadBytes_eq hcount, heq, List.append_assoc, List.append_assoc,
      List.drop_append_of_le_length hcount, ← List.append_assoc (unread.take consumes),
      List.take_append_drop]
  | zero => exact kept_closed h rfl rfl
  | failed errno =>
    rw [Connection.drainRound]
    split_ifs
    · exact h.setPhase hopen (by decide)
    · exact kept_closed h rfl rfl

theorem Kept.step (h : s.Kept base capacity) {e : DrainEvent} (he : s.Legal e) :
    (s.step e).Kept base capacity := by
  cases e with
  | accept =>
    obtain ⟨lo, unread, hold, hnil, -⟩ := h.buffer
    rw [hnil he] at hold
    exact kept_opened hold
  | arrive bytes => exact ⟨h.buffer, h.failed⟩
  | shutdown => exact ⟨h.buffer, h.failed⟩
  | report =>
    have hp : s.phase = .epollWait := he
    exact h.setPhase (by rw [hp]; decide) (by decide)
  | recv result consumes => exact h.drainRound he.1 he.2

theorem Kept.space (h : s.Kept base capacity) (hp : s.phase ≠ .closed) :
    s.buffer.writeSpaceLeft = capacity - 1 - (s.received.length - s.consumed.length) := by
  obtain ⟨lo, unread, hold, heq⟩ := h.unread hp
  rw [hold.writeSpaceLeft_eq, heq, List.length_append, Nat.add_sub_cancel_left]

theorem Kept.closedForCause (h : s.Kept base capacity) (hc : s.phase = .closed → s.Cause) :
    s.ClosedForCause := by
  intro hn
  have hopen : s.phase ≠ .closed := fun hp => hn (hc hp)
  obtain ⟨lo, unread, hold, heq⟩ := h.unread hopen
  exact ⟨hopen, by rw [hold.readable_eq, heq]⟩

/-- A round that has room, or fails, closes the descriptor only for cause. -/
theorem cause_of_closed_round {consumes : Nat} {result : RecvResult} (hp : s.phase ≠ .closed)
    (hr : s.Returns consumes result)
    (hroom : 0 < s.buffer.writeSpaceLeft ∨ s.peerShutdown = true ∨
      ∃ errno, result = .failed errno)
    (hc : (s.drainRound consumes result).phase = .closed) :
    (s.drainRound consumes result).Cause := by
  cases result with
  | received bytes => exact absurd hc hp
  | zero =>
    obtain hz | hd := hr
    · obtain hpos | hd | ⟨errno, herr⟩ := hroom
      · omega
      · exact Or.inl hd
      · cases herr
    · exact Or.inl hd
  | failed errno =>
    rw [drainRound] at hc ⊢
    by_cases he : errno = eagain ∨ errno = ewouldblock
    · rw [if_pos he] at hc
      cases hc
    · rw [if_neg he]
      exact Or.inr rfl

/-- With a full buffer `recv` returns 0, which the loop takes for the end of the stream, unless
nothing is queued and it fails. -/
theorem closed_of_full_round {consumes : Nat} {result : RecvResult}
    (hr : s.Returns consumes result) (hfull : s.buffer.writeSpaceLeft = 0)
    (hmore : ¬ (s.queue = [] ∧ ∃ errno, result = .failed errno)) :
    s.drainRound consumes result = s.close := by
  cases result with
  | received bytes =>
    obtain ⟨hne, hlen, -, -⟩ := hr
    have hpos := List.length_pos_of_ne_nil hne
    omega
  | zero => rfl
  | failed errno =>
    obtain hpos | hnone := hr
    · omega
    · exact absurd ⟨hnone, errno, rfl⟩ hmore

/-- With room for a byte at every `recv` the descriptor stays open for want of a cause. -/
theorem Kept.cause_step (h : s.Kept base capacity) (hc : s.phase = .closed → s.Cause)
    {e : DrainEvent} (he : s.Legal e) (hroom : s.HasRoom capacity e)
    (hp : (s.step e).phase = .closed) : (s.step e).Cause := by
  cases e with
  | accept => cases hp
  | arrive bytes => exact hc hp
  | shutdown => exact Or.inl rfl
  | report => cases hp
  | recv result consumes =>
    have hopen : s.phase ≠ .closed := by rw [he.1]; decide
    refine cause_of_closed_round hopen he.2 ?_ hp
    rw [h.space hopen]
    exact hroom.imp (fun hlt => by omega) (Or.imp_right And.right)

theorem Kept.closed_without_room (h : s.Kept base capacity) {e : DrainEvent} (he : s.Legal e)
    (hfull : ¬ s.HasRoom capacity e) : ¬ (s.step e).ClosedForCause := by
  cases e with
  | recv result consumes =>
    have hopen : s.phase ≠ .closed := by rw [he.1]; decide
    simp only [HasRoom, not_or] at hfull
    have hspace : s.buffer.writeSpaceLeft = 0 := by
      rw [h.space hopen]
      omega
    rw [Connection.step, closed_of_full_round he.2 hspace hfull.2.2]
    intro hq
    have hcause : ¬ s.close.Cause := by
      rintro (hd | hf)
      · exact hfull.2.1 hd
      · have hf' : s.recvFailed = true := hf
        rw [h.failed hopen] at hf'
        cases hf'
    exact (hq hcause).1 rfl
  | accept => exact absurd trivial hfull
  | arrive bytes => exact absurd trivial hfull
  | shutdown => exact absurd trivial hfull
  | report => exact absurd trivial hfull

end

/-- Over every run of a descriptor: no state is closed or has lost bytes without a cause exactly
when no `recv` is called with a full buffer, bytes queued and a peer that has not shut down. -/
theorem closedForCause_iff_hasRoom {base capacity : Nat} (file : Memory) (hcap : 1 ≤ capacity)
    {events : List DrainEvent}
    (hlegal : StepRun.Along step Legal (opened (.fresh base capacity file)) events) :
    (∀ k, ((events.take k).foldl step (opened (.fresh base capacity file))).ClosedForCause) ↔
      StepRun.Along step (HasRoom capacity) (opened (.fresh base capacity file)) events := by
  apply StepRun.visited_iff_along_of_legal
    (I := fun s => s.Kept base capacity ∧ (s.phase = .closed → s.Cause)) hlegal
  · exact ⟨kept_opened (MagicBuffer.holds_fresh file hcap), by intro hp; cases hp⟩
  · intro s h
    exact h.1.closedForCause h.2
  · intro s e h he hroom
    exact ⟨h.1.step he, h.1.cause_step h.2 he hroom⟩
  · intro s e h he hfull
    exact h.1.closed_without_room he hfull

/-- Two bytes, one more with which the first two are consumed, two that fill the buffer, a `recv`
of no byte that finds nothing, and the end of the stream. -/
def smallMessages : List DrainEvent :=
  [.arrive [1, 2], .report, .recv (.received [1, 2]) 0, .recv (.failed eagain) 0,
    .arrive [3], .report, .recv (.received [3]) 2, .arrive [4, 5], .recv (.received [4, 5]) 0,
    .recv (.failed eagain) 0, .shutdown, .report, .recv .zero 0]

theorem smallMessages_closed_for_cause :
    (smallMessages.foldl step (opened (.fresh 4096 4 fun _ => 0#8))).phase = .closed ∧
      ((∀ k, ((smallMessages.take k).foldl step
          (opened (.fresh 4096 4 fun _ => 0#8))).ClosedForCause) ↔
        StepRun.Along step (HasRoom 4) (opened (.fresh 4096 4 fun _ => 0#8)) smallMessages) :=
  ⟨by decide, closedForCause_iff_hasRoom _ (by decide) (by decide)⟩

def overfill (capacity : Nat) (burst : List Byte) : List DrainEvent :=
  [.arrive burst, .report, .recv (.received (burst.take (capacity - 1))) 0]

/-- A burst longer than the buffer closes its connection: the first `recv` fills the buffer, the
handler can consume nothing before the next one, and that is asked for no byte while some are
queued, so that it can only return 0. -/
theorem full_burst_closes (base : Nat) (file : Memory) {capacity : Nat} {burst : List Byte}
    (hcap : 2 ≤ capacity) (hlen : capacity ≤ burst.length) :
    let s := (overfill capacity burst).foldl step (opened (.fresh base capacity file))
    StepRun.Along step Legal (opened (.fresh base capacity file)) (overfill capacity burst) ∧
      s.Legal (.recv .zero 0) ∧
      ∀ result consumes, s.Legal (.recv result consumes) →
        ¬ (s.step (.recv result consumes)).ClosedForCause := by
  have hkept : (opened (.fresh base capacity file)).Kept base capacity :=
    kept_opened (MagicBuffer.holds_fresh file (by omega))
  have hchunk : (burst.take (capacity - 1)).length = capacity - 1 := by
    rw [List.length_take]
    omega
  have hroom : (burst.take (capacity - 1)).length ≤
      (MagicBuffer.fresh base capacity file).writeSpaceLeft := by
    refine Nat.le_trans ?_ (Nat.le_of_eq (hkept.space (by intro hp; cases hp)).symm)
    simp only [opened, List.length_nil]
    omega
  have hne : burst.take (capacity - 1) ≠ [] := by
    rw [← List.length_pos_iff]
    omega
  have hfirst : StepRun.Along step Legal (opened (.fresh base capacity file))
      (overfill capacity burst) :=
    ⟨⟨(by intro hp; cases hp), rfl⟩, rfl,
      ⟨rfl, hne, hroom, List.take_prefix _ _, Nat.zero_le _⟩, trivial⟩
  have hfilled := hfirst.invariant hkept fun s e h he => h.step he
  intro s
  have hreceived : s.received.length = capacity - 1 := hchunk
  have hconsumed : s.consumed = [] := rfl
  have hfull : s.buffer.writeSpaceLeft = 0 := by
    have hspace := hfilled.space (by intro hp; cases hp)
    rw [hreceived, hconsumed, List.length_nil, Nat.sub_zero, Nat.sub_self] at hspace
    exact hspace
  have hqueue : s.queue ≠ [] := by
    have hdrop : s.queue = burst.drop (burst.take (capacity - 1)).length := rfl
    rw [hdrop, hchunk, ← List.length_pos_iff, List.length_drop]
    omega
  refine ⟨hfirst, ⟨rfl, Or.inl hfull⟩, ?_⟩
  intro result consumes he
  apply hfilled.closed_without_room he
  rintro (hlt | hdown | ⟨hnone, -⟩)
  · rw [hreceived, hconsumed, List.length_nil] at hlt
    omega
  · cases hdown
  · exact hqueue hnone

/-- 4095 bytes are received and one is queued. -/
theorem burst_of_4096_bytes_closes :
    let events := overfill maxBufferSize (List.replicate 4096 1) ++ [.recv .zero 0]
    StepRun.Along step Legal (opened (.fresh 0 maxBufferSize fun _ => 0#8)) events ∧
      ¬ (events.foldl step (opened (.fresh 0 maxBufferSize fun _ => 0#8))).ClosedForCause := by
  have hlen : maxBufferSize ≤ (List.replicate 4096 (1 : Byte)).length := by
    rw [List.length_replicate]
    exact Nat.le_refl 4096
  obtain ⟨hfilling, hzero, hcloses⟩ := full_burst_closes 0 (fun _ => 0#8) (by decide) hlen
  have hlast : StepRun.Along step Legal _ [.recv .zero 0] := ⟨hzero, trivial⟩
  refine ⟨hfilling.append hlast, ?_⟩
  rw [List.foldl_append]
  exact hcloses .zero 0 hzero

def SeesEverything (s : Connection) (chunk : List Byte) : Prop :=
  (s.onDataBuffer chunk).readable = (s.received ++ chunk).drop s.consumed.length

/-- `on_data` is called before the write head is advanced: the handler reads what was there
before the chunk. -/
theorem Kept.onData_readable {base capacity : Nat} {s : Connection} (h : s.Kept base capacity)
    (hp : s.phase ≠ .closed) {chunk : List Byte} (hc : chunk.length ≤ s.buffer.writeSpaceLeft) :
    (s.onDataBuffer chunk).readable = s.received.drop s.consumed.length := by
  obtain ⟨lo, unread, hold, heq⟩ := h.unread hp
  rw [heq, List.drop_left]
  exact (hold.storeBytes hc).readable_eq

/-- At no `on_data` call of any run does the handler see everything: it lacks the chunk just
received, and that chunk alone. -/
theorem onData_lacks_chunk {base capacity : Nat} (file : Memory) (hcap : 1 ≤ capacity)
    {events : List DrainEvent}
    (hlegal : StepRun.Along step Legal (opened (.fresh base capacity file)) events) :
    StepRun.Along step (fun s e => ∀ chunk consumes, e = .recv (.received chunk) consumes →
      ¬ s.SeesEverything chunk ∧
        (s.onDataBuffer chunk).readable ++ chunk = (s.received ++ chunk).drop s.consumed.length)
      (opened (.fresh base capacity file)) events := by
  apply hlegal.of_invariant (kept_opened (MagicBuffer.holds_fresh file hcap))
    fun s e h he => h.step he
  rintro s e h he chunk consumes rfl
  obtain ⟨hp, hne, hlen, -, -⟩ := he
  have hopen : s.phase ≠ .closed := by rw [hp]; decide
  obtain ⟨lo, unread, hold, heq⟩ := h.unread hopen
  have hread := h.onData_readable hopen hlen
  have hall : (s.onDataBuffer chunk).readable ++ chunk =
      (s.received ++ chunk).drop s.consumed.length := by
    rw [hread, heq, List.drop_left, List.append_assoc, List.drop_left]
  refine ⟨?_, hall⟩
  intro hsees
  exact hne (List.self_eq_append_right.mp (hsees.trans hall.symm))

theorem onData_lacks_chunk_smallMessages :
    StepRun.Along step (fun s e => ∀ chunk consumes, e = .recv (.received chunk) consumes →
      ¬ s.SeesEverything chunk ∧
        (s.onDataBuffer chunk).readable ++ chunk = (s.received ++ chunk).drop s.consumed.length)
      (opened (.fresh 4096 4 fun _ => 0#8)) smallMessages :=
  onData_lacks_chunk _ (by decide) (by decide)

/-- The handler of the first byte of a connection is called with nothing to read. -/
theorem first_byte_unseen :
    ∃ s, s = [.arrive [7], .report].foldl step (opened (.fresh 0 maxBufferSize fun _ => 0#8)) ∧
      s.Legal (.recv (.received [7]) 0) ∧ (s.onDataBuffer [7]).readSpaceLeft = 0 ∧
      ¬ s.SeesEverything [7] := by
  refine ⟨_, rfl, by decide, by decide, ?_⟩
  intro h
  cases h

end Connection
end MarketDataBook
