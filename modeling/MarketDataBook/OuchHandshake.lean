import MarketDataBook.OuchClient

/-! `network/OuchClient.h`: whether a connection is established before orders go out. Calls come
in any order and with any answers of the socket, and a client is used on after a call that
raised. -/
namespace MarketDataBook
open ByteMemory

inductive HandshakeCall where
  | connectToServer
  | sendOrder (order : Nat) (send : SendResult)
  | handleWrite (sockopt : SockoptResult) (send : SendResult)
  /-- Other code leaves memory as given. -/
  | modify (mem : Memory)

structure OuchHandshake where
  mem : Memory
  client : OuchClient
  /-- `handle_write` has read `SO_ERROR` as 0 in `Connecting` since the last
  `connect_to_server`. -/
  handshake : Bool
  /-- Order bytes given to `send` while that had not happened. -/
  early : Nat

namespace OuchClient

def Established (c : OuchClient) : Prop := c.state = .connected ∨ c.state = .pendingWrite

def offered (c : OuchClient) (mem : Memory) : HandshakeCall → Nat
  | .sendOrder order _ => if c.state = .pendingWrite then 0 else packetLen mem order
  | .handleWrite _ _ => if c.state = .pendingWrite then c.pendingBytes else 0
  | _ => 0

def completes (c : OuchClient) : HandshakeCall → Bool
  | .handleWrite sockopt _ => decide (c.state = .connecting ∧ sockopt = .retrieved 0)
  | _ => false

section
variable {c : OuchClient} {strerror : Nat → String} {mem : Memory}

theorem sendOrder_established {order : Nat} {send : SendResult} (h : c.Established) :
    (c.sendOrder strerror mem order send).client.Established := by
  rw [sendOrder]
  split_ifs
  · exact h
  · cases send.bytesWritten with
    | error errno => exact h
    | ok n =>
      dsimp only
      split_ifs
      · exact Or.inr rfl
      · exact h

/-- An empty packet changes nothing. -/
theorem sendOrder_empty {order : Nat} {send : SendResult} (h : packetLen mem order = 0) :
    (c.sendOrder strerror mem order send).client = c := by
  rw [sendOrder, h]
  split_ifs
  · rfl
  · cases send.bytesWritten with
    | error errno => rfl
    | ok n => rfl

theorem handleWrite_established {sockopt : SockoptResult} {send : SendResult} :
    (c.handleWrite strerror mem sockopt send).client.Established ↔
      c.Established ∨ c.completes (.handleWrite sockopt send) = true := by
  rw [handleWrite]
  cases hs : c.state with
  | disconnected => simp [Established, completes, hs]
  | connected => simp [Established, hs]
  | connecting =>
    cases sockopt with
    | failed errno => simp [finishConnecting, Established, completes, hs]
    | retrieved error =>
      by_cases he : error = 0
      · simp [finishConnecting, Established, completes, hs, he]
      · simp [finishConnecting, Established, completes, hs, he]
  | pendingWrite =>
    refine iff_of_true ?_ (Or.inl (Or.inr hs))
    dsimp only [finishWrite]
    cases send.bytesWritten with
    | error errno => exact Or.inr hs
    | ok n =>
      dsimp only
      split_ifs
      · exact Or.inr hs
      · exact Or.inl rfl

end
end OuchClient

namespace OuchHandshake

def start (mem : Memory) : OuchHandshake := ⟨mem, .new, false, 0⟩

def call (strerror : Nat → String) (s : OuchHandshake) : HandshakeCall → OuchClient
  | .connectToServer => s.client.connectToServer
  | .sendOrder order send => (s.client.sendOrder strerror s.mem order send).client
  | .handleWrite sockopt send => (s.client.handleWrite strerror s.mem sockopt send).client
  | .modify _ => s.client

def step (strerror : Nat → String) (s : OuchHandshake) (a : HandshakeCall) : OuchHandshake where
  mem := match a with
    | .modify mem => mem
    | _ => s.mem
  client := s.call strerror a
  handshake := match a with
    | .connectToServer => false
    | _ => s.handshake || s.client.completes a
  early := s.early + if s.handshake then 0 else s.client.offered s.mem a

/-- An established connection has had its handshake, and no order byte was offered before. -/
def HandshakeKept (s : OuchHandshake) : Prop :=
  (s.client.Established → s.handshake = true) ∧ s.early = 0

def SendsEstablished (s : OuchHandshake) : HandshakeCall → Prop
  | .sendOrder order _ => s.client.Established ∨ packetLen s.mem order = 0
  | _ => True

structure Tracked (s : OuchHandshake) : Prop where
  handshake : s.handshake = true ↔ s.client.Established
  early : s.early = 0

section
variable {strerror : Nat → String} {s : OuchHandshake}

theorem tracked_start (mem : Memory) : (start mem).Tracked := by
  refine ⟨?_, rfl⟩
  simp [start, OuchClient.new, OuchClient.Established]

theorem Tracked.kept (h : s.Tracked) : s.HandshakeKept := ⟨h.handshake.mpr, h.early⟩

theorem Tracked.offered (h : s.Tracked) (hs : ¬ s.handshake = true) {a : HandshakeCall}
    (ha : s.SendsEstablished a) : s.client.offered s.mem a = 0 := by
  have hne : ¬ s.client.Established := fun he => hs (h.handshake.mpr he)
  have hp : s.client.state ≠ .pendingWrite := fun hp => hne (Or.inr hp)
  cases a with
  | connectToServer => rfl
  | modify mem => rfl
  | handleWrite sockopt send => exact if_neg hp
  | sendOrder order send => exact (if_neg hp).trans (ha.resolve_left hne)

theorem Tracked.step (h : s.Tracked) {a : HandshakeCall} (ha : s.SendsEstablished a) :
    (s.step strerror a).Tracked := by
  refine ⟨?_, ?_⟩
  · cases a with
    | connectToServer => simp [OuchHandshake.step, call, OuchClient.connectToServer,
        OuchClient.Established]
    | modify mem =>
      simp only [OuchHandshake.step, OuchClient.completes, Bool.or_false]
      exact h.handshake
    | handleWrite sockopt send =>
      simp only [OuchHandshake.step, call, OuchClient.handleWrite_established, Bool.or_eq_true,
        h.handshake]
    | sendOrder order send =>
      simp only [OuchHandshake.step, OuchClient.completes, Bool.or_false]
      obtain he | hz := ha
      · exact iff_of_true (h.handshake.mpr he) (OuchClient.sendOrder_established he)
      · rw [call, OuchClient.sendOrder_empty hz]
        exact h.handshake
  · simp only [OuchHandshake.step, h.early]
    split_ifs with hs
    · rfl
    · rw [h.offered hs ha]

/-- An order sent too early is offered to the socket at once. -/
theorem Tracked.early_order (h : s.Tracked) {a : HandshakeCall} (ha : ¬ s.SendsEstablished a) :
    ¬ (s.step strerror a).HandshakeKept := by
  rintro ⟨-, hearly⟩
  cases a with
  | sendOrder order send =>
    obtain ⟨hne, hpos⟩ := not_or.mp ha
    have hs : ¬ s.handshake = true := fun hs => hne (h.handshake.mp hs)
    have hp : s.client.state ≠ .pendingWrite := fun hp => hne (Or.inr hp)
    simp only [OuchHandshake.step, OuchClient.offered, if_neg hs, if_neg hp] at hearly
    omega
  | connectToServer => exact ha trivial
  | handleWrite sockopt send => exact ha trivial
  | modify mem => exact ha trivial

end

/-- In every state of a run an established connection has had its handshake and no order byte
was offered before it, exactly when orders are sent on established connections only. -/
theorem handshakeKept_iff (strerror : Nat → String) (mem : Memory) (calls : List HandshakeCall) :
    (∀ k, ((calls.take k).foldl (step strerror) (start mem)).HandshakeKept) ↔
      StepRun.Along (step strerror) SendsEstablished (start mem) calls :=
  StepRun.visited_iff_along (tracked_start mem) (fun _ h => h.kept) (fun _ _ h ha => h.step ha)
    fun _ _ h ha => h.early_order ha

/-- The order is sent while the connect is in flight; its bytes wait for the socket to become
writable, and when they are gone the client is connected although `SO_ERROR` would have said
that the connection was refused. -/
theorem handshake_bypassed :
    let s := [.connectToServer, .sendOrder 0 (.failed eagain),
      .handleWrite (.retrieved 111) (.accepted 3)].foldl (step toString)
        (start OuchSession.threeBytePacket)
    s.client.state = .connected ∧ ¬ s.HandshakeKept := by
  intro s
  have hs : s.client.state = .connected ∧ s.handshake = false := by decide +kernel
  refine ⟨hs.1, ?_⟩
  intro h
  have hshake := h.1 (Or.inl hs.1)
  rw [hs.2] at hshake
  cases hshake

end OuchHandshake
end MarketDataBook
