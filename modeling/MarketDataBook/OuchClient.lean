import MarketDataBook.ItchOrderTypes
import MarketDataBook.Library.ByteMemory
import MarketDataBook.Library.StepRun
import Mathlib.Tactic.SplitIfs

/-! `network/OuchClient.h`: the outbound byte stream. Packets lie in memory, a client keeps the
address of what it still has to send, and what the socket answers to each system call is an
argument of the call that makes it. -/
namespace MarketDataBook
open ByteMemory

inductive OuchState where
  | disconnected | connecting | connected | pendingWrite
  deriving DecidableEq

structure OuchClient where
  state : OuchState
  pendingBuffer : Nat
  pendingBytes : Nat
  deriving DecidableEq

inductive SendResult where
  | accepted (bytesWritten : Nat)
  | failed (errno : Nat)
  deriving DecidableEq

inductive SockoptResult where
  | retrieved (error : Nat)
  | failed (errno : Nat)
  deriving DecidableEq

def eagain : Nat := 11
def ewouldblock : Nat := 11

/-- The bytes written once `EAGAIN` and `EWOULDBLOCK` count as none; any other error is thrown. -/
def SendResult.bytesWritten : SendResult → Except Nat Nat
  | .accepted n => .ok n
  | .failed errno => if errno = eagain ∨ errno = ewouldblock then .ok 0 else .error errno

structure OuchReturn where
  client : OuchClient
  sent : List Byte
  result : Except String Bool

/-- The members of the `OuchPacket` at an address; the payload comes behind a `size_t`. -/
def packetLen (mem : Memory) (order : Nat) : Nat := (load mem order 8).toNat

def payloadAddr (order : Nat) : Nat := order + 8

def packetBytes (mem : Memory) (order : Nat) : List Byte :=
  slice mem (payloadAddr order) (packetLen mem order)

namespace OuchClient

def new : OuchClient := ⟨.disconnected, 0, 0⟩

/-- The state is set before the socket connects, whatever comes of that. -/
def connectToServer (c : OuchClient) : OuchClient := { c with state := .connecting }

def sendOrder (strerror : Nat → String) (mem : Memory) (c : OuchClient) (order : Nat)
    (send : SendResult) : OuchReturn :=
  if c.state = .pendingWrite then ⟨c, [], .ok false⟩
  else
    match send.bytesWritten with
    | .error errno => ⟨c, [], .error
        ("OuchClient::send_order(): Unable to send order to server. Error: " ++ strerror errno)⟩
    | .ok bytesWritten =>
      let sent := slice mem (payloadAddr order) bytesWritten
      if bytesWritten < packetLen mem order then
        ⟨{ c with state := .pendingWrite
                  pendingBuffer := payloadAddr order + bytesWritten
                  pendingBytes := packetLen mem order - bytesWritten }, sent, .ok false⟩
      else ⟨c, sent, .ok true⟩

def finishConnecting (strerror : Nat → String) (c : OuchClient) (sockopt : SockoptResult) :
    OuchReturn :=
  match sockopt with
  | .failed errno => ⟨c, [], .error
      ("OuchClient::handle_write(): Unable to retrieve socket options. Error: " ++ strerror errno)⟩
  | .retrieved error =>
    if error ≠ 0 then ⟨c, [], .error
      ("OuchClient::handle_write(): Error occured during connection establishment. Error: " ++
        strerror error)⟩
    else ⟨{ c with state := .connected }, [], .ok true⟩

def finishWrite (strerror : Nat → String) (mem : Memory) (c : OuchClient) (send : SendResult) :
    OuchReturn :=
  match send.bytesWritten with
  | .error errno => ⟨c, [], .error
      ("OuchClient::handle_write(): Unable to send order to server. Error: " ++ strerror errno)⟩
  | .ok bytesWritten =>
    let sent := slice mem c.pendingBuffer bytesWritten
    if bytesWritten < c.pendingBytes then
      ⟨{ c with pendingBuffer := c.pendingBuffer + bytesWritten
                pendingBytes := c.pendingBytes - bytesWritten }, sent, .ok false⟩
    else ⟨{ c with state := .connected }, sent, .ok true⟩

def handleWrite (strerror : Nat → String) (mem : Memory) (c : OuchClient)
    (sockopt : SockoptResult) (send : SendResult) : OuchReturn :=
  match c.state with
  | .connecting => c.finishConnecting strerror sockopt
  | .pendingWrite => c.finishWrite strerror mem send
  | _ => ⟨c, [], .ok true⟩

end OuchClient

structure OuchSession where
  mem : Memory
  client : OuchClient
  /-- The bytes the socket has accepted. -/
  stream : List Byte
  /-- The packets of the `send_order` calls made outside `PendingWrite`, as they stood then. -/
  orders : List (List Byte)
  raised : Option String

/-- A call with the answers of the socket, or a store of other code that leaves memory as
given. -/
inductive OuchAction where
  | sendOrder (order : Nat) (send : SendResult)
  | handleWrite (sockopt : SockoptResult) (send : SendResult)
  | modify (mem : Memory)

namespace OuchSession

def start (mem : Memory) (client : OuchClient) : OuchSession := ⟨mem, client, [], [], none⟩

def returned (s : OuchSession) (r : OuchReturn) (orders : List (List Byte)) : OuchSession :=
  match r.result with
  | .ok _ => { s with client := r.client, stream := s.stream ++ r.sent, orders := orders }
  | .error what => { s with client := r.client, stream := s.stream ++ r.sent, raised := some what }

def step (strerror : Nat → String) (s : OuchSession) (a : OuchAction) : OuchSession :=
  match s.raised with
  | some _ => s
  | none =>
    match a with
    | .sendOrder order send =>
      s.returned (s.client.sendOrder strerror s.mem order send)
        (if s.client.state = .pendingWrite then s.orders
          else s.orders ++ [packetBytes s.mem order])
    | .handleWrite sockopt send =>
      s.returned (s.client.handleWrite strerror s.mem sockopt send) s.orders
    | .modify mem => { s with mem := mem }

/-- The socket takes at most what it is offered, and nothing stores into the pending part of a
packet. -/
def Legal (s : OuchSession) : OuchAction → Prop
  | .sendOrder order (.accepted n) => s.client.state ≠ .pendingWrite → n ≤ packetLen s.mem order
  | .handleWrite _ (.accepted n) => s.client.state = .pendingWrite → n ≤ s.client.pendingBytes
  | .modify mem => s.client.state = .pendingWrite → ∀ i < s.client.pendingBytes,
      mem (s.client.pendingBuffer + i) = s.mem (s.client.pendingBuffer + i)
  | _ => True

instance decidableLegal (s : OuchSession) : (a : OuchAction) → Decidable (s.Legal a)
  | .sendOrder _ (.accepted _) => inferInstanceAs (Decidable (_ → _ ≤ _))
  | .handleWrite _ (.accepted _) => inferInstanceAs (Decidable (_ → _ ≤ _))
  | .modify _ => inferInstanceAs (Decidable (_ → ∀ i < s.client.pendingBytes, _ = _))
  | .sendOrder _ (.failed _) => isTrue trivial
  | .handleWrite _ (.failed _) => isTrue trivial

/-- The socket has accepted the orders one after the other, short of the pending bytes of the
last one while a write is pending. -/
def Intact (s : OuchSession) : Prop :=
  if s.client.state = .pendingWrite then
    ∃ earlier last, s.orders = earlier ++ [last] ∧
      0 < s.client.pendingBytes ∧ s.client.pendingBytes ≤ last.length ∧
      s.stream = earlier.flatten ++ last.take (last.length - s.client.pendingBytes)
  else s.stream = s.orders.flatten

def pending (s : OuchSession) : List Byte := slice s.mem s.client.pendingBuffer s.client.pendingBytes

structure Consistent (s : OuchSession) : Prop where
  waiting : s.client.state = .pendingWrite → ∃ earlier done,
    s.orders = earlier ++ [done ++ s.pending] ∧ 0 < s.client.pendingBytes ∧
      s.stream = earlier.flatten ++ done
  settled : s.client.state ≠ .pendingWrite → s.stream = s.orders.flatten

theorem Consistent.intact {s : OuchSession} (h : s.Consistent) : s.Intact := by
  rw [Intact]
  split_ifs with hp
  · obtain ⟨earlier, done, ho, hpos, hs⟩ := h.waiting hp
    have hlen : (done ++ s.pending).length = done.length + s.client.pendingBytes := by
      rw [List.length_append, pending, length_slice]
    refine ⟨earlier, done ++ s.pending, ho, hpos, by omega, ?_⟩
    rw [hs, hlen, Nat.add_sub_cancel, List.take_left]
  · exact h.settled hp

theorem bytesWritten_le {send : SendResult} {n bound : Nat} (h : send.bytesWritten = .ok n)
    (hb : ∀ k, send = .accepted k → k ≤ bound) : n ≤ bound := by
  cases send with
  | accepted k =>
    cases h
    exact hb _ rfl
  | failed errno =>
    rw [SendResult.bytesWritten] at h
    split_ifs at h
    cases h
    exact Nat.zero_le bound

section Steps
variable {strerror : Nat → String} {s : OuchSession}

/-- An order sent outside `PendingWrite`. -/
theorem Consistent.sendOrder (h : s.Consistent) (hp : s.client.state ≠ .pendingWrite)
    {order : Nat} {send : SendResult} (hl : s.Legal (.sendOrder order send)) :
    (s.returned (s.client.sendOrder strerror s.mem order send)
      (s.orders ++ [packetBytes s.mem order])).Consistent := by
  rw [OuchClient.sendOrder, if_neg hp]
  cases hw : send.bytesWritten with
  | error errno => exact ⟨fun hq => absurd hq hp, fun _ => by simpa [returned] using h.settled hp⟩
  | ok n =>
    have hn : n ≤ packetLen s.mem order := by
      apply bytesWritten_le hw
      rintro k rfl
      exact hl hp
    dsimp only
    split_ifs with hlt
    · refine ⟨fun _ => ⟨s.orders, slice s.mem (payloadAddr order) n, ?_, ?_, ?_⟩,
        fun hq => absurd rfl hq⟩
      · simp only [returned, pending, packetBytes]
        rw [slice_split s.mem (payloadAddr order) hn]
      · exact Nat.sub_pos_of_lt hlt
      · simp only [returned, h.settled hp]
    · have heq : n = packetLen s.mem order := by omega
      refine ⟨fun hq => absurd hq hp, fun _ => ?_⟩
      simp [returned, h.settled hp, packetBytes, heq]

/-- The rest of a half-written packet. -/
theorem Consistent.finishWrite (h : s.Consistent) (hp : s.client.state = .pendingWrite)
    {sockopt : SockoptResult} {send : SendResult} (hl : s.Legal (.handleWrite sockopt send)) :
    (s.returned (s.client.finishWrite strerror s.mem send) s.orders).Consistent := by
  obtain ⟨earlier, done, ho, hpos, hs⟩ := h.waiting hp
  rw [OuchClient.finishWrite]
  cases hw : send.bytesWritten with
  | error errno =>
    refine ⟨fun _ => ⟨earlier, done, ho, hpos, ?_⟩, fun hq => absurd hp hq⟩
    simp [returned, hs]
  | ok n =>
    have hn : n ≤ s.client.pendingBytes := by
      apply bytesWritten_le hw
      rintro k rfl
      exact hl hp
    have hsplit := slice_split s.mem s.client.pendingBuffer hn
    dsimp only
    split_ifs with hlt
    · refine ⟨fun _ => ⟨earlier, done ++ slice s.mem s.client.pendingBuffer n, ?_, ?_, ?_⟩,
        fun hq => absurd hp hq⟩
      · simp only [returned, ho, pending, hsplit, List.append_assoc]
      · exact Nat.sub_pos_of_lt hlt
      · simp only [returned, hs, List.append_assoc]
    · have heq : n = s.client.pendingBytes := by omega
      refine ⟨fun hq => by simp [returned] at hq, fun _ => ?_⟩
      simp [returned, ho, hs, pending, heq]

theorem Consistent.handleWrite (h : s.Consistent) {sockopt : SockoptResult} {send : SendResult}
    (hl : s.Legal (.handleWrite sockopt send)) :
    (s.returned (s.client.handleWrite strerror s.mem sockopt send) s.orders).Consistent := by
  have hidle : s.client.state ≠ .pendingWrite → ∀ r : OuchReturn, r.sent = [] →
      r.client.state ≠ .pendingWrite → (s.returned r s.orders).Consistent := by
    intro hp r hr hq
    rw [returned]
    cases r.result <;>
      exact ⟨fun he => absurd he hq, fun _ => by simpa [hr] using h.settled hp⟩
  rw [OuchClient.handleWrite]
  cases hp : s.client.state with
  | pendingWrite => exact h.finishWrite hp hl
  | disconnected => exact hidle (by simp [hp]) _ rfl (by simp [hp])
  | connected => exact hidle (by simp [hp]) _ rfl (by simp [hp])
  | connecting =>
    have hne : s.client.state ≠ .pendingWrite := by simp [hp]
    dsimp only [OuchClient.finishConnecting]
    cases sockopt with
    | failed errno => exact hidle hne _ rfl hne
    | retrieved error =>
      dsimp only
      split_ifs
      · exact hidle hne _ rfl hne
      · exact hidle hne _ rfl (by simp)

theorem Consistent.modify (h : s.Consistent) {mem : Memory} (hl : s.Legal (.modify mem)) :
    Consistent { s with mem := mem } := by
  refine ⟨?_, h.settled⟩
  intro hp
  have hsame : slice mem s.client.pendingBuffer s.client.pendingBytes = s.pending :=
    slice_congr (hl hp)
  simpa only [pending, hsame] using h.waiting hp

theorem Consistent.step (h : s.Consistent) {a : OuchAction} (hl : s.Legal a) :
    (s.step strerror a).Consistent := by
  unfold OuchSession.step
  cases s.raised with
  | some what => exact h
  | none =>
    cases a with
    | handleWrite sockopt send => exact h.handleWrite hl
    | modify mem => exact ⟨(h.modify hl).waiting, (h.modify hl).settled⟩
    | sendOrder order send =>
      dsimp only
      split_ifs with hp
      · rw [OuchClient.sendOrder, if_pos hp]
        simpa [returned] using h
      · exact h.sendOrder hp hl

end Steps

theorem Consistent.start {mem : Memory} {client : OuchClient} (h : client.state ≠ .pendingWrite) :
    (start mem client).Consistent :=
  ⟨fun hp => absurd hp h, fun _ => rfl⟩

/-- However the socket splits the packets, it is given the orders that were not refused, whole
and in order. -/
theorem run_intact (strerror : Nat → String) (mem : Memory) (client : OuchClient)
    (hc : client = .new ∨ ∃ c : OuchClient, client = c.connectToServer) (actions : List OuchAction)
    (hl : StepRun.Along (step strerror) Legal (start mem client) actions) (k : Nat) :
    ((actions.take k).foldl (step strerror) (start mem client)).Intact := by
  have hp : client.state ≠ .pendingWrite := by
    obtain rfl | ⟨c, rfl⟩ := hc
    · decide
    · simp [OuchClient.connectToServer]
  apply Consistent.intact
  exact (hl.take k).invariant (Consistent.start hp) fun _ _ h ha => h.step ha

def threeBytePacket : Memory := store (fun _ => 7#8) 0 (leBytes 8 3#64)

/-- The packet goes out in two pieces with a refused order in between; then its memory is used
for a packet of one byte. -/
def splitWrites : List OuchAction :=
  [.handleWrite (.retrieved 0) (.accepted 0), .sendOrder 0 (.accepted 1),
    .sendOrder 0 (.accepted 3), .handleWrite (.retrieved 0) (.failed eagain),
    .handleWrite (.retrieved 0) (.accepted 2), .modify (store threeBytePacket 0 (leBytes 8 1#64)),
    .sendOrder 0 (.accepted 1)]

theorem splitWrites_intact :
    let s := start threeBytePacket OuchClient.new.connectToServer
    ((splitWrites.take 4).foldl (step toString) s).Intact ∧
      ((splitWrites.take 4).foldl (step toString) s).client.pendingBytes = 2 ∧
      (splitWrites.foldl (step toString) s).stream.length = 4 :=
  ⟨run_intact toString threeBytePacket _ (Or.inr ⟨.new, rfl⟩) splitWrites (by decide +kernel) 4,
    by decide +kernel, by decide +kernel⟩

end OuchSession
end MarketDataBook
