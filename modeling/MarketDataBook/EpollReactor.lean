import MarketDataBook.Library.StepRun
import Mathlib.Tactic.SplitIfs

/-! `network/EpollReactor.h`: the hand-over of accepted connections. The accept thread
pushes a descriptor and then signals the eventfd; the reactor drains the queue and then
clears the eventfd. The queue is a FIFO of 1023 descriptors; market data sockets are
present only as wake-ups that do not report the eventfd. -/
namespace MarketDataBook

inductive AcceptPc where
  | accept
  | push (newConnectionFd : Int)
  | write
  deriving DecidableEq

inductive ReactorPc where
  | epollWait
  | pop
  | read
  deriving DecidableEq

structure EpollReactor where
  acceptPc : AcceptPc
  reactorPc : ReactorPc
  incomingConnections : List Int
  eventCounter : Nat
  /-- Descriptors the reactor has popped, to register or to close. -/
  taken : List Int
  deriving DecidableEq

/-- Whose turn it is, with what the system call under way returns: the accepted
descriptor, or whether `epoll_wait` reports `event_fd_` (it can only if it is readable). -/
inductive Turn where
  | acceptThread (acceptedFd : Int)
  | reactorThread (reported : Bool)
  deriving DecidableEq

namespace EpollReactor

def start : EpollReactor := ⟨.accept, .epollWait, [], 0, []⟩

def capacity : Nat := 1023

def waitForConnections (s : EpollReactor) (acceptedFd : Int) : EpollReactor :=
  match s.acceptPc with
  | .accept => if acceptedFd = -1 then s else { s with acceptPc := .push acceptedFd }
  | .push fd =>
    if s.incomingConnections.length < capacity then
      { s with incomingConnections := s.incomingConnections ++ [fd], acceptPc := .write }
    else s
  | .write => { s with eventCounter := s.eventCounter + 1, acceptPc := .accept }

def run (s : EpollReactor) (reported : Bool) : EpollReactor :=
  match s.reactorPc with
  | .epollWait =>
    if reported = true ∧ 0 < s.eventCounter then { s with reactorPc := .pop } else s
  | .pop =>
    match s.incomingConnections with
    | [] => { s with reactorPc := .read }
    | fd::fds => { s with incomingConnections := fds, taken := s.taken ++ [fd] }
  | .read => { s with eventCounter := 0, reactorPc := .epollWait }

def step (s : EpollReactor) : Turn → EpollReactor
  | .acceptThread fd => s.waitForConnections fd
  | .reactorThread reported => s.run reported

def NotStranded (s : EpollReactor) : Prop :=
  s.reactorPc = .epollWait → s.acceptPc ≠ .write → s.incomingConnections ≠ [] →
    0 < s.eventCounter

/-- The clearing read is taken only with an empty queue or before a pending signal. -/
def ClearsSafely (s : EpollReactor) : Turn → Prop
  | .acceptThread _ => True
  | .reactorThread _ => s.reactorPc = .read →
      s.incomingConnections = [] ∨ s.acceptPc = .write

structure Signalled (s : EpollReactor) : Prop where
  waiting : s.reactorPc = .epollWait → s.incomingConnections ≠ [] →
    0 < s.eventCounter ∨ s.acceptPc = .write
  busy : s.reactorPc ≠ .epollWait → 0 < s.eventCounter

theorem Signalled.notStranded {s : EpollReactor} (h : s.Signalled) : s.NotStranded := by
  intro hr ha hq
  obtain hc | hw := h.waiting hr hq
  · exact hc
  · exact absurd hw ha

theorem Signalled.waitForConnections {s : EpollReactor} (h : s.Signalled) (fd : Int) :
    (s.waitForConnections fd).Signalled := by
  rw [EpollReactor.waitForConnections]
  cases ha : s.acceptPc with
  | accept =>
    dsimp only
    split_ifs
    · exact h
    · refine ⟨?_, h.busy⟩
      intro hr hq
      obtain hc | hw := h.waiting hr hq
      · exact Or.inl hc
      · rw [ha] at hw
        cases hw
  | push newFd =>
    dsimp only
    split_ifs
    · exact ⟨fun _ _ => Or.inr rfl, h.busy⟩
    · exact h
  | write => exact ⟨fun _ _ => Or.inl (Nat.succ_pos _), fun _ => Nat.succ_pos _⟩

theorem Signalled.run {s : EpollReactor} (h : s.Signalled) (reported : Bool)
    (hc : s.ClearsSafely (.reactorThread reported)) : (s.run reported).Signalled := by
  rw [EpollReactor.run]
  cases hr : s.reactorPc with
  | epollWait =>
    dsimp only
    split_ifs with he
    · refine ⟨?_, fun _ => he.2⟩
      intro hw
      cases hw
    · exact h
  | pop =>
    have hpos : 0 < s.eventCounter := h.busy (by rw [hr]; decide)
    dsimp only
    split
    · refine ⟨?_, fun _ => hpos⟩
      intro hw
      cases hw
    · exact ⟨fun _ _ => Or.inl hpos, fun _ => hpos⟩
  | read =>
    refine ⟨?_, fun hw => absurd rfl hw⟩
    intro _ hq
    obtain he | hw := hc hr
    · exact absurd he hq
    · exact Or.inr hw

theorem Signalled.step {s : EpollReactor} (h : s.Signalled) {t : Turn} (hc : s.ClearsSafely t) :
    (s.step t).Signalled := by
  cases t with
  | acceptThread fd => exact h.waitForConnections fd
  | reactorThread reported => exact h.run reported hc

theorem stranded_of_unsafe_clear {s : EpollReactor} {t : Turn} (hc : ¬ s.ClearsSafely t) :
    ¬ (s.step t).NotStranded := by
  cases t with
  | acceptThread fd => exact absurd trivial hc
  | reactorThread reported =>
    simp only [ClearsSafely, Classical.not_imp, not_or] at hc
    obtain ⟨hr, hq, ha⟩ := hc
    intro hn
    simp only [EpollReactor.step, EpollReactor.run, hr, NotStranded] at hn
    exact Nat.lt_irrefl 0 (hn trivial ha hq)

/-- In every interleaving, no visited state strands a connection exactly when every
clearing read is safe. -/
theorem notStranded_iff_clearsSafely (turns : List Turn) :
    (∀ k, ((turns.take k).foldl step start).NotStranded) ↔
      StepRun.Along step ClearsSafely start turns := by
  refine StepRun.visited_iff_along (I := Signalled) ⟨fun _ hq => absurd rfl hq, fun hw => absurd rfl hw⟩
    (fun _ h => h.notStranded) (fun _ _ h hc => h.step hc)
    (fun _ _ _ hc => stranded_of_unsafe_clear hc)

/-- Nothing the reactor can do alone ends its sleep while the counter is zero. -/
theorem sleeps {s : EpollReactor} (hr : s.reactorPc = .epollWait) (hc : s.eventCounter = 0)
    (reports : List Bool) : (reports.map Turn.reactorThread).foldl step s = s := by
  induction reports with
  | nil => rfl
  | cons r rs ih =>
    have hs : s.step (.reactorThread r) = s := by
      simp [EpollReactor.step, EpollReactor.run, hr, hc]
    rw [List.map_cons, List.foldl_cons, hs]
    exact ih

/-- The second connection is pushed and signalled between the reactor's last pop and its
clearing read; it is never taken unless a third one arrives. -/
theorem second_connection_stranded :
    ∃ turns, ¬ (turns.foldl step start).NotStranded ∧
      ∀ reports : List Bool, (turns ++ reports.map Turn.reactorThread).foldl step start =
        ⟨.accept, .epollWait, [6], 0, [5]⟩ := by
  refine ⟨[.acceptThread 5, .acceptThread 5, .acceptThread 5, .reactorThread true,
    .reactorThread true, .reactorThread true, .acceptThread 6, .acceptThread 6, .acceptThread 6,
    .reactorThread true], ?_, ?_⟩
  · intro h
    exact absurd (h (by decide) (by decide) (by decide)) (by decide)
  · intro reports
    rw [List.foldl_append]
    exact sleeps (by decide) (by decide) reports

end EpollReactor
end MarketDataBook
