import MarketDataBook.DrainLoop
import Mathlib.Data.Finset.Insert
import Mathlib.Data.List.Nodup

/-! `EpollReactor::run` with all its descriptors: `epoll_wait` reports edges, each reported
descriptor is drained into its own buffer until `recv` would block, and accepted connections are
registered after that. When the eventfd is reported is left open. -/
namespace MarketDataBook
open ByteMemory

def maxEvents : Nat := 64

/-- Position in the loop of `run`: the events still to look at, and whether the eventfd was
among those reported. -/
inductive LoopPc where
  | epollWait
  | events (rest : List Nat) (hasNewConnections : Bool)
  | drain (fd : Nat) (rest : List Nat) (hasNewConnections : Bool)
  | pop
  | read
  | outOfBounds
  deriving DecidableEq

def LoopPc.atEvents : LoopPc → Bool
  | .events _ _ => true
  | _ => false

def LoopPc.atDrain : LoopPc → List Nat
  | .drain fd _ _ => [fd]
  | _ => []

structure ReactorLoop where
  pc : LoopPc
  /-- By descriptor; `fd_buffers_[fd]` is the connection's buffer. -/
  connections : Nat → Connection
  /-- The interest list. -/
  registered : Nat → Bool
  /-- An edge that `epoll_wait` has not reported yet. -/
  edge : Nat → Bool
  incomingConnections : List Nat
  /-- What came for a descriptor before it was registered. -/
  early : Nat → List Byte × Bool
  /-- The numbers of the process's open descriptors. -/
  opened : Finset Nat

inductive LoopEvent where
  | accept (fd : Nat)
  /-- The reactor's owner registers a descriptor of its own. -/
  | addSocket (fd : Nat)
  | arrive (fd : Nat) (bytes : List Byte)
  | shutdown (fd : Nat)
  /-- `epoll_wait` returns. -/
  | report (ready : List Nat) (hasNewConnections : Bool)
  /-- The head of the loop over the events. -/
  | next
  | recv (result : RecvResult) (consumes : Nat)
  | pop (fcntlFails : Bool)
  | read

namespace ReactorLoop

def start (buffers : Nat → MagicBuffer) (opened : Finset Nat) : ReactorLoop where
  pc := .epollWait
  connections fd := (Connection.opened (buffers fd)).close
  registered _ := false
  edge _ := false
  incomingConnections := []
  early _ := ([], false)
  opened := opened

def modify (s : ReactorLoop) (fd : Nat) (e : DrainEvent) : ReactorLoop :=
  { s with connections := Function.update s.connections fd ((s.connections fd).step e) }

def setEdge (s : ReactorLoop) (fd : Nat) (b : Bool) : ReactorLoop :=
  { s with edge := Function.update s.edge fd b }

def arrive (s : ReactorLoop) (fd : Nat) (bytes : List Byte) : ReactorLoop :=
  if s.registered fd then (s.modify fd (.arrive bytes)).setEdge fd true
  else { s with early := Function.update s.early fd ((s.early fd).1 ++ bytes, (s.early fd).2) }

def shutdown (s : ReactorLoop) (fd : Nat) : ReactorLoop :=
  if s.registered fd then (s.modify fd .shutdown).setEdge fd true
  else { s with early := Function.update s.early fd ((s.early fd).1, true) }

/-- The next event: market data is drained at once, new connections wait for the end. -/
def next (fdBuffers : Nat) (s : ReactorLoop) : ReactorLoop :=
  match s.pc with
  | .events [] hasNewConnections =>
    { s with pc := if hasNewConnections then .pop else .epollWait }
  | .events (fd::rest) hasNewConnections =>
    if fdBuffers ≤ fd then { s with pc := .outOfBounds }
    else { s.modify fd .report with pc := .drain fd rest hasNewConnections }
  | _ => s

/-- One round of the drain loop. `close` also takes the descriptor off the interest list. -/
def recv (s : ReactorLoop) (result : RecvResult) (consumes : Nat) : ReactorLoop :=
  match s.pc with
  | .drain fd rest hasNewConnections =>
    let s' := s.modify fd (.recv result consumes)
    match (s'.connections fd).phase with
    | .draining => s'
    | .epollWait => { s' with pc := .events rest hasNewConnections }
    | .closed =>
      { s'.setEdge fd false with
        registered := Function.update s'.registered fd false
        opened := s'.opened.erase fd
        pc := .events rest hasNewConnections }
  | _ => s

/-- `add_socket`: the edge of what is there already is reported too. -/
def addSocket (s : ReactorLoop) (fd : Nat) : ReactorLoop :=
  { s with
    connections := Function.update s.connections fd
      { (s.connections fd).step .accept with
        queue := (s.early fd).1
        peerShutdown := (s.early fd).2 }
    registered := Function.update s.registered fd true
    edge := Function.update s.edge fd (!(s.early fd).1.isEmpty || (s.early fd).2) }

def popConnection (s : ReactorLoop) (fcntlFails : Bool) : ReactorLoop :=
  match s.pc, s.incomingConnections with
  | .pop, [] => { s with pc := .read }
  | .pop, fd::fds =>
    let s' := { s with incomingConnections := fds }
    if fcntlFails then { s' with opened := s'.opened.erase fd } else s'.addSocket fd
  | _, _ => s

def step (fdBuffers : Nat) (s : ReactorLoop) : LoopEvent → ReactorLoop
  | .accept fd =>
    { s with incomingConnections := s.incomingConnections ++ [fd]
             early := Function.update s.early fd ([], false)
             opened := insert fd s.opened }
  | .addSocket fd => s.addSocket fd
  | .arrive fd bytes => s.arrive fd bytes
  | .shutdown fd => s.shutdown fd
  | .report ready hasNewConnections =>
    { s with pc := .events ready hasNewConnections
             edge := fun fd => s.edge fd && !decide (fd ∈ ready) }
  | .next => s.next fdBuffers
  | .recv result consumes => s.recv result consumes
  | .pop fcntlFails => s.popConnection fcntlFails
  | .read => match s.pc with
    | .read => { s with pc := .epollWait }
    | _ => s

def Blocks (c : Connection) : RecvResult → Prop
  | .failed errno => errno = eagain ∨ errno = ewouldblock →
      c.queue = [] ∧ c.peerShutdown = false
  | _ => True

instance (c : Connection) : (result : RecvResult) → Decidable (Blocks c result)
  | .failed errno => inferInstanceAs (Decidable (errno = eagain ∨ errno = ewouldblock →
      c.queue = [] ∧ c.peerShutdown = false))
  | .received _ => isTrue trivial
  | .zero => isTrue trivial

/-- What the kernel, the peers and the owner may do. `accept` returns a number that is not in
use, and the owner registers non-blocking descriptors it had before it constructed the reactor;
nothing else closes a descriptor. -/
def Legal (others : Finset Nat) (s : ReactorLoop) : LoopEvent → Prop
  | .accept fd => fd ∉ s.opened
  | .addSocket fd => fd ∈ others ∧ fd ∈ s.opened ∧ s.registered fd = false ∧
      fd ∉ s.incomingConnections
  | .arrive fd _ => (s.registered fd = true ∧ (s.connections fd).peerShutdown = false) ∨
      (s.registered fd = false ∧ fd ∈ s.opened ∧ (s.early fd).2 = false)
  | .shutdown fd => s.registered fd = true ∨ fd ∈ s.opened
  | .report ready _ => s.pc = .epollWait ∧ ready.Nodup ∧ ready.length ≤ maxEvents ∧
      ∀ fd ∈ ready, s.registered fd = true ∧ s.edge fd = true
  | .next => s.pc.atEvents = true
  | .recv result consumes => ∃ fd ∈ s.pc.atDrain,
      (s.connections fd).Returns consumes result ∧ Blocks (s.connections fd) result
  | .pop _ => s.pc = .pop
  | .read => s.pc = .read

instance (others : Finset Nat) (s : ReactorLoop) : (e : LoopEvent) → Decidable (s.Legal others e)
  | .accept fd => inferInstanceAs (Decidable (fd ∉ s.opened))
  | .addSocket fd => inferInstanceAs (Decidable (fd ∈ others ∧ fd ∈ s.opened ∧
      s.registered fd = false ∧ fd ∉ s.incomingConnections))
  | .arrive fd _ => inferInstanceAs (Decidable ((s.registered fd = true ∧
      (s.connections fd).peerShutdown = false) ∨
      (s.registered fd = false ∧ fd ∈ s.opened ∧ (s.early fd).2 = false)))
  | .shutdown fd => inferInstanceAs (Decidable (s.registered fd = true ∨ fd ∈ s.opened))
  | .report ready _ => inferInstanceAs (Decidable (s.pc = .epollWait ∧ ready.Nodup ∧
      ready.length ≤ maxEvents ∧ ∀ fd ∈ ready, s.registered fd = true ∧ s.edge fd = true))
  | .next => inferInstanceAs (Decidable (s.pc.atEvents = true))
  | .recv result consumes => inferInstanceAs (Decidable (∃ fd ∈ s.pc.atDrain,
      (s.connections fd).Returns consumes result ∧ Blocks (s.connections fd) result))
  | .pop _ => inferInstanceAs (Decidable (s.pc = .pop))
  | .read => inferInstanceAs (Decidable (s.pc = .read))

end ReactorLoop

theorem LoopPc.atEvents_iff {pc : LoopPc} :
    pc.atEvents = true ↔ ∃ rest hasNew, pc = .events rest hasNew := by
  cases pc with
  | events rest hasNew => exact iff_of_true rfl ⟨rest, hasNew, rfl⟩
  | epollWait => simp [LoopPc.atEvents]
  | drain fd rest hasNew => simp [LoopPc.atEvents]
  | pop => simp [LoopPc.atEvents]
  | read => simp [LoopPc.atEvents]
  | outOfBounds => simp [LoopPc.atEvents]

theorem LoopPc.mem_atDrain {pc : LoopPc} {fd : Nat} (h : fd ∈ pc.atDrain) :
    ∃ rest hasNew, pc = .drain fd rest hasNew := by
  cases pc with
  | drain fd' rest hasNew =>
    rw [LoopPc.atDrain, List.mem_singleton] at h
    exact ⟨rest, hasNew, by rw [h]⟩
  | epollWait => cases h
  | events rest hasNew => cases h
  | pop => cases h
  | read => cases h
  | outOfBounds => cases h

def Connection.Reached (c₀ c : Connection) : Prop :=
  ∃ events, StepRun.Along Connection.step Connection.Legal c₀ events ∧
    events.foldl Connection.step c₀ = c

theorem Connection.Reached.refl (c : Connection) : c.Reached c := ⟨[], trivial, rfl⟩

theorem Connection.Reached.step {c₀ c : Connection} (h : c₀.Reached c) {e : DrainEvent}
    (he : c.Legal e) : c₀.Reached (c.step e) := by
  obtain ⟨events, halong, rfl⟩ := h
  refine ⟨events ++ [e], halong.append ⟨he, trivial⟩, ?_⟩
  rw [List.foldl_append]
  rfl

def LoopPc.pending : LoopPc → List Nat
  | .events rest _ => rest
  | .drain fd rest _ => fd :: rest
  | _ => []

def LoopPc.phase (fd : Nat) : LoopPc → DrainPhase
  | .drain fd' _ _ => if fd = fd' then .draining else .epollWait
  | _ => .epollWait

/-- One descriptor: its connection goes its own way, and if it is open with something to read it
is reported or has an edge. -/
structure FdOk (c₀ : Connection) (pc : LoopPc) (fd : Nat) (c : Connection)
    (registered edge : Bool) : Prop where
  opened : registered = true → c.phase = pc.phase fd
  closed : registered = false → c.phase = .closed
  attended : pc ≠ .outOfBounds → registered = true → c.queue ≠ [] ∨ c.peerShutdown = true →
    edge = true ∨ fd ∈ pc.pending
  reached : c₀.Reached c

structure Attended (c₀ : Nat → Connection) (s : ReactorLoop) : Prop where
  nodup : s.pc.pending.Nodup
  pending : ∀ fd ∈ s.pc.pending, s.registered fd = true
  live : ∀ fd, s.registered fd = true → fd ∈ s.opened
  incoming : ∀ fd ∈ s.incomingConnections, fd ∈ s.opened ∧ s.registered fd = false
  apart : s.incomingConnections.Nodup
  fds : ∀ fd, FdOk (c₀ fd) s.pc fd (s.connections fd) (s.registered fd) (s.edge fd)

theorem LoopPc.phase_ne_closed (fd : Nat) (pc : LoopPc) : pc.phase fd ≠ .closed := by
  cases pc with
  | drain fd' rest hasNew =>
    rw [LoopPc.phase]
    split_ifs <;> decide
  | epollWait => exact DrainPhase.noConfusion
  | events rest hasNew => exact DrainPhase.noConfusion
  | pop => exact DrainPhase.noConfusion
  | read => exact DrainPhase.noConfusion
  | outOfBounds => exact DrainPhase.noConfusion

section Descriptor
variable {c₀ c : Connection} {pc pc' : LoopPc} {fd : Nat} {edge : Bool}

theorem FdOk.open (h : FdOk c₀ pc fd c true edge) : c.phase ≠ .closed := by
  rw [h.opened rfl]
  exact LoopPc.phase_ne_closed fd pc

/-- The loop goes on and has to do with other descriptors. -/
theorem FdOk.pass {registered : Bool} (h : FdOk c₀ pc fd c registered edge)
    (hin : pc ≠ .outOfBounds) (hphase : pc'.phase fd = pc.phase fd)
    (hpend : fd ∈ pc.pending → fd ∈ pc'.pending) : FdOk c₀ pc' fd c registered edge where
  opened := fun hr => (h.opened hr).trans hphase.symm
  closed := h.closed
  attended := fun _ hr hq => (h.attended hin hr hq).imp_right hpend
  reached := h.reached

/-- Something happens at an open descriptor; its edge is raised. -/
theorem FdOk.raise (h : FdOk c₀ pc fd c true edge) {e : DrainEvent} (he : c.Legal e)
    (hp : (c.step e).phase = c.phase) : FdOk c₀ pc fd (c.step e) true true where
  opened := fun hr => hp.trans (h.opened hr)
  closed := fun hr => Bool.noConfusion hr
  attended := fun _ _ _ => Or.inl rfl
  reached := h.reached.step he

/-- A descriptor taken up while the loop was at its events. -/
theorem FdOk.take {rest : List Nat} {hasNew : Bool}
    (h : FdOk c₀ (.events (fd::rest) hasNew) fd c true edge) :
    FdOk c₀ (.drain fd rest hasNew) fd (c.step .report) true edge where
  opened := by
    intro _
    rw [LoopPc.phase, if_pos rfl]
    rfl
  closed := fun hr => Bool.noConfusion hr
  attended := fun _ _ _ => Or.inr List.mem_cons_self
  reached := h.reached.step (h.opened rfl)

/-- A round that ends in waiting has read everything. -/
theorem drainRound_epollWait {consumes : Nat} {result : RecvResult} (hp : c.phase = .draining)
    (hb : ReactorLoop.Blocks c result)
    (hwait : (c.drainRound consumes result).phase = .epollWait) :
    (c.drainRound consumes result).queue = [] ∧
      (c.drainRound consumes result).peerShutdown = false := by
  cases result with
  | received bytes =>
    rw [show (c.drainRound consumes (.received bytes)).phase = c.phase from rfl, hp] at hwait
    cases hwait
  | zero => cases hwait
  | failed errno =>
    by_cases he : errno = eagain ∨ errno = ewouldblock
    · rw [Connection.drainRound, if_pos he]
      exact hb he
    · rw [Connection.drainRound, if_neg he] at hwait
      cases hwait

end Descriptor

section Steps
variable {c₀ : Nat → Connection} {others : Finset Nat} {fdBuffers fd : Nat} {s : ReactorLoop}

theorem Attended.at_open (h : Attended c₀ s) (hr : s.registered fd = true) :
    FdOk (c₀ fd) s.pc fd (s.connections fd) true (s.edge fd) := by
  have hfd := h.fds fd
  rw [hr] at hfd
  exact hfd

theorem Attended.head_registered (h : Attended c₀ s) {rest : List Nat}
    (hpend : s.pc.pending = fd::rest) : s.registered fd = true := by
  apply h.pending fd
  rw [hpend]
  exact List.mem_cons_self

/-- An event at one open descriptor that leaves its phase alone and raises its edge. -/
theorem Attended.raise (h : Attended c₀ s) (hr : s.registered fd = true) {e : DrainEvent}
    (he : (s.connections fd).Legal e)
    (hp : ((s.connections fd).step e).phase = (s.connections fd).phase) :
    Attended c₀ ((s.modify fd e).setEdge fd true) := by
  refine ⟨h.nodup, h.pending, h.live, h.incoming, h.apart, ?_⟩
  intro fd'
  by_cases heq : fd' = fd
  · subst heq
    simp only [ReactorLoop.setEdge, ReactorLoop.modify, Function.update_self, hr]
    exact (h.at_open hr).raise he hp
  · simp only [ReactorLoop.setEdge, ReactorLoop.modify, Function.update_of_ne heq]
    exact h.fds fd'

theorem Attended.accept (h : Attended c₀ s) (hl : s.Legal others (.accept fd)) :
    Attended c₀ (s.step fdBuffers (.accept fd)) := by
  have hfree : fd ∉ s.opened := hl
  refine ⟨h.nodup, h.pending, ?_, ?_, ?_, h.fds⟩
  · exact fun fd' hr => Finset.mem_insert_of_mem (h.live fd' hr)
  · intro fd' hmem
    obtain hmem | hmem := List.mem_append.mp hmem
    · exact (h.incoming fd' hmem).imp_left Finset.mem_insert_of_mem
    · rw [List.mem_singleton.mp hmem]
      refine ⟨Finset.mem_insert_self fd s.opened, ?_⟩
      exact Bool.eq_false_of_not_eq_true fun hr => hfree (h.live fd hr)
  · rw [ReactorLoop.step, List.nodup_append]
    refine ⟨h.apart, List.nodup_singleton fd, ?_⟩
    intro a ha b hb heq
    rw [List.mem_singleton.mp hb] at heq
    exact hfree (heq ▸ (h.incoming a ha).1)

theorem Attended.arrive (h : Attended c₀ s) {bytes : List Byte}
    (hl : s.Legal others (.arrive fd bytes)) :
    Attended c₀ (s.step fdBuffers (.arrive fd bytes)) := by
  rw [ReactorLoop.step, ReactorLoop.arrive]
  split_ifs with hr
  · apply h.raise hr
    · refine ⟨(h.at_open hr).open, ?_⟩
      obtain ⟨-, hopen⟩ | ⟨hunreg, -⟩ := hl
      · exact hopen
      · rw [hunreg] at hr
        cases hr
    · rfl
  · exact ⟨h.nodup, h.pending, h.live, h.incoming, h.apart, h.fds⟩

theorem Attended.shutdown (h : Attended c₀ s) :
    Attended c₀ (s.step fdBuffers (.shutdown fd)) := by
  rw [ReactorLoop.step, ReactorLoop.shutdown]
  split_ifs with hr
  · exact h.raise hr (h.at_open hr).open rfl
  · exact ⟨h.nodup, h.pending, h.live, h.incoming, h.apart, h.fds⟩

theorem Attended.report (h : Attended c₀ s) {ready : List Nat} {hasNew : Bool}
    (hl : s.Legal others (.report ready hasNew)) :
    Attended c₀ (s.step fdBuffers (.report ready hasNew)) := by
  obtain ⟨hpc, hnodup, -, hready⟩ := hl
  refine ⟨hnodup, fun fd hfd => (hready fd hfd).1, h.live, h.incoming, h.apart, ?_⟩
  intro fd
  have hfd := h.fds fd
  rw [hpc] at hfd
  refine ⟨hfd.opened, hfd.closed, ?_, hfd.reached⟩
  intro _ hr hq
  by_cases hmem : fd ∈ ready
  · exact Or.inr hmem
  · obtain hedge | hpend := hfd.attended LoopPc.noConfusion hr hq
    · left
      simp only [ReactorLoop.step, hmem, decide_false, Bool.not_false, Bool.and_true, hedge]
    · cases hpend

/-- A move of the loop that touches no descriptor. -/
theorem Attended.move (h : Attended c₀ s) {pc : LoopPc} (hin : s.pc ≠ .outOfBounds)
    (hpend : pc.pending = s.pc.pending) (hphase : ∀ fd, pc.phase fd = s.pc.phase fd) :
    Attended c₀ { s with pc := pc } := by
  refine ⟨?_, ?_, h.live, h.incoming, h.apart, fun fd => (h.fds fd).pass hin (hphase fd) ?_⟩
  · dsimp only
    rw [hpend]
    exact h.nodup
  · dsimp only
    rw [hpend]
    exact h.pending
  · intro hmem
    rw [hpend]
    exact hmem

/-- Out of the vector nothing is claimed of what was reported. -/
theorem Attended.fall (h : Attended c₀ s) (hphase : ∀ fd, s.pc.phase fd = .epollWait) :
    Attended c₀ { s with pc := .outOfBounds } where
  nodup := List.nodup_nil
  pending := fun _ hmem => absurd hmem List.not_mem_nil
  live := h.live
  incoming := h.incoming
  apart := h.apart
  fds := fun fd =>
    ⟨fun hr => ((h.fds fd).opened hr).trans (hphase fd), (h.fds fd).closed,
      fun hin => absurd rfl hin, (h.fds fd).reached⟩

theorem Attended.next (h : Attended c₀ s) (hl : s.Legal others .next) :
    Attended c₀ (s.step fdBuffers .next) := by
  obtain ⟨rest, hasNew, hpc⟩ := LoopPc.atEvents_iff.mp hl
  have hin : s.pc ≠ .outOfBounds := by rw [hpc]; exact LoopPc.noConfusion
  rw [ReactorLoop.step, ReactorLoop.next, hpc]
  cases rest with
  | nil =>
    have hmove : ∀ pc : LoopPc, pc = .pop ∨ pc = .epollWait → Attended c₀ { s with pc := pc } := by
      rintro pc (rfl | rfl)
      · exact h.move hin (by rw [hpc]; rfl) fun fd => by rw [hpc]; rfl
      · exact h.move hin (by rw [hpc]; rfl) fun fd => by rw [hpc]; rfl
    apply hmove
    cases hasNew with
    | false => exact Or.inr rfl
    | true => exact Or.inl rfl
  | cons fd rest =>
    have hpend : s.pc.pending = fd::rest := by rw [hpc]; rfl
    have hr := h.head_registered hpend
    have hfd := h.at_open hr
    dsimp only
    split_ifs with hbound
    · exact h.fall fun fd => by rw [hpc]; rfl
    have hnodup := h.nodup
    have hpending := h.pending
    rw [hpend] at hnodup hpending
    refine ⟨hnodup, hpending, h.live, h.incoming, h.apart, ?_⟩
    intro fd'
    by_cases heq : fd' = fd
    · subst heq
      simp only [ReactorLoop.modify, Function.update_self, hr]
      rw [hpc] at hfd
      exact hfd.take
    · simp only [ReactorLoop.modify, Function.update_of_ne heq]
      apply (h.fds fd').pass hin
      · rw [hpc, LoopPc.phase, if_neg heq]
        rfl
      · rw [hpc]
        exact id

/-- The loop leaves the descriptor it was at, which stays open if it stays registered. -/
theorem Attended.leave (h : Attended c₀ s) {rest : List Nat} {hasNew : Bool}
    (hpc : s.pc = .drain fd rest hasNew) {c : Connection} {registered edge : Bool}
    {opened : Finset Nat} (hopened : registered = true → fd ∈ opened)
    (hothers : ∀ fd' ≠ fd, fd' ∈ s.opened → fd' ∈ opened)
    (hfd : FdOk (c₀ fd) (.events rest hasNew) fd c registered edge) :
    Attended c₀ { s with
      connections := Function.update s.connections fd c
      registered := Function.update s.registered fd registered
      edge := Function.update s.edge fd edge
      opened := opened
      pc := .events rest hasNew } := by
  have hnodup := h.nodup
  have hpend := h.pending
  rw [hpc] at hnodup hpend
  obtain ⟨hnot, hrest⟩ := List.nodup_cons.mp hnodup
  have hwas : s.registered fd = true := hpend fd List.mem_cons_self
  refine ⟨hrest, ?_, ?_, ?_, h.apart, ?_⟩
  · intro fd' hmem
    have hne : fd' ≠ fd := fun heq => hnot (heq ▸ hmem)
    dsimp only
    rw [Function.update_of_ne hne]
    exact hpend fd' (List.mem_cons_of_mem fd hmem)
  · intro fd' hr
    dsimp only at hr ⊢
    by_cases heq : fd' = fd
    · subst heq
      rw [Function.update_self] at hr
      exact hopened hr
    · rw [Function.update_of_ne heq] at hr
      exact hothers fd' heq (h.live fd' hr)
  · intro fd' hmem
    have hin := h.incoming fd' hmem
    have hne : fd' ≠ fd := by
      rintro rfl
      rw [hin.2] at hwas
      cases hwas
    dsimp only
    rw [Function.update_of_ne hne]
    exact hin.imp_left (hothers fd' hne)
  · intro fd'
    by_cases heq : fd' = fd
    · subst heq
      simp only [Function.update_self]
      exact hfd
    · simp only [Function.update_of_ne heq]
      apply (h.fds fd').pass
      · rw [hpc]
        exact LoopPc.noConfusion
      · rw [hpc]
        exact (if_neg heq).symm
      · rw [hpc]
        intro hmem
        exact List.mem_of_ne_of_mem heq hmem

theorem Attended.recv (h : Attended c₀ s) {result : RecvResult} {consumes : Nat}
    (hl : s.Legal others (.recv result consumes)) :
    Attended c₀ (s.step fdBuffers (.recv result consumes)) := by
  obtain ⟨fd, hmem, hret, hblocks⟩ := hl
  obtain ⟨rest, hasNew, hpc⟩ := LoopPc.mem_atDrain hmem
  have hpend : s.pc.pending = fd::rest := by rw [hpc]; rfl
  have hr := h.head_registered hpend
  have hfd := h.at_open hr
  rw [hpc] at hfd
  have hphase : (s.connections fd).phase = .draining := (hfd.opened rfl).trans (if_pos rfl)
  have hreached := hfd.reached.step (e := .recv result consumes) ⟨hphase, hret⟩
  rw [ReactorLoop.step, ReactorLoop.recv, hpc]
  simp only [ReactorLoop.modify, Function.update_self]
  cases hnew : ((s.connections fd).step (.recv result consumes)).phase with
  | draining =>
    refine ⟨h.nodup, h.pending, h.live, h.incoming, h.apart, ?_⟩
    intro fd'
    by_cases heq : fd' = fd
    · subst heq
      simp only [Function.update_self, hr, hpc]
      refine ⟨fun _ => hnew.trans (if_pos rfl).symm, Bool.noConfusion, ?_, hreached⟩
      exact fun _ _ _ => Or.inr List.mem_cons_self
    · simp only [Function.update_of_ne heq]
      exact h.fds fd'
  | epollWait =>
    obtain ⟨hqueue, hopen⟩ := drainRound_epollWait hphase hblocks hnew
    have hok : FdOk (c₀ fd) (.events rest hasNew) fd
        ((s.connections fd).step (.recv result consumes)) true (s.edge fd) := by
      refine ⟨fun _ => hnew, Bool.noConfusion, ?_, hreached⟩
      rintro - - (hq | hd)
      · exact absurd hqueue hq
      · rw [show ((s.connections fd).step (.recv result consumes)).peerShutdown = false from hopen]
          at hd
        cases hd
    have hleave := h.leave hpc (fun _ => h.live fd hr) (fun _ _ hmem => hmem) hok
    rw [← hr, Function.update_eq_self, Function.update_eq_self] at hleave
    exact hleave
  | closed =>
    exact h.leave hpc Bool.noConfusion (fun _ hne hmem => Finset.mem_erase_of_ne_of_mem hne hmem)
      ⟨Bool.noConfusion, fun _ => hnew, fun _ => Bool.noConfusion, hreached⟩

/-- The connection `add_socket` starts with is one that was accepted, got its early bytes and was
perhaps shut down. -/
theorem Connection.Reached.addSocket {c₀ c : Connection} (h : c₀.Reached c)
    (hp : c.phase = .closed) (early : List Byte × Bool) :
    c₀.Reached { c.step .accept with queue := early.1, peerShutdown := early.2 } := by
  have haccept := h.step (e := .accept) hp
  have harrive := haccept.step (e := .arrive early.1) ⟨DrainPhase.noConfusion, rfl⟩
  obtain ⟨bytes, closing⟩ := early
  cases closing with
  | false => exact harrive
  | true => exact harrive.step (e := .shutdown) DrainPhase.noConfusion

/-- A descriptor under `recv` was reported. -/
theorem LoopPc.phase_of_not_pending {pc : LoopPc} (h : fd ∉ pc.pending) :
    pc.phase fd = .epollWait := by
  cases pc with
  | drain fd' rest hasNew =>
    rw [LoopPc.phase, if_neg]
    rintro rfl
    exact h List.mem_cons_self
  | epollWait => rfl
  | events rest hasNew => rfl
  | pop => rfl
  | read => rfl
  | outOfBounds => rfl

theorem Attended.addSocket (h : Attended c₀ s) (hopened : fd ∈ s.opened)
    (hunreg : s.registered fd = false) (hnot : fd ∉ s.incomingConnections) :
    Attended c₀ (s.addSocket fd) := by
  refine ⟨h.nodup, ?_, ?_, ?_, h.apart, ?_⟩
  · intro fd' hmem
    by_cases heq : fd' = fd
    · subst heq
      exact Function.update_self ..
    · simp only [ReactorLoop.addSocket, Function.update_of_ne heq]
      exact h.pending fd' hmem
  · intro fd' hr
    by_cases heq : fd' = fd
    · exact heq ▸ hopened
    · simp only [ReactorLoop.addSocket, Function.update_of_ne heq] at hr
      exact h.live fd' hr
  · intro fd' hmem
    have hne : fd' ≠ fd := fun heq => hnot (heq ▸ hmem)
    simp only [ReactorLoop.addSocket, Function.update_of_ne hne]
    exact h.incoming fd' hmem
  · intro fd'
    by_cases heq : fd' = fd
    · subst heq
      have hfd := h.fds fd'
      have hphase : s.pc.phase fd' = .epollWait := by
        apply LoopPc.phase_of_not_pending
        intro hmem
        rw [h.pending fd' hmem] at hunreg
        cases hunreg
      simp only [ReactorLoop.addSocket, Function.update_self]
      refine ⟨fun _ => hphase.symm, Bool.noConfusion, ?_,
        hfd.reached.addSocket (hfd.closed hunreg) _⟩
      rintro - - (hq | hd)
      · left
        rw [List.isEmpty_eq_false_iff.mpr hq]
        rfl
      · left
        rw [show (s.early fd').2 = true from hd, Bool.or_true]
    · simp only [ReactorLoop.addSocket, Function.update_of_ne heq]
      exact h.fds fd'

/-- The first of the accepted descriptors is taken, and kept or closed. -/
theorem Attended.dequeue (h : Attended c₀ s) {fds : List Nat}
    (hin : s.incomingConnections = fd::fds) {opened : Finset Nat}
    (hothers : ∀ fd' ≠ fd, fd' ∈ s.opened → fd' ∈ opened) :
    Attended c₀ { s with incomingConnections := fds, opened := opened } := by
  have hincoming := h.incoming
  have hapart := h.apart
  rw [hin] at hincoming hapart
  obtain ⟨hnot, hrest⟩ := List.nodup_cons.mp hapart
  refine ⟨h.nodup, h.pending, ?_, ?_, hrest, h.fds⟩
  · intro fd' hr
    apply hothers fd' _ (h.live fd' hr)
    rintro rfl
    rw [(hincoming fd' List.mem_cons_self).2] at hr
    cases hr
  · intro fd' hmem
    exact (hincoming fd' (List.mem_cons_of_mem fd hmem)).imp_left
      (hothers fd' fun heq => hnot (heq ▸ hmem))

theorem Attended.pop (h : Attended c₀ s) {fails : Bool} (hl : s.Legal others (.pop fails)) :
    Attended c₀ (s.step fdBuffers (.pop fails)) := by
  have hpc : s.pc = .pop := hl
  rw [ReactorLoop.step, ReactorLoop.popConnection]
  split
  · exact h.move (by rw [hpc]; exact LoopPc.noConfusion) (by rw [hpc]; rfl) fun fd => by
      rw [hpc]; rfl
  · next fd fds _ hin =>
    have hincoming := h.incoming
    have hapart := h.apart
    rw [hin] at hincoming hapart
    obtain ⟨hopened, hunreg⟩ := hincoming fd List.mem_cons_self
    dsimp only
    split_ifs
    · exact h.dequeue hin fun _ hne hmem => Finset.mem_erase_of_ne_of_mem hne hmem
    · exact (h.dequeue hin fun _ _ hmem => hmem).addSocket hopened hunreg
        (List.nodup_cons.mp hapart).1
  · exact h

theorem Attended.step (h : Attended c₀ s) {e : LoopEvent} (hl : s.Legal others e) :
    Attended c₀ (s.step fdBuffers e) := by
  cases e with
  | accept fd => exact h.accept hl
  | addSocket fd => exact h.addSocket hl.2.1 hl.2.2.1 hl.2.2.2
  | arrive fd bytes => exact h.arrive hl
  | shutdown fd => exact h.shutdown
  | report ready hasNew => exact h.report hl
  | next => exact h.next hl
  | recv result consumes => exact h.recv hl
  | pop fails => exact h.pop hl
  | read =>
    have hpc : s.pc = .read := hl
    rw [ReactorLoop.step]
    split
    · exact h.move (by rw [hpc]; exact LoopPc.noConfusion) (by rw [hpc]; rfl) fun fd => by
        rw [hpc]; rfl
    · exact h

end Steps

theorem Attended.start (buffers : Nat → MagicBuffer) (opened : Finset Nat) :
    Attended (ReactorLoop.start buffers opened).connections (.start buffers opened) where
  nodup := List.nodup_nil
  pending := fun _ h => absurd h List.not_mem_nil
  live := fun _ h => Bool.noConfusion h
  incoming := fun _ h => absurd h List.not_mem_nil
  apart := List.nodup_nil
  fds := fun _ => ⟨Bool.noConfusion, fun _ => rfl, fun _ => Bool.noConfusion, .refl _⟩

end MarketDataBook
