import MarketDataBook.ReactorLoop
import Mathlib.Data.Fintype.EquivFin

/-! The numbers of the reactor's descriptors. `run` finds a buffer by the descriptor's number, and
the buffers keep memory files of their own open, which take the low numbers: a connection accepted
later has no buffer, unless the owner's descriptor of that number was closed. -/
namespace MarketDataBook
open ByteMemory

def maxConnections : Nat := 1000

def lowestFree (opened : Finset Nat) : Nat := Nat.find (Infinite.exists_notMem_finset opened)

def openDescriptors : Nat → Finset Nat → Finset Nat
  | 0, opened => opened
  | n + 1, opened => insert (lowestFree (openDescriptors n opened)) (openDescriptors n opened)

section Numbers
variable {opened : Finset Nat} {n fd : Nat}

theorem lowestFree_not_mem (opened : Finset Nat) : lowestFree opened ∉ opened :=
  Nat.find_spec (Infinite.exists_notMem_finset opened)

theorem mem_of_lt_lowestFree (h : fd < lowestFree opened) : fd ∈ opened :=
  not_not.mp (Nat.find_min (Infinite.exists_notMem_finset opened) h)

/-- Lowest first: the first `n` descriptors opened fill the numbers below `n`. -/
theorem mem_openDescriptors_of_lt (hfd : fd < n) : fd ∈ openDescriptors n opened := by
  induction n generalizing fd with
  | zero => cases hfd
  | succ n ih =>
    rw [openDescriptors, Finset.mem_insert]
    by_cases hmem : fd ∈ openDescriptors n opened
    · exact Or.inr hmem
    · -- only `n` itself can be missing, and then it is the lowest free number
      left
      have hle : lowestFree (openDescriptors n opened) ≤ fd := by
        by_contra hlt
        exact hmem (mem_of_lt_lowestFree (Nat.not_le.mp hlt))
      have hge : n ≤ lowestFree (openDescriptors n opened) := by
        by_contra hlt
        exact lowestFree_not_mem _ (ih (Nat.not_le.mp hlt))
      omega

end Numbers

def bufferCount (initializeBuffers : Bool) : Nat := if initializeBuffers then maxConnections else 0

/-- The descriptors open after the constructor: `epoll_create1` has taken one and each buffer
keeps its memory file. -/
@[irreducible] def constructed (others : Finset Nat) (initializeBuffers : Bool) : Finset Nat :=
  openDescriptors (bufferCount initializeBuffers + 1) others

theorem mem_constructed_of_le {others : Finset Nat} {initializeBuffers : Bool} {fd : Nat}
    (h : fd ≤ bufferCount initializeBuffers) : fd ∈ constructed others initializeBuffers := by
  rw [constructed]
  exact mem_openDescriptors_of_lt (Nat.lt_succ_of_le h)

/-- The reactor keeps its own descriptors, so a number up to that of the buffers is one of the
owner's, and no byte is read from any other. -/
structure OutOfReach (others : Finset Nat) (fdBuffers : Nat) (s : ReactorLoop) : Prop where
  own : ∀ fd ≤ fdBuffers, fd ∉ others →
    fd ∈ s.opened ∧ s.registered fd = false ∧ fd ∉ s.incomingConnections
  drained : ∀ fd ∈ s.pc.atDrain, fd < fdBuffers
  unread : ∀ fd, fd ∉ others → (s.connections fd).received = []

section Reach
variable {c₀ : Nat → Connection} {others : Finset Nat} {fdBuffers fd : Nat} {s : ReactorLoop}

theorem OutOfReach.past (h : OutOfReach others fdBuffers s) (hfd : fd ∉ others)
    (hlive : s.registered fd = true ∨ fd ∈ s.incomingConnections) : fdBuffers < fd := by
  by_contra hle
  obtain ⟨-, hunreg, hnot⟩ := h.own fd (Nat.not_lt.mp hle) hfd
  obtain hr | hin := hlive
  · rw [hunreg] at hr
    cases hr
  · exact hnot hin

/-- What is drained is the owner's. -/
theorem OutOfReach.mem_others (h : OutOfReach others fdBuffers s) (ha : Attended c₀ s)
    (hfd : fd ∈ s.pc.atDrain) : fd ∈ others := by
  by_contra hnot
  obtain ⟨rest, hasNew, hpc⟩ := LoopPc.mem_atDrain hfd
  have hpend : s.pc.pending = fd::rest := by rw [hpc]; rfl
  exact absurd (h.past hnot (Or.inl (ha.head_registered hpend)))
    (Nat.lt_asymm (h.drained fd hfd))

/-- The loop goes on to a position that drains nothing. -/
theorem OutOfReach.move (h : OutOfReach others fdBuffers s) {pc : LoopPc} (hpc : pc.atDrain = []) :
    OutOfReach others fdBuffers { s with pc := pc } := by
  refine ⟨h.own, ?_, h.unread⟩
  intro fd hmem
  rw [hpc] at hmem
  cases hmem

/-- An event at one connection that receives nothing. -/
theorem OutOfReach.modify (h : OutOfReach others fdBuffers s) (fd : Nat) {e : DrainEvent}
    (he : ((s.connections fd).step e).received = (s.connections fd).received) :
    OutOfReach others fdBuffers (s.modify fd e) := by
  refine ⟨h.own, h.drained, ?_⟩
  intro fd' hfd'
  by_cases heq : fd' = fd
  · subst heq
    simp only [ReactorLoop.modify, Function.update_self]
    exact he.trans (h.unread fd' hfd')
  · simp only [ReactorLoop.modify, Function.update_of_ne heq]
    exact h.unread fd' hfd'

theorem OutOfReach.addSocket (h : OutOfReach others fdBuffers s)
    (hfd : fd ∈ others ∨ fdBuffers < fd) : OutOfReach others fdBuffers (s.addSocket fd) := by
  refine ⟨?_, h.drained, ?_⟩
  · intro fd' hle hnot
    have hne : fd' ≠ fd := by
      rintro rfl
      exact hfd.elim hnot (Nat.not_lt.mpr hle)
    simp only [ReactorLoop.addSocket, Function.update_of_ne hne]
    exact h.own fd' hle hnot
  · intro fd' hnot
    by_cases heq : fd' = fd
    · subst heq
      simp only [ReactorLoop.addSocket, Function.update_self]
      rfl
    · simp only [ReactorLoop.addSocket, Function.update_of_ne heq]
      exact h.unread fd' hnot

theorem OutOfReach.next (h : OutOfReach others fdBuffers s) :
    OutOfReach others fdBuffers (s.next fdBuffers) := by
  rw [ReactorLoop.next]
  split
  · next hasNew _ =>
    cases hasNew with
    | false => exact h.move rfl
    | true => exact h.move rfl
  · next fd rest hasNew _ =>
    split_ifs with hbound
    · exact h.move rfl
    · have hreport := h.modify fd (e := .report) rfl
      refine ⟨hreport.own, ?_, hreport.unread⟩
      intro fd' hmem
      rw [List.mem_singleton.mp hmem]
      exact Nat.not_le.mp hbound
  · exact h

theorem OutOfReach.recv (h : OutOfReach others fdBuffers s) (ha : Attended c₀ s)
    (result : RecvResult) (consumes : Nat) :
    OutOfReach others fdBuffers (s.recv result consumes) := by
  rw [ReactorLoop.recv]
  split
  · next fd rest hasNew hpc =>
    have hdrain : fd ∈ s.pc.atDrain := by
      rw [hpc]
      exact List.mem_singleton_self fd
    have hmem := h.mem_others ha hdrain
    have hne : ∀ {fd'}, fd' ∉ others → fd' ≠ fd := fun hnot heq => hnot (heq ▸ hmem)
    have hunread : ∀ fd', fd' ∉ others →
        ((s.modify fd (.recv result consumes)).connections fd').received = [] := by
      intro fd' hnot
      simp only [ReactorLoop.modify, Function.update_of_ne (hne hnot)]
      exact h.unread fd' hnot
    dsimp only
    split
    · exact ⟨h.own, h.drained, hunread⟩
    · exact ⟨h.own, fun _ hmem => absurd hmem List.not_mem_nil, hunread⟩
    · refine ⟨?_, fun _ hmem => absurd hmem List.not_mem_nil, hunread⟩
      intro fd' hle hnot
      obtain ⟨hopened, hunreg, hout⟩ := h.own fd' hle hnot
      refine ⟨Finset.mem_erase_of_ne_of_mem (hne hnot) hopened, ?_, hout⟩
      exact (Function.update_of_ne (hne hnot) _ _).trans hunreg
  · exact h

theorem OutOfReach.pop (h : OutOfReach others fdBuffers s) (fails : Bool) :
    OutOfReach others fdBuffers (s.popConnection fails) := by
  rw [ReactorLoop.popConnection]
  split
  · exact h.move rfl
  · next fd fds hpc hin =>
    have hfd : fd ∈ others ∨ fdBuffers < fd := by
      by_cases hmem : fd ∈ others
      · exact Or.inl hmem
      · refine Or.inr (h.past hmem (Or.inr ?_))
        rw [hin]
        exact List.mem_cons_self
    have hown : ∀ fd' ≤ fdBuffers, fd' ∉ others →
        fd' ≠ fd ∧ fd' ∈ s.opened ∧ s.registered fd' = false ∧ fd' ∉ fds := by
      intro fd' hle hnot
      obtain ⟨hopened, hunreg, hout⟩ := h.own fd' hle hnot
      rw [hin, List.mem_cons, not_or] at hout
      exact ⟨hout.1, hopened, hunreg, hout.2⟩
    dsimp only
    split_ifs
    · refine ⟨?_, h.drained, h.unread⟩
      intro fd' hle hnot
      obtain ⟨hne, hopened, hunreg, hout⟩ := hown fd' hle hnot
      exact ⟨Finset.mem_erase_of_ne_of_mem hne hopened, hunreg, hout⟩
    · apply OutOfReach.addSocket _ hfd
      exact ⟨fun fd' hle hnot => (hown fd' hle hnot).2, h.drained, h.unread⟩
  · exact h

theorem OutOfReach.accept (h : OutOfReach others fdBuffers s)
    (hl : s.Legal others (.accept fd)) :
    OutOfReach others fdBuffers (s.step fdBuffers (.accept fd)) := by
  refine ⟨?_, h.drained, h.unread⟩
  intro fd' hle hnot
  obtain ⟨hopened, hunreg, hout⟩ := h.own fd' hle hnot
  refine ⟨Finset.mem_insert_of_mem hopened, hunreg, ?_⟩
  rw [ReactorLoop.step, List.mem_append, not_or]
  refine ⟨hout, fun hmem => hl ?_⟩
  exact List.mem_singleton.mp hmem ▸ hopened

theorem OutOfReach.step (h : OutOfReach others fdBuffers s) (ha : Attended c₀ s) {e : LoopEvent}
    (hl : s.Legal others e) : OutOfReach others fdBuffers (s.step fdBuffers e) := by
  cases e with
  | accept fd => exact h.accept hl
  | addSocket fd => exact h.addSocket (Or.inl hl.1)
  | arrive fd bytes =>
    rw [ReactorLoop.step, ReactorLoop.arrive]
    split_ifs
    · have harrive := h.modify fd (e := .arrive bytes) rfl
      exact ⟨harrive.own, harrive.drained, harrive.unread⟩
    · exact ⟨h.own, h.drained, h.unread⟩
  | shutdown fd =>
    rw [ReactorLoop.step, ReactorLoop.shutdown]
    split_ifs
    · have hshutdown := h.modify fd (e := .shutdown) rfl
      exact ⟨hshutdown.own, hshutdown.drained, hshutdown.unread⟩
    · exact ⟨h.own, h.drained, h.unread⟩
  | report ready hasNew =>
    have hmove := h.move (show (LoopPc.events ready hasNew).atDrain = [] from rfl)
    exact ⟨hmove.own, hmove.drained, hmove.unread⟩
  | next => exact h.next
  | recv result consumes => exact h.recv ha result consumes
  | pop fails => exact h.pop fails
  | read =>
    rw [ReactorLoop.step]
    split
    · exact h.move rfl
    · exact h

end Reach

theorem OutOfReach.start (buffers : Nat → MagicBuffer) (others : Finset Nat)
    (initializeBuffers : Bool) : OutOfReach others (bufferCount initializeBuffers)
      (.start buffers (constructed others initializeBuffers)) where
  own := fun _ hle _ =>
    ⟨mem_constructed_of_le hle, rfl, List.not_mem_nil⟩
  drained := fun _ h => absurd h List.not_mem_nil
  unread := fun _ _ => rfl

end MarketDataBook
