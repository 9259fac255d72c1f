import MarketDataBook.SpscMemoryOrder

/-! The queue under release and acquire, as its callers see it: for every order of the accesses
and every choice of the stores that the loads return. The sequentially consistent runs are
among these. -/
namespace MarketDataBook
open ReleaseAcquire

/-- What a caller can rely on. Store `n` of `head_` is made by the `n`th successful pop, store
`n` of `tail_` by the `n`th successful push. -/
structure WeakChannel.BoundedFifo {α : Type*} (size : Nat) (c : WeakChannel α) : Prop where
  raceFree : c.RaceFree
  ordered : c.newest.popped <+: c.newest.pushed
  bounded : c.newest.pushed.length ≤ c.newest.popped.length + (size - 1)
  heads : (c.mem.stores .head).length = c.newest.popped.length + 1
  tails : (c.mem.stores .tail).length = c.newest.pushed.length + 1
  push_false : ∀ n input, c.mem.Readable .producer .head n →
    (c.continuePush n).pushes = c.pushes ++ [(input, false)] →
    c.newest.pushed.length = n + (size - 1)
  pop_false : ∀ n, c.mem.Readable .consumer .tail n →
    (c.continuePop n).pops = c.pops ++ [none] → c.newest.popped.length = n

section Caller
variable {α : Type*} {k : Nat} {c : WeakChannel α}

theorem WeakFifo.raceFree (h : WeakFifo (2^k) c) : c.RaceFree :=
  ⟨fun _ _ _ hp => h.write_ordered hp, fun _ _ hp => h.read_ordered hp⟩

/-- A push that fails found the ring full as of the store it read. -/
theorem WeakFifo.push_false (h : WeakFifo (2^k) c) {n : Nat} {input : α}
    (hr : c.mem.Readable .producer .head n)
    (hf : (c.continuePush n).pushes = c.pushes ++ [(input, false)]) :
    c.newest.pushed.length = n + (2^k - 1) := by
  have hpos : 0 < 2^k := Nat.two_pow_pos k
  have hlt := hr.2
  rw [h.heads.length] at hlt
  have hle := h.fifo.le
  have hroom := h.room
  have hseen := hr.1
  rw [WeakChannel.continuePush] at hf
  cases hp : c.pushPc with
  | idle => simp [hp] at hf
  | refresh v t i =>
    have hok := h.fifo.push
    have hp' : c.newest.pushPc = .refresh v t i := hp
    rw [hp'] at hok
    by_cases hfull : n % 2^k = i
    · rw [hok.2, eq_comm, RingIndex.succ_mod_eq_iff (by omega) (by omega)] at hfull
      omega
    · simp [hp, h.heads.valueAt (n := n) (by omega), hfull] at hf
  | write v t i => simp [hp] at hf
  | publish v t i => simp [hp] at hf

theorem WeakFifo.pop_false (h : WeakFifo (2^k) c) {n : Nat}
    (hr : c.mem.Readable .consumer .tail n)
    (hf : (c.continuePop n).pops = c.pops ++ [none]) : c.newest.popped.length = n := by
  have hlt := hr.2
  rw [h.tails.length] at hlt
  have hroom := h.fifo.room
  have hunread := h.unread
  have hseen := hr.1
  rw [WeakChannel.continuePop] at hf
  cases hp : c.popPc with
  | idle => simp [hp] at hf
  | refresh i j =>
    have hok := h.fifo.pop
    have hp' : c.newest.popPc = .refresh i j := hp
    rw [hp'] at hok
    by_cases hempty : i = n % 2^k
    · rw [hok.1, RingIndex.mod_eq_mod_iff (by omega) (by omega)] at hempty
      exact hempty
    · simp [hp, h.tails.valueAt (n := n) (by omega), hempty] at hf
  | read i j => simp [hp] at hf
  | publish v j => simp [hp] at hf

theorem WeakFifo.boundedFifo (h : WeakFifo (2^k) c) : c.BoundedFifo (2^k) where
  raceFree := h.raceFree
  ordered := h.fifo.ordered
  bounded := h.fifo.boundedFifo.bounded
  heads := h.heads.length
  tails := h.tails.length
  push_false := fun _ _ hr hf => h.push_false hr hf
  pop_false := fun _ hr hf => h.pop_false hr hf

end Caller

namespace WeakChannel
variable {α : Type*}

theorem beginPush_calls (size : Nat) (c : WeakChannel α) (n : Nat) (input : α) :
    (c.beginPush size n input).pushes = c.pushes ∧
    (c.beginPush size n input).pushPc.current = [input] := by
  rw [beginPush]
  split_ifs <;> exact ⟨rfl, rfl⟩

theorem continuePush_calls (c : WeakChannel α) (n : Nat) :
    (c.continuePush n).pushes.map Prod.fst ++ (c.continuePush n).pushPc.current =
      c.pushes.map Prod.fst ++ c.pushPc.current := by
  rw [continuePush]
  cases hp : c.pushPc with
  | idle => simp [hp]
  | refresh v t i =>
    dsimp only
    split_ifs <;> simp [PushPc.current]
  | write v t i => rfl
  | publish v t i => simp [PushPc.current]

theorem beginPop_producer (size : Nat) (c : WeakChannel α) (n : Nat) :
    (c.beginPop size n).pushes = c.pushes ∧ (c.beginPop size n).pushPc = c.pushPc := by
  rw [beginPop]
  split_ifs <;> exact ⟨rfl, rfl⟩

theorem continuePop_producer (c : WeakChannel α) (n : Nat) :
    (c.continuePop n).pushes = c.pushes ∧ (c.continuePop n).pushPc = c.pushPc := by
  rw [continuePop]
  cases c.popPc with
  | idle => exact ⟨rfl, rfl⟩
  | refresh i j =>
    dsimp only
    split_ifs <;> exact ⟨rfl, rfl⟩
  | read i j => exact ⟨rfl, rfl⟩
  | publish v j => exact ⟨rfl, rfl⟩

end WeakChannel

structure WeakSession (α : Type*) where
  channel : WeakChannel α
  inputs : List α

namespace WeakSession
variable {α : Type*}

def produce (size : Nat) (s : WeakSession α) (n : Nat) : WeakSession α :=
  match s.channel.pushPc with
  | .idle =>
    match s.inputs with
    | [] => s
    | input::inputs => ⟨s.channel.beginPush size n input, inputs⟩
  | _ => { s with channel := s.channel.continuePush n }

def consume (size : Nat) (s : WeakSession α) (n : Nat) : WeakSession α :=
  match s.channel.popPc with
  | .idle => { s with channel := s.channel.beginPop size n }
  | _ => { s with channel := s.channel.continuePop n }

def step (size : Nat) (s : WeakSession α) : QueueThread × Nat → WeakSession α
  | (.producer, n) => s.produce size n
  | (.consumer, n) => s.consume size n

def start (data : Nat → α) (inputs : List α) : WeakSession α := ⟨.new data, inputs⟩

def Legal (s : WeakSession α) (a : QueueThread × Nat) : Prop := s.channel.Legal a.1 a.2

instance (s : WeakSession α) (a : QueueThread × Nat) : Decidable (s.Legal a) :=
  inferInstanceAs (Decidable (s.channel.Legal a.1 a.2))

theorem step_weakFifo {k : Nat} {s : WeakSession α} {a : QueueThread × Nat}
    (h : WeakFifo (2^k) s.channel) (hl : s.Legal a) : WeakFifo (2^k) (s.step (2^k) a).channel := by
  obtain ⟨t, n⟩ := a
  cases t with
  | producer =>
    rw [step, produce]
    cases hp : s.channel.pushPc with
    | idle =>
      have hr : s.channel.mem.Readable .producer .tail n := hl .tail (by rw [WeakChannel.loads, hp]; rfl)
      cases s.inputs with
      | nil => exact h
      | cons v vs => exact h.beginPush hr v hp
    | refresh v i j => exact h.refreshPush (hl .head (by rw [WeakChannel.loads, hp]; rfl)) hp
    | write v i j => exact h.writePush n hp
    | publish v i j => exact h.publishPush n hp
  | consumer =>
    rw [step, consume]
    cases hp : s.channel.popPc with
    | idle => exact h.beginPop (hl .head (by rw [WeakChannel.loads, hp]; rfl)) hp
    | refresh i j => exact h.refreshPop (hl .tail (by rw [WeakChannel.loads, hp]; rfl)) hp
    | read i j => exact h.readPop n hp
    | publish v j => exact h.publishPop n hp

def calls (s : WeakSession α) : List α :=
  s.channel.pushes.map Prod.fst ++ s.channel.pushPc.current ++ s.inputs

theorem calls_step (size : Nat) (s : WeakSession α) (a : QueueThread × Nat) :
    (s.step size a).calls = s.calls := by
  obtain ⟨t, n⟩ := a
  cases t with
  | producer =>
    rw [step, produce, calls, calls]
    cases hp : s.channel.pushPc with
    | idle =>
      cases hi : s.inputs with
      | nil => simp [hp, hi]
      | cons v vs =>
        obtain ⟨hl, hc⟩ := s.channel.beginPush_calls size n v
        have hidle : (PushPc.idle : PushPc α).current = [] := rfl
        simp [hl, hc, hidle]
    | refresh v t i => simp only [s.channel.continuePush_calls, hp]
    | write v t i => simp only [s.channel.continuePush_calls, hp]
    | publish v t i => simp only [s.channel.continuePush_calls, hp]
  | consumer =>
    rw [step, consume, calls, calls]
    split
    · obtain ⟨hl, hc⟩ := s.channel.beginPop_producer size n
      rw [hl, hc]
    · obtain ⟨hl, hc⟩ := s.channel.continuePop_producer n
      rw [hl, hc]

/-- Every order of the accesses and every choice of the stores that the loads return. -/
theorem run_boundedFifo_raceFree (k : Nat) (data : Nat → α) (inputs : List α)
    (schedule : List (QueueThread × Nat))
    (hl : StepRun.Along (step (2^k)) Legal (start data inputs) schedule) :
    (schedule.foldl (step (2^k)) (start data inputs)).channel.BoundedFifo (2^k) ∧
    (schedule.foldl (step (2^k)) (start data inputs)).calls = inputs := by
  have h := hl.invariant (I := fun s : WeakSession α => WeakFifo (2^k) s.channel ∧ s.calls = inputs)
    ⟨WeakFifo.new k data, rfl⟩
    (fun s a hs hleg => ⟨step_weakFifo hs.1 hleg, (calls_step _ s a).trans hs.2⟩)
  exact ⟨h.1.boundedFifo, h.2⟩

/-- Both threads read an old store once: the pop of the one value and the push of the second
fail although the ring is neither empty nor full. -/
def staleReads : List (QueueThread × Nat) :=
  [(.producer, 0), (.producer, 0), (.producer, 0),
   (.consumer, 0), (.consumer, 0),
   (.consumer, 0), (.consumer, 1), (.consumer, 0), (.consumer, 0),
   (.producer, 1), (.producer, 0)]

theorem staleReads_boundedFifo :
    StepRun.Along (step (2^1)) Legal (start (fun _ => 0) [7, 8]) staleReads ∧
    (staleReads.foldl (step (2^1)) (start (fun _ => 0) [7, 8])).channel.pushes =
      [(7, true), (8, false)] ∧
    (staleReads.foldl (step (2^1)) (start (fun _ => 0) [7, 8])).channel.pops = [none, some 7] ∧
    (staleReads.foldl (step (2^1)) (start (fun _ => 0) [7, 8])).channel.BoundedFifo (2^1) :=
  have hl : StepRun.Along (step (2^1)) Legal (start (fun _ => 0) [7, 8]) staleReads := by decide
  ⟨hl, by decide, by decide, (run_boundedFifo_raceFree 1 (fun _ => 0) [7, 8] staleReads hl).1⟩

end WeakSession

/-! A sequentially consistent run is one whose loads all return the newest store. -/

namespace WeakChannel
variable {α : Type*}

def newestStore (c : WeakChannel α) (t : QueueThread) : Nat :=
  match c.loads t with
  | none => 0
  | some k => (c.mem.stores k).length - 1

theorem beginPush_newest (size : Nat) (c : WeakChannel α) (input : α) (hp : c.pushPc = .idle) :
    (c.beginPush size (c.newestStore .producer) input).newest = c.newest.beginPush size input := by
  have hn : c.newestStore .producer = (c.mem.stores .tail).length - 1 := by
    simp only [newestStore, loads, hp]
  rw [hn, beginPush, Channel.beginPush]
  split_ifs with hfull hfull' hfull'
  · rfl
  · exact absurd hfull hfull'
  · exact absurd hfull' hfull
  · rfl

theorem continuePush_newest (c : WeakChannel α) :
    (c.continuePush (c.newestStore .producer)).newest = c.newest.continuePush := by
  have hpc : c.newest.pushPc = c.pushPc := rfl
  rw [continuePush, Channel.continuePush, hpc]
  cases hp : c.pushPc with
  | idle => rfl
  | refresh v i j =>
    have hn : c.newestStore .producer = (c.mem.stores .head).length - 1 := by
      simp only [newestStore, loads, hp]
    have hvalue : c.mem.valueAt .head (c.newestStore .producer) 0 = c.newest.queue.head := by
      rw [hn]
      rfl
    dsimp only
    rw [hvalue]
    split_ifs with hfull
    all_goals
      simp only [newest, Machine.latest, Machine.valueAt, Machine.loadAcquire_stores,
        Machine.loadAcquire_cell]
  | write v i j => exact c.newest_write v i j
  | publish v i j => exact c.newest_publishPush j _

theorem beginPop_newest (size : Nat) (c : WeakChannel α) (hp : c.popPc = .idle) :
    (c.beginPop size (c.newestStore .consumer)).newest = c.newest.beginPop size := by
  have hn : c.newestStore .consumer = (c.mem.stores .head).length - 1 := by
    simp only [newestStore, loads, hp]
  rw [hn, beginPop, Channel.beginPop]
  split_ifs with hempty hempty' hempty'
  · rfl
  · exact absurd hempty hempty'
  · exact absurd hempty' hempty
  · rfl

theorem continuePop_newest (c : WeakChannel α) :
    (c.continuePop (c.newestStore .consumer)).newest = c.newest.continuePop := by
  have hpc : c.newest.popPc = c.popPc := rfl
  rw [continuePop, Channel.continuePop, hpc]
  cases hp : c.popPc with
  | idle => rfl
  | refresh i j =>
    have hn : c.newestStore .consumer = (c.mem.stores .tail).length - 1 := by
      simp only [newestStore, loads, hp]
    have hvalue : c.mem.valueAt .tail (c.newestStore .consumer) 0 = c.newest.queue.tail := by
      rw [hn]
      rfl
    dsimp only
    rw [hvalue]
    split_ifs with hempty
    all_goals
      simp only [newest, Machine.latest, Machine.valueAt, Machine.loadAcquire_stores,
        Machine.loadAcquire_cell]
  | read i j => exact c.newest_read i _
  | publish v j => exact c.newest_publishPop j _

end WeakChannel

namespace WeakSession
variable {α : Type*}

def newest (s : WeakSession α) : Session α := ⟨s.channel.newest, s.inputs⟩

theorem newestStore_legal {k : Nat} {s : WeakSession α} (h : WeakFifo (2^k) s.channel)
    (t : QueueThread) : s.Legal (t, s.channel.newestStore t) := by
  intro j hj
  have hj : s.channel.loads t = some j := hj
  have hlt := (h.consistent.views t).1 j
  simp only [WeakChannel.newestStore, hj]
  exact ⟨by omega, by omega⟩

theorem step_newest (size : Nat) (s : WeakSession α) (t : QueueThread) :
    (s.step size (t, s.channel.newestStore t)).newest = s.newest.step size t := by
  cases t with
  | producer =>
    have hpc : s.newest.channel.pushPc = s.channel.pushPc := rfl
    have hi : s.newest.inputs = s.inputs := rfl
    rw [step, Session.step, produce, Session.produce, hpc, hi]
    cases hp : s.channel.pushPc with
    | idle =>
      cases s.inputs with
      | nil => rfl
      | cons v vs => exact congrArg (Session.mk · vs) (s.channel.beginPush_newest size v hp)
    | refresh v i j => exact congrArg (Session.mk · s.inputs) s.channel.continuePush_newest
    | write v i j => exact congrArg (Session.mk · s.inputs) s.channel.continuePush_newest
    | publish v i j => exact congrArg (Session.mk · s.inputs) s.channel.continuePush_newest
  | consumer =>
    have hpc : s.newest.channel.popPc = s.channel.popPc := rfl
    rw [step, Session.step, consume, Session.consume, hpc]
    cases hp : s.channel.popPc with
    | idle => exact congrArg (Session.mk · s.inputs) (s.channel.beginPop_newest size hp)
    | refresh i j => exact congrArg (Session.mk · s.inputs) s.channel.continuePop_newest
    | read i j => exact congrArg (Session.mk · s.inputs) s.channel.continuePop_newest
    | publish v j => exact congrArg (Session.mk · s.inputs) s.channel.continuePop_newest

/-- Each interleaving is among the runs of the weaker memory. -/
theorem run_newest {k : Nat} {s : WeakSession α} (h : WeakFifo (2^k) s.channel)
    (schedule : List QueueThread) :
    ∃ actions : List (QueueThread × Nat), actions.map Prod.fst = schedule ∧
      StepRun.Along (step (2^k)) Legal s actions ∧
      (actions.foldl (step (2^k)) s).newest = schedule.foldl (Session.step (2^k)) s.newest := by
  induction schedule generalizing s with
  | nil => exact ⟨[], rfl, trivial, rfl⟩
  | cons t ts ih =>
    have hl := newestStore_legal h t
    obtain ⟨actions, hmap, hlegal, hrun⟩ := ih (step_weakFifo h hl)
    refine ⟨(t, s.channel.newestStore t)::actions, by rw [List.map_cons, hmap], ⟨hl, hlegal⟩, ?_⟩
    rw [List.foldl_cons, List.foldl_cons, hrun, step_newest]

end WeakSession
end MarketDataBook
