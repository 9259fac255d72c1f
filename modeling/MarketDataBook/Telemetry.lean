import MarketDataBook.SpscFifo
import Mathlib.Data.List.Induction

/-! The telemetry of `main.cpp`: `consume` records what each dispatch cost into one of two
buffers and hands the buffer over after a slow order, `log_telemetry` writes every buffer handed
over to the file, whole. The buffers are shared and not locked; the indices of those handed over
go through a queue of size 2, whose capacity is 1. `readings` gives what the counters show around
each dispatch. -/
namespace MarketDataBook

structure Readings where
  startL1d : BitVec 64
  startBranches : BitVec 64
  startTsc : BitVec 64
  endTsc : BitVec 64
  endBranches : BitVec 64
  endL1d : BitVec 64

structure Measurement where
  tscDelta : BitVec 64
  l1dDelta : BitVec 64
  branchDelta : BitVec 64
  deriving DecidableEq

def Readings.measurement (r : Readings) : Measurement :=
  ⟨r.endTsc - r.startTsc, r.endL1d - r.startL1d, r.endBranches - r.startBranches⟩

def Measurement.slow (m : Measurement) : Bool := 1000#64 < m.l1dDelta || 5000#64 < m.tscDelta

abbrev TelemetryBuffer := Nat → Measurement

inductive RecorderPc where
  | measure
  | push
  | inPush
  deriving DecidableEq

inductive WriterPc where
  | pop
  | write (bufIdx i : Nat)
  deriving DecidableEq

structure Telemetry where
  buffers : Nat → TelemetryBuffer
  activeBuf : Nat
  telIdx : Nat
  recorder : RecorderPc
  writer : WriterPc
  channel : Channel Nat
  file : List Measurement
  /-- Every measurement made so far. -/
  measured : List Measurement

inductive TelemetryThread where
  | recorder | writer
  deriving DecidableEq

namespace Telemetry
variable (size : Nat) (readings : Nat → Readings)

/-- The buffers start with what the stack holds. -/
def start (buffers : Nat → TelemetryBuffer) (data : Nat → Nat) : Telemetry :=
  ⟨buffers, 0, 0, .measure, .pop, .new data, [], []⟩

def next (s : Telemetry) : Measurement := (readings s.measured.length).measurement

/-- One step of `consume` after a dispatch. The buffers are swapped whatever `push` returned. -/
def record (s : Telemetry) : Telemetry :=
  match s.recorder with
  | .measure =>
    let m := s.next readings
    let active := Function.update (s.buffers s.activeBuf) s.telIdx m
    { s with buffers := Function.update s.buffers s.activeBuf active
             telIdx := (s.telIdx + 1) &&& (size - 1)
             measured := s.measured ++ [m]
             recorder := if m.slow then .push else .measure }
  | .push => { s with channel := s.channel.beginPush 2 s.activeBuf, recorder := .inPush }
  | .inPush =>
    let channel := s.channel.continuePush
    match channel.pushPc with
    | .idle =>
      { s with channel := channel, activeBuf := 1 - s.activeBuf, telIdx := 0, recorder := .measure }
    | _ => { s with channel := channel }

/-- One step of `log_telemetry`; `write` copies entry by entry. -/
def logTelemetry (s : Telemetry) : Telemetry :=
  match s.writer with
  | .pop =>
    match s.channel.popPc with
    | .idle => { s with channel := s.channel.beginPop 2 }
    | .publish bufIdx _ => { s with channel := s.channel.continuePop, writer := .write bufIdx 0 }
    | _ => { s with channel := s.channel.continuePop }
  | .write bufIdx i =>
    if i < size then
      { s with file := s.file ++ [s.buffers bufIdx i], writer := .write bufIdx (i+1) }
    else { s with writer := .pop }

def step (s : Telemetry) : TelemetryThread → Telemetry
  | .recorder => s.record size readings
  | .writer => s.logTelemetry size

def run (buffers : Nat → TelemetryBuffer) (data : Nat → Nat) (schedule : List TelemetryThread) :
    Telemetry :=
  schedule.foldl (step size readings) (.start buffers data)

def written (s : Telemetry) : Nat :=
  match s.writer with
  | .pop => s.channel.popped.length
  | .write _ _ => s.channel.popped.length - 1

def outstanding (s : Telemetry) : List Nat := s.channel.pushed.drop s.written

/-- No measurement goes into a buffer that is queued or being written. -/
def Undisturbed (s : Telemetry) (t : TelemetryThread) : Prop :=
  t = .recorder → s.recorder = .measure → s.activeBuf ∉ s.outstanding

instance decidableUndisturbed (s : Telemetry) (t : TelemetryThread) : Decidable (s.Undisturbed t) :=
  inferInstanceAs (Decidable (t = .recorder → s.recorder = .measure → s.activeBuf ∉ s.outstanding))

def Calm (s : Telemetry) (t : TelemetryThread) : Prop :=
  t = .recorder → s.recorder = .measure → (s.next readings).slow = true → s.outstanding = []

instance decidableCalm (s : Telemetry) (t : TelemetryThread) : Decidable (s.Calm readings t) :=
  inferInstanceAs (Decidable (t = .recorder → s.recorder = .measure →
    (s.next readings).slow = true → s.outstanding = []))

end Telemetry

/-- The measurements by period: those that ended with a slow order, and the one under way. -/
def addToPeriods (p : List (List Measurement) × List Measurement) (m : Measurement) :
    List (List Measurement) × List Measurement :=
  if m.slow then (p.1 ++ [p.2 ++ [m]], []) else (p.1, p.2 ++ [m])

def periods (ms : List Measurement) : List (List Measurement) × List Measurement :=
  ms.foldl addToPeriods ([], [])

def recordPeriod (size : Nat) (buffer : TelemetryBuffer) (period : List Measurement) :
    TelemetryBuffer :=
  period.zipIdx.foldl (fun buffer m => Function.update buffer (m.2 % size) m.1) buffer

def afterPeriods (size : Nat) (buffers : Nat → TelemetryBuffer) (ps : List (List Measurement)) :
    Nat → TelemetryBuffer :=
  ps.zipIdx.foldl (fun buffers p =>
    Function.update buffers (p.2 % 2) (recordPeriod size (buffers (p.2 % 2)) p.1)) buffers

def snapshots (size : Nat) (buffers : Nat → TelemetryBuffer) (ps : List (List Measurement)) :
    List TelemetryBuffer :=
  (List.range ps.length).map fun n => afterPeriods size buffers (ps.take (n+1)) (n % 2)

def handOvers (snapshots : List TelemetryBuffer) (pushes : List (Nat × Bool)) :
    List (Nat × TelemetryBuffer) :=
  ((pushes.zip snapshots).filter fun p => p.1.2).map fun p => (p.1.1, p.2)

def TelemetryBuffer.entries (size : Nat) (buffer : TelemetryBuffer) : List Measurement :=
  (List.range size).map buffer

theorem recordPeriod_concat (size : Nat) (buffer : TelemetryBuffer) (period : List Measurement)
    (m : Measurement) : recordPeriod size buffer (period ++ [m]) =
      Function.update (recordPeriod size buffer period) (period.length % size) m := by
  rw [recordPeriod, List.zipIdx_append, List.foldl_append, ← recordPeriod]
  simp

theorem afterPeriods_concat (size : Nat) (buffers : Nat → TelemetryBuffer)
    (ps : List (List Measurement)) (p : List Measurement) : afterPeriods size buffers (ps ++ [p]) =
      Function.update (afterPeriods size buffers ps) (ps.length % 2)
        (recordPeriod size (afterPeriods size buffers ps (ps.length % 2)) p) := by
  rw [afterPeriods, List.zipIdx_append, List.foldl_append, ← afterPeriods]
  simp

theorem afterPeriods_nil (size : Nat) (buffers : Nat → TelemetryBuffer)
    (ps : List (List Measurement)) :
    afterPeriods size buffers (ps ++ [[]]) = afterPeriods size buffers ps := by
  rw [afterPeriods_concat]
  exact Function.update_eq_self ..

theorem length_snapshots (size : Nat) (buffers : Nat → TelemetryBuffer)
    (ps : List (List Measurement)) : (snapshots size buffers ps).length = ps.length := by
  simp [snapshots]

theorem snapshots_concat (size : Nat) (buffers : Nat → TelemetryBuffer)
    (ps : List (List Measurement)) (p : List Measurement) : snapshots size buffers (ps ++ [p]) =
      snapshots size buffers ps ++ [afterPeriods size buffers (ps ++ [p]) (ps.length % 2)] := by
  rw [snapshots, List.length_append, List.length_singleton, List.range_succ, List.map_append,
    snapshots]
  congr 1
  · apply List.map_congr_left
    intro n hn
    have hlt := List.mem_range.mp hn
    rw [List.take_append_of_le_length (by omega)]
  · rw [List.map_singleton, List.take_of_length_le (by simp)]

/-- A period shows its last entries, the slow one among them. -/
theorem recordPeriod_apply {size j : Nat} (buffer : TelemetryBuffer) {period : List Measurement}
    (hj : j < period.length) (hsize : period.length ≤ j + size) :
    some (recordPeriod size buffer period (j % size)) = period[j]? := by
  induction period using List.reverseRecOn with
  | nil => simp at hj
  | append_singleton period m ih =>
    rw [List.length_append, List.length_singleton] at hj hsize
    rw [recordPeriod_concat]
    by_cases hlast : j = period.length
    · rw [hlast, Function.update_self, List.getElem?_concat_length]
    · have hne : j % size ≠ period.length % size := by
        intro he
        have hmod := (Nat.modEq_iff_dvd' (n := size) (a := j) (b := period.length) (by omega)).mp he
        have hle := Nat.le_of_dvd (by omega) hmod
        omega
      rw [Function.update_of_ne hne, List.getElem?_append_left (by omega)]
      exact ih (by omega) (by omega)

theorem zip_append_of_le {α β : Type*} {l : List α} {m : List β} (h : l.length ≤ m.length)
    (n : List β) : l.zip (m ++ n) = l.zip m := by
  induction l generalizing m with
  | nil => rfl
  | cons a l ih =>
    cases m with
    | nil => simp at h
    | cons b m =>
      rw [List.cons_append, List.zip_cons_cons, List.zip_cons_cons, ih (by simpa using h)]

theorem map_fst_handOvers {snaps : List TelemetryBuffer} {pushes : List (Nat × Bool)}
    (h : pushes.length ≤ snaps.length) :
    (handOvers snaps pushes).map Prod.fst = (pushes.filter Prod.snd).map Prod.fst := by
  induction pushes generalizing snaps with
  | nil => rfl
  | cons p pushes ih =>
    cases snaps with
    | nil => simp at h
    | cons b snaps =>
      have hrest : (handOvers snaps pushes).map Prod.fst = _ := ih (by simpa using h)
      rw [handOvers] at hrest ⊢
      rw [List.zip_cons_cons, List.filter_cons, List.filter_cons]
      split_ifs
      · rw [List.map_cons, List.map_cons, List.map_cons, hrest]
      · exact hrest

theorem handOvers_concat {snaps : List TelemetryBuffer} {pushes : List (Nat × Bool)}
    (h : snaps.length = pushes.length) (buffer : TelemetryBuffer) (bufIdx : Nat) (ok : Bool) :
    handOvers (snaps ++ [buffer]) (pushes ++ [(bufIdx, ok)]) =
      handOvers snaps pushes ++ if ok then [(bufIdx, buffer)] else [] := by
  rw [handOvers, List.zip_append h.symm, List.filter_append, List.map_append, ← handOvers]
  cases ok with
  | true => rfl
  | false => rfl

namespace Telemetry

def RecorderOk (size : Nat) (s : Telemetry) : Prop :=
  match s.recorder with
  | .measure => s.channel.pushes.length = (periods s.measured).1.length ∧
      s.telIdx = (periods s.measured).2.length % size ∧ s.channel.pushPc.current = []
  | .push => s.channel.pushes.length + 1 = (periods s.measured).1.length ∧
      (periods s.measured).2 = [] ∧ s.channel.pushPc.current = []
  | .inPush => s.channel.pushes.length + 1 = (periods s.measured).1.length ∧
      (periods s.measured).2 = [] ∧ s.channel.pushPc.current = [s.activeBuf]

structure Recorded (k : Nat) (buffers : Nat → TelemetryBuffer) (s : Telemetry) : Prop where
  fifo : s.channel.Fifo (2^1)
  buffers : s.buffers = afterPeriods (2^k) buffers
    ((periods s.measured).1 ++ [(periods s.measured).2])
  active : s.activeBuf = s.channel.pushes.length % 2
  recorder : s.RecorderOk (2^k)

variable {k : Nat} {buffers : Nat → TelemetryBuffer} {readings : Nat → Readings} {s : Telemetry}

theorem periods_concat (ms : List Measurement) (m : Measurement) :
    periods (ms ++ [m]) = addToPeriods (periods ms) m := by
  rw [periods, List.foldl_append, ← periods]
  rfl

/-- A measurement goes where the periods say, slow or not. -/
theorem afterPeriods_periods_concat (ms : List Measurement) (m : Measurement) :
    afterPeriods (2^k) buffers ((periods (ms ++ [m])).1 ++ [(periods (ms ++ [m])).2]) =
      afterPeriods (2^k) buffers ((periods ms).1 ++ [(periods ms).2 ++ [m]]) := by
  rw [periods_concat, addToPeriods]
  split_ifs
  · exact afterPeriods_nil ..
  · rfl

theorem Recorded.measure (h : Recorded k buffers s) (hpc : s.recorder = .measure) :
    Recorded k buffers (s.record (2^k) readings) := by
  have hr := h.recorder
  rw [RecorderOk, hpc] at hr
  obtain ⟨hlen, hidx, hpush⟩ := hr
  rw [record, hpc]
  refine ⟨h.fifo, ?_, h.active, ?_⟩
  · dsimp only
    rw [afterPeriods_periods_concat, afterPeriods_concat, recordPeriod_concat, h.buffers,
      afterPeriods_concat, h.active, hlen, hidx, Function.update_self, Function.update_idem]
  · rw [RecorderOk]
    dsimp only
    rw [periods_concat, addToPeriods]
    split_ifs
    · exact ⟨by rw [hlen, List.length_append, List.length_singleton], rfl, hpush⟩
    · refine ⟨hlen, ?_, hpush⟩
      dsimp only
      rw [hidx, List.length_append, List.length_singleton]
      exact Channel.nextIdx_mod k _

/-- A step of the recorder inside `push`. -/
theorem inPush_cases (k : Nat) (readings : Nat → Readings)
    (hc : s.channel.pushPc.current = [s.activeBuf]) (hpc : s.recorder = .inPush) :
    (∃ ok, s.channel.continuePush.pushes = s.channel.pushes ++ [(s.activeBuf, ok)] ∧
      s.channel.continuePush.pushPc.current = [] ∧
      s.record (2^k) readings = { s with channel := s.channel.continuePush
                                         activeBuf := 1 - s.activeBuf
                                         telIdx := 0
                                         recorder := .measure }) ∨
    (s.channel.continuePush.pushes = s.channel.pushes ∧
      s.channel.continuePush.pushPc.current = [s.activeBuf] ∧
      s.record (2^k) readings = { s with channel := s.channel.continuePush }) := by
  rw [record, hpc]
  dsimp only
  obtain ⟨hidle, ok, hpushes⟩ | ⟨hbusy, hcur, hpushes⟩ := Channel.continuePush_returns hc
  · refine Or.inl ⟨ok, hpushes, ?_, ?_⟩
    · rw [hidle]
      rfl
    · rw [hidle]
  · refine Or.inr ⟨hpushes, hcur, ?_⟩
    split
    · next hidle => exact absurd hidle hbusy
    · rfl

theorem Recorded.record (h : Recorded k buffers s) :
    Recorded k buffers (s.record (2^k) readings) := by
  have hr := h.recorder
  cases hpc : s.recorder with
  | measure => exact h.measure hpc
  | push =>
    rw [RecorderOk, hpc] at hr
    obtain ⟨hlen, hcur, -⟩ := hr
    obtain ⟨hpushes, hcurrent⟩ := s.channel.beginPush_calls 2 s.activeBuf
    rw [Telemetry.record, hpc]
    refine ⟨h.fifo.beginPush _, h.buffers, ?_, ?_⟩
    · dsimp only
      rw [hpushes, h.active]
    · exact ⟨by dsimp only; rw [hpushes, hlen], hcur, hcurrent⟩
  | inPush =>
    rw [RecorderOk, hpc] at hr
    obtain ⟨hlen, hcur, hcurrent⟩ := hr
    obtain ⟨ok, hpushes, hidle, hs⟩ | ⟨hpushes, hbusy, hs⟩ :=
      inPush_cases k readings hcurrent hpc
    · rw [hs]
      refine ⟨h.fifo.continuePush, h.buffers, ?_, ?_, ?_, hidle⟩
      · dsimp only
        rw [hpushes, h.active, List.length_append, List.length_singleton]
        omega
      · dsimp only
        rw [hpushes, List.length_append, List.length_singleton, hlen]
      · dsimp only
        rw [hcur, List.length_nil, Nat.zero_mod]
    · rw [hs]
      refine ⟨h.fifo.continuePush, h.buffers, ?_, ?_⟩
      · dsimp only
        rw [hpushes, h.active]
      · rw [RecorderOk]
        dsimp only
        rw [hpc]
        exact ⟨by rw [hpushes, hlen], hcur, hbusy⟩

/-- An access of the writer to the queue. -/
theorem Recorded.popAccess (h : Recorded k buffers s) {channel : Channel Nat} {pc : WriterPc}
    (hf : channel.Fifo (2^1))
    (hpush : channel.pushes = s.channel.pushes ∧ channel.pushPc = s.channel.pushPc) :
    Recorded k buffers { s with channel := channel, writer := pc } := by
  refine ⟨hf, h.buffers, ?_, ?_⟩
  · dsimp only
    rw [hpush.1]
    exact h.active
  · rw [RecorderOk]
    dsimp only
    rw [hpush.1, hpush.2]
    exact h.recorder

/-- What one step of the writer does: an access to the queue that takes nothing, a buffer taken, an
entry written, or the end of a buffer. -/
theorem logTelemetry_cases (h : Recorded k buffers s) :
    (∃ channel : Channel Nat, channel.Fifo (2^1) ∧
      (channel.pushes = s.channel.pushes ∧ channel.pushPc = s.channel.pushPc) ∧
      s.writer = .pop ∧ channel.popped = s.channel.popped ∧
      s.logTelemetry (2^k) = { s with channel := channel, writer := .pop }) ∨
    (∃ (channel : Channel Nat) (bufIdx : Nat), channel.Fifo (2^1) ∧
      (channel.pushes = s.channel.pushes ∧ channel.pushPc = s.channel.pushPc) ∧
      s.writer = .pop ∧ channel.popped = s.channel.popped ++ [bufIdx] ∧
      s.logTelemetry (2^k) = { s with channel := channel, writer := .write bufIdx 0 }) ∨
    (∃ bufIdx i, s.writer = .write bufIdx i ∧ i < 2^k ∧
      s.logTelemetry (2^k) = { s with file := s.file ++ [s.buffers bufIdx i]
                                      writer := .write bufIdx (i+1) }) ∨
    (∃ bufIdx i, s.writer = .write bufIdx i ∧ 2^k ≤ i ∧
      s.logTelemetry (2^k) = { s with writer := .pop }) := by
  rw [logTelemetry]
  cases hw : s.writer with
  | pop =>
    have hidle : (∀ v n, s.channel.popPc ≠ .publish v n) →
        s.channel.continuePop.popped = s.channel.popped := Channel.continuePop_popped
    cases hp : s.channel.popPc with
    | idle =>
      exact Or.inl ⟨_, h.fifo.beginPop, s.channel.beginPop_producer 2, rfl,
        s.channel.beginPop_popped 2, rfl⟩
    | refresh i n =>
      exact Or.inl ⟨_, h.fifo.continuePop, s.channel.continuePop_producer, rfl,
        hidle (by simp [hp]), rfl⟩
    | read i n =>
      exact Or.inl ⟨_, h.fifo.continuePop, s.channel.continuePop_producer, rfl,
        hidle (by simp [hp]), rfl⟩
    | publish v n =>
      exact Or.inr (Or.inl ⟨_, v, h.fifo.continuePop, s.channel.continuePop_producer, rfl,
        (Channel.continuePop_publish hp).1, rfl⟩)
  | write bufIdx i =>
    dsimp only
    split_ifs with hi
    · exact Or.inr (Or.inr (Or.inl ⟨bufIdx, i, rfl, hi, rfl⟩))
    · exact Or.inr (Or.inr (Or.inr ⟨bufIdx, i, rfl, Nat.le_of_not_lt hi, rfl⟩))

theorem Recorded.logTelemetry (h : Recorded k buffers s) :
    Recorded k buffers (s.logTelemetry (2^k)) := by
  obtain ⟨c, hf, hpush, -, -, hs⟩ | ⟨c, v, hf, hpush, -, -, hs⟩ | ⟨b, i, -, -, hs⟩ |
    ⟨b, i, -, -, hs⟩ := logTelemetry_cases h
  · rw [hs]
    exact h.popAccess hf hpush
  · rw [hs]
    exact h.popAccess hf hpush
  · rw [hs]
    exact ⟨h.fifo, h.buffers, h.active, h.recorder⟩
  · rw [hs]
    exact ⟨h.fifo, h.buffers, h.active, h.recorder⟩

theorem Recorded.start (k : Nat) (buffers : Nat → TelemetryBuffer) (data : Nat → Nat) :
    Recorded k buffers (.start buffers data) where
  fifo := Channel.Fifo.new 1 data
  buffers := (afterPeriods_nil (2^k) buffers []).symm
  active := rfl
  recorder := ⟨rfl, (Nat.zero_mod _).symm, rfl⟩

end Telemetry
end MarketDataBook
