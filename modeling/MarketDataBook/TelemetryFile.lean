import MarketDataBook.Telemetry

/-! What `log_telemetry` leaves in the file. A buffer that is queued or being written must not be
recorded into; then the file is made of whole buffers, and if every slow order finds the writer idle
each of them has its block. -/
namespace MarketDataBook
namespace Telemetry
variable {k : Nat} {buffers : Nat → TelemetryBuffer} {readings : Nat → Readings} {s : Telemetry}

def handed (size : Nat) (buffers : Nat → TelemetryBuffer) (s : Telemetry) :
    List (Nat × TelemetryBuffer) :=
  handOvers (snapshots size buffers (periods s.measured).1) s.channel.pushes

def inProgress (size : Nat) (s : Telemetry) : List Measurement :=
  match s.writer with
  | .pop => []
  | .write bufIdx i => ((s.buffers bufIdx).entries size).take i

def WriterOk (size : Nat) (s : Telemetry) : Prop :=
  match s.writer with
  | .pop => True
  | .write bufIdx i => i ≤ size ∧ 1 ≤ s.channel.popped.length ∧
      s.channel.pushed[s.channel.popped.length - 1]? = some bufIdx

structure Filed (k : Nat) (buffers : Nat → TelemetryBuffer) (s : Telemetry) : Prop where
  recorded : Recorded k buffers s
  writer : s.WriterOk (2^k)
  standing : ∀ p ∈ (s.handed (2^k) buffers).drop s.written, s.buffers p.1 = p.2
  file : s.file = ((s.handed (2^k) buffers).take s.written).flatMap (fun p => p.2.entries (2^k)) ++
    s.inProgress (2^k)

theorem Recorded.pushes_le (h : Recorded k buffers s) :
    s.channel.pushes.length ≤ (periods s.measured).1.length := by
  have hr := h.recorder
  rw [RecorderOk] at hr
  split at hr
  all_goals omega

theorem Recorded.map_fst_handed (h : Recorded k buffers s) :
    (s.handed (2^k) buffers).map Prod.fst = s.channel.pushed :=
  map_fst_handOvers (by rw [length_snapshots]; exact h.pushes_le)

theorem Recorded.mem_outstanding (h : Recorded k buffers s) {p : Nat × TelemetryBuffer}
    (hp : p ∈ (s.handed (2^k) buffers).drop s.written) : p.1 ∈ s.outstanding := by
  rw [outstanding, ← h.map_fst_handed, ← List.map_drop]
  exact List.mem_map_of_mem hp

theorem Recorded.written_le (h : Recorded k buffers s) :
    s.written ≤ s.channel.pushed.length := by
  have hle := h.fifo.le
  rw [written]
  split
  · exact hle
  · omega

/-- The writer's buffer is outstanding. -/
theorem WriterOk.mem_outstanding {size bufIdx i : Nat} (h : s.WriterOk size)
    (hw : s.writer = .write bufIdx i) : bufIdx ∈ s.outstanding := by
  rw [WriterOk, hw] at h
  rw [outstanding, written, hw]
  apply List.mem_of_getElem? (i := 0)
  rw [List.getElem?_drop]
  exact h.2.2

/-- A step that leaves the calls of the queue, the writer and the file alone. -/
theorem Filed.frame (h : Filed k buffers s) {s' : Telemetry} (hr : Recorded k buffers s')
    (hwriter : s'.writer = s.writer) (hfile : s'.file = s.file)
    (hpushed : s'.channel.pushed = s.channel.pushed)
    (hpopped : s'.channel.popped = s.channel.popped)
    (hhanded : s'.handed (2^k) buffers = s.handed (2^k) buffers)
    (hbuf : ∀ b ∈ s.outstanding, s'.buffers b = s.buffers b) : Filed k buffers s' := by
  have hwritten : s'.written = s.written := by rw [written, written, hwriter, hpopped]
  refine ⟨hr, ?_, ?_, ?_⟩
  · rw [WriterOk, hwriter, hpushed, hpopped]
    exact h.writer
  · intro p hp
    rw [hhanded, hwritten] at hp
    rw [hbuf _ (h.recorded.mem_outstanding hp)]
    exact h.standing p hp
  · rw [hfile, hhanded, hwritten, h.file, inProgress, inProgress, hwriter]
    cases hw : s.writer with
    | pop => rfl
    | write bufIdx i =>
      dsimp only
      rw [hbuf _ (h.writer.mem_outstanding hw)]

/-- A measurement of a period that is not handed over yet. -/
theorem Recorded.handed_measure (h : Recorded k buffers s) (m : Measurement) :
    handOvers (snapshots (2^k) buffers (periods (s.measured ++ [m])).1) s.channel.pushes =
      s.handed (2^k) buffers := by
  rw [handed, periods_concat, addToPeriods]
  split_ifs
  · rw [snapshots_concat, handOvers, zip_append_of_le, ← handOvers]
    rw [length_snapshots]
    exact h.pushes_le
  · rfl

theorem Filed.measure (h : Filed k buffers s) (hpc : s.recorder = .measure)
    (hq : s.activeBuf ∉ s.outstanding) : Filed k buffers (s.record (2^k) readings) := by
  have hr : Recorded k buffers (s.record (2^k) readings) := h.recorded.measure hpc
  rw [record, hpc] at hr ⊢
  apply h.frame hr rfl rfl rfl rfl
  · exact h.recorded.handed_measure _
  · intro b hb
    have hne : b ≠ s.activeBuf := fun he => hq (he ▸ hb)
    exact Function.update_of_ne hne ..

/-- The push returns: the buffer counts as handed over if it was accepted. -/
theorem Filed.returned (h : Filed k buffers s) {s' : Telemetry} {ok : Bool}
    (hr : Recorded k buffers s')
    (hlen : s.channel.pushes.length + 1 = (periods s.measured).1.length)
    (hcur : (periods s.measured).2 = [])
    (hpushes : s'.channel.pushes = s.channel.pushes ++ [(s.activeBuf, ok)])
    (hpopped : s'.channel.popped = s.channel.popped) (hwriter : s'.writer = s.writer)
    (hfile : s'.file = s.file) (hbuf : s'.buffers = s.buffers)
    (hmeasured : s'.measured = s.measured) : Filed k buffers s' := by
  have hhanded : s'.handed (2^k) buffers = s.handed (2^k) buffers ++
      if ok then [(s.activeBuf, s.buffers s.activeBuf)] else [] := by
    have hbuffers := h.recorded.buffers
    have hactive := h.recorded.active
    rw [hcur, afterPeriods_nil] at hbuffers
    obtain hnil | ⟨done, last, hdone⟩ := (periods s.measured).1.eq_nil_or_concat
    · rw [hnil] at hlen
      cases hlen
    · rw [List.concat_eq_append] at hdone
      rw [hdone, List.length_append, List.length_singleton] at hlen
      have hlen' : (snapshots (2^k) buffers done).length = s.channel.pushes.length := by
        rw [length_snapshots]
        omega
      rw [handed, handed, hmeasured, hpushes, hdone, snapshots_concat, handOvers_concat hlen',
        handOvers, handOvers, zip_append_of_le hlen'.ge, hactive, hbuffers, hdone]
      have hidx : s.channel.pushes.length = done.length := by omega
      rw [hidx]
  have hpushed : s'.channel.pushed = s.channel.pushed ++ if ok then [s.activeBuf] else [] := by
    rw [← hr.map_fst_handed, hhanded, List.map_append, h.recorded.map_fst_handed]
    cases ok with
    | true => rfl
    | false => rfl
  have hwritten : s'.written = s.written := by rw [written, written, hwriter, hpopped]
  have hle : s.written ≤ (s.handed (2^k) buffers).length := by
    have hle := h.recorded.written_le
    rw [← h.recorded.map_fst_handed, List.length_map] at hle
    exact hle
  refine ⟨hr, ?_, ?_, ?_⟩
  · have hw := h.writer
    rw [WriterOk] at hw ⊢
    rw [hwriter, hpopped, hpushed]
    cases hpc : s.writer with
    | pop => trivial
    | write bufIdx i =>
      rw [hpc] at hw
      obtain ⟨hi, hpos, hget⟩ := hw
      refine ⟨hi, hpos, ?_⟩
      rw [List.getElem?_append_left (List.getElem?_eq_some_iff.mp hget).1]
      exact hget
  · intro p hp
    rw [hhanded, hwritten, List.drop_append_of_le_length hle] at hp
    rw [hbuf]
    obtain hp | hp := List.mem_append.mp hp
    · exact h.standing p hp
    · split_ifs at hp
      · rw [List.mem_singleton.mp hp]
      · cases hp
  · rw [hfile, hhanded, hwritten, List.take_append_of_le_length hle, h.file, inProgress, inProgress,
      hwriter, hbuf]

theorem Filed.record (h : Filed k buffers s)
    (hq : s.recorder = .measure → s.activeBuf ∉ s.outstanding) :
    Filed k buffers (s.record (2^k) readings) := by
  have hrec : Recorded k buffers (s.record (2^k) readings) := h.recorded.record
  have hr := h.recorded.recorder
  cases hpc : s.recorder with
  | measure => exact h.measure hpc (hq hpc)
  | push =>
    obtain ⟨hpushes, -⟩ := s.channel.beginPush_calls 2 s.activeBuf
    obtain ⟨hpops, -⟩ := s.channel.beginPush_consumer 2 s.activeBuf
    rw [Telemetry.record, hpc] at hrec ⊢
    apply h.frame hrec rfl rfl
    · rw [Channel.pushed, hpushes, Channel.pushed]
    · rw [Channel.popped, hpops, Channel.popped]
    · rw [handed, hpushes, handed]
    · exact fun _ _ => rfl
  | inPush =>
    rw [RecorderOk, hpc] at hr
    obtain ⟨hlen, hcur, hcurrent⟩ := hr
    obtain ⟨hpops, -⟩ := s.channel.continuePush_consumer
    have hpopped : s.channel.continuePush.popped = s.channel.popped := by
      rw [Channel.popped, hpops, Channel.popped]
    obtain ⟨ok, hpushes, -, hs⟩ | ⟨hpushes, -, hs⟩ := inPush_cases k readings hcurrent hpc
    · rw [hs] at hrec ⊢
      exact h.returned hrec hlen hcur hpushes hpopped rfl rfl rfl rfl
    · rw [hs] at hrec ⊢
      apply h.frame hrec rfl rfl
      · rw [Channel.pushed, hpushes, Channel.pushed]
      · exact hpopped
      · rw [handed, hpushes, handed]
      · exact fun _ _ => rfl

/-- The buffer taken from the queue stays outstanding. -/
theorem Filed.taken (h : Filed k buffers s) {c : Channel Nat} {bufIdx : Nat} (hpc : s.writer = .pop)
    (hpushes : c.pushes = s.channel.pushes) (hpop : c.popped = s.channel.popped ++ [bufIdx])
    (hr : Recorded k buffers { s with channel := c, writer := .write bufIdx 0 }) :
    Filed k buffers { s with channel := c, writer := .write bufIdx 0 } := by
  have hhanded : handed (2^k) buffers { s with channel := c, writer := .write bufIdx 0 } =
      s.handed (2^k) buffers := by rw [handed, handed, hpushes]
  have hwritten : written { s with channel := c, writer := .write bufIdx 0 } = s.written := by
    rw [written, written, hpc]
    dsimp only
    rw [hpop, List.length_append, List.length_singleton, Nat.add_sub_cancel]
  have hget : c.pushed[s.channel.popped.length]? = some bufIdx := by
    obtain ⟨rest, hrest⟩ : c.popped <+: c.pushed := hr.fifo.ordered
    rw [← hrest, hpop]
    simp
  refine ⟨hr, ?_, ?_, ?_⟩
  · rw [WriterOk]
    dsimp only
    rw [hpop, List.length_append, List.length_singleton]
    exact ⟨Nat.zero_le _, Nat.le_add_left .., hget⟩
  · rw [hhanded, hwritten]
    exact h.standing
  · have hfile := h.file
    rw [inProgress, hpc] at hfile
    rw [hhanded, hwritten, inProgress]
    exact hfile

theorem Filed.wrote (h : Filed k buffers s) {bufIdx i : Nat} (hpc : s.writer = .write bufIdx i)
    (hi : i < 2^k)
    (hr : Recorded k buffers { s with file := s.file ++ [s.buffers bufIdx i]
                                      writer := .write bufIdx (i+1) }) :
    Filed k buffers { s with file := s.file ++ [s.buffers bufIdx i]
                             writer := .write bufIdx (i+1) } := by
  have hw := h.writer
  have hfile := h.file
  have hstanding := h.standing
  rw [WriterOk, hpc] at hw
  rw [inProgress, written, hpc] at hfile
  rw [written, hpc] at hstanding
  refine ⟨hr, ⟨hi, hw.2⟩, hstanding, ?_⟩
  have hentry : ((s.buffers bufIdx).entries (2^k))[i]? = some (s.buffers bufIdx i) := by
    rw [TelemetryBuffer.entries, List.getElem?_map, List.getElem?_range hi]
    rfl
  rw [written, inProgress]
  dsimp only
  rw [hfile, List.append_assoc, List.take_add_one, hentry]
  rfl

/-- The buffer being written still stands as it was handed over. -/
theorem Filed.held (h : Filed k buffers s) {bufIdx i : Nat} (hpc : s.writer = .write bufIdx i) :
    (s.handed (2^k) buffers)[s.written]? = some (bufIdx, s.buffers bufIdx) := by
  have hw := h.writer
  rw [WriterOk, hpc] at hw
  obtain ⟨-, -, hget⟩ := hw
  have hwritten : s.written = s.channel.popped.length - 1 := by rw [written, hpc]
  rw [← hwritten, ← h.recorded.map_fst_handed, List.getElem?_map, Option.map_eq_some_iff] at hget
  obtain ⟨p, hp, rfl⟩ := hget
  have hmem : p ∈ (s.handed (2^k) buffers).drop s.written := by
    apply List.mem_of_getElem? (i := 0)
    rw [List.getElem?_drop]
    exact hp
  rw [hp, h.standing p hmem]

theorem Filed.closed (h : Filed k buffers s) {bufIdx i : Nat} (hpc : s.writer = .write bufIdx i)
    (hi : 2^k ≤ i) (hr : Recorded k buffers { s with writer := .pop }) :
    Filed k buffers { s with writer := .pop } := by
  have hw := h.writer
  have hfile := h.file
  rw [WriterOk, hpc] at hw
  rw [inProgress, hpc] at hfile
  dsimp only at hfile
  have hsucc : written { s with writer := .pop } = s.written + 1 := by
    rw [written, written, hpc]
    dsimp only
    omega
  have hhanded : handed (2^k) buffers { s with writer := .pop } = s.handed (2^k) buffers := rfl
  refine ⟨hr, trivial, ?_, ?_⟩
  · intro q hq
    rw [hsucc, hhanded, ← List.drop_drop] at hq
    exact h.standing q (List.mem_of_mem_drop hq)
  · have hall : ((s.buffers bufIdx).entries (2^k)).take i = (s.buffers bufIdx).entries (2^k) := by
      apply List.take_of_length_le
      rw [TelemetryBuffer.entries, List.length_map, List.length_range]
      exact hi
    rw [hsucc, hhanded, List.take_add_one, h.held hpc, inProgress]
    dsimp only
    rw [hfile, hall, List.flatMap_append, List.append_nil]
    simp

theorem Filed.logTelemetry (h : Filed k buffers s) : Filed k buffers (s.logTelemetry (2^k)) := by
  have hrec := h.recorded.logTelemetry
  obtain ⟨c, -, hpush, hpc, hpop, hs⟩ | ⟨c, v, -, hpush, hpc, hpop, hs⟩ | ⟨b, i, hpc, hi, hs⟩ |
    ⟨b, i, hpc, hi, hs⟩ := logTelemetry_cases h.recorded
  · rw [hs] at hrec ⊢
    apply h.frame hrec hpc.symm rfl
    · rw [Channel.pushed, hpush.1, Channel.pushed]
    · exact hpop
    · rw [handed, handed, hpush.1]
    · exact fun _ _ => rfl
  · rw [hs] at hrec ⊢
    exact h.taken hpc hpush.1 hpop hrec
  · rw [hs] at hrec ⊢
    exact h.wrote hpc hi hrec
  · rw [hs] at hrec ⊢
    exact h.closed hpc hi hrec

theorem Filed.step (h : Filed k buffers s) {t : TelemetryThread} (hq : s.Undisturbed t) :
    Filed k buffers (s.step (2^k) readings t) := by
  cases t with
  | recorder => exact h.record (hq rfl)
  | writer => exact h.logTelemetry

theorem Filed.start (k : Nat) (buffers : Nat → TelemetryBuffer) (data : Nat → Nat) :
    Filed k buffers (.start buffers data) where
  recorded := Recorded.start k buffers data
  writer := trivial
  standing := fun _ hp => absurd hp List.not_mem_nil
  file := rfl

/-- The file consists of buffers handed over, each as it stood at the end of its period. -/
structure WholeBuffers (size : Nat) (buffers : Nat → TelemetryBuffer) (s : Telemetry) : Prop where
  initial : s.file <+: (s.handed size buffers).flatMap fun p => p.2.entries size
  complete : s.outstanding = [] →
    s.file = (s.handed size buffers).flatMap fun p => p.2.entries size

theorem Filed.wholeBuffers (h : Filed k buffers s) : WholeBuffers (2^k) buffers s where
  initial := by
    have htake : ∀ n, ((s.handed (2^k) buffers).take n).flatMap (fun p => p.2.entries (2^k)) <+:
        (s.handed (2^k) buffers).flatMap fun p => p.2.entries (2^k) := by
      intro n
      nth_rewrite 2 [← List.take_append_drop n (s.handed (2^k) buffers)]
      rw [List.flatMap_append]
      exact List.prefix_append ..
    rw [h.file, inProgress]
    cases hw : s.writer with
    | pop =>
      rw [List.append_nil]
      exact htake _
    | write bufIdx i =>
      apply List.IsPrefix.trans _ (htake (s.written + 1))
      rw [List.take_add_one, h.held hw, List.flatMap_append, List.prefix_append_right_inj]
      simpa using List.take_prefix ..
  complete := by
    intro hnone
    have hlen := congrArg List.length h.recorded.map_fst_handed
    rw [outstanding, List.drop_eq_nil_iff] at hnone
    rw [List.length_map] at hlen
    rw [h.file, List.take_of_length_le (by omega), inProgress]
    cases hw : s.writer with
    | pop => exact List.append_nil _
    | write bufIdx i =>
      have hlt := (List.getElem?_eq_some_iff.mp (h.held hw)).1
      omega

/-- If no measurement goes into a buffer that is queued or being written, the file is made of
whole buffers, as they were handed over. -/
theorem run_wholeBuffers (k : Nat) (readings : Nat → Readings) (buffers : Nat → TelemetryBuffer)
    (data : Nat → Nat) (schedule : List TelemetryThread)
    (hq : StepRun.Along (step (2^k) readings) Undisturbed (start buffers data) schedule) :
    (run (2^k) readings buffers data schedule).WholeBuffers (2^k) buffers := by
  have h : Filed k buffers (schedule.foldl (step (2^k) readings) (start buffers data)) :=
    hq.invariant (Filed.start k buffers data) fun _ _ h hq => h.step hq
  exact h.wholeBuffers

/-- Every order takes `1000 (n+1)` cycles of the time stamp counter but the `slow` ones, which take
`6000 (n+1)`. -/
def slowAt (slow : List Nat) (n : Nat) : Readings :=
  ⟨0, 0, 7, 7 + BitVec.ofNat 64 ((if n ∈ slow then 6000 else 1000) * (n+1)), 0, 0⟩

/-- The second slow order comes while the buffer of the first is written, and the next order only
after that. -/
theorem twoSlow_wholeBuffers :
    let s := run (2^1) (slowAt [0, 1]) (fun _ _ => ⟨0, 0, 0⟩) (fun _ => 0)
      (List.replicate 4 .recorder ++ List.replicate 5 .writer ++ List.replicate 5 .recorder ++
        List.replicate 2 .writer ++ [.recorder])
    s.WholeBuffers (2^1) (fun _ _ => ⟨0, 0, 0⟩) ∧ s.file = [⟨6000, 0, 0⟩, ⟨0, 0, 0⟩] := by
  refine ⟨run_wholeBuffers 1 (slowAt [0, 1]) (fun _ _ => ⟨0, 0, 0⟩) (fun _ => 0) _ ?_, ?_⟩
  · decide
  · decide

-- with the order after the second slow one recorded too early, the file shows it in place of the
-- first slow one
example :
    (run (2^1) (slowAt [0, 1]) (fun _ _ => ⟨0, 0, 0⟩) (fun _ => 0)
      (List.replicate 8 .recorder ++ List.replicate 6 .writer)).file =
        [⟨3000, 0, 0⟩, ⟨0, 0, 0⟩] := by decide

structure Calmly (s : Telemetry) : Prop where
  sent : ∀ p ∈ s.channel.pushes, p.2 = true
  pushing : s.recorder ≠ .measure → s.outstanding = []
  apart : s.recorder = .measure → s.activeBuf ∉ s.outstanding

theorem outstanding_logTelemetry (h : Recorded k buffers s) :
    (s.logTelemetry (2^k)).outstanding <:+ s.outstanding := by
  obtain ⟨c, -, hpush, hpc, hpop, hs⟩ | ⟨c, v, -, hpush, hpc, hpop, hs⟩ | ⟨b, i, hpc, -, hs⟩ |
    ⟨b, i, hpc, -, hs⟩ := logTelemetry_cases h
  · have hsame : (s.logTelemetry (2^k)).outstanding = s.outstanding := by
      simp only [hs, outstanding, written, hpc, Channel.pushed, hpush.1, hpop]
    exact ⟨[], hsame⟩
  · have hsame : (s.logTelemetry (2^k)).outstanding = s.outstanding := by
      simp only [hs, outstanding, written, hpc, Channel.pushed, hpush.1, hpop, List.length_append,
        List.length_singleton, Nat.add_sub_cancel]
    exact ⟨[], hsame⟩
  · have hsame : (s.logTelemetry (2^k)).outstanding = s.outstanding := by
      simp only [hs, outstanding, written, hpc]
    exact ⟨[], hsame⟩
  · rw [hs, outstanding, outstanding, written, written, hpc]
    exact List.drop_suffix_drop_left _ (Nat.sub_le ..)

theorem Calmly.logTelemetry (h : Calmly s) (hr : Recorded k buffers s) :
    Calmly (s.logTelemetry (2^k)) := by
  have hout := outstanding_logTelemetry hr
  have hsame : (s.logTelemetry (2^k)).recorder = s.recorder ∧
      (s.logTelemetry (2^k)).activeBuf = s.activeBuf ∧
      (s.logTelemetry (2^k)).channel.pushes = s.channel.pushes := by
    obtain ⟨c, -, hpush, -, -, hs⟩ | ⟨c, v, -, hpush, -, -, hs⟩ | ⟨b, i, -, -, hs⟩ |
      ⟨b, i, -, -, hs⟩ := logTelemetry_cases hr
    · rw [hs]
      exact ⟨rfl, rfl, hpush.1⟩
    · rw [hs]
      exact ⟨rfl, rfl, hpush.1⟩
    · rw [hs]
      exact ⟨rfl, rfl, rfl⟩
    · rw [hs]
      exact ⟨rfl, rfl, rfl⟩
  obtain ⟨hpc, hactive, hpushes⟩ := hsame
  refine ⟨?_, ?_, ?_⟩
  · rw [hpushes]
    exact h.sent
  · intro hne
    rw [hpc] at hne
    exact List.suffix_nil.mp (h.pushing hne ▸ hout)
  · intro hmeasure hmem
    rw [hpc] at hmeasure
    rw [hactive] at hmem
    exact h.apart hmeasure (hout.subset hmem)

/-- With nothing outstanding the queue is empty, so that the push is accepted. -/
theorem Calmly.returned (h : Calmly s) (hr : Recorded k buffers s) (hpc : s.recorder = .inPush)
    {ok : Bool}
    (hpushes : s.channel.continuePush.pushes = s.channel.pushes ++ [(s.activeBuf, ok)]) :
    Calmly { s with channel := s.channel.continuePush
                    activeBuf := 1 - s.activeBuf
                    telIdx := 0
                    recorder := .measure } := by
  have hnone := h.pushing (by rw [hpc]; exact RecorderPc.noConfusion)
  have hle := hr.written_le
  have hpopped := hr.fifo.le
  obtain ⟨hpops, -⟩ := s.channel.continuePush_consumer
  rw [outstanding, List.drop_eq_nil_iff] at hnone
  have hwle : s.written ≤ s.channel.popped.length := by
    rw [written]
    split
    · exact Nat.le_refl _
    · exact Nat.sub_le ..
  have hok : ok = true := by
    by_contra hne
    rw [Bool.not_eq_true] at hne
    rw [hne] at hpushes
    have hfull := hr.fifo.push_false hpushes
    omega
  subst hok
  refine ⟨?_, fun hne => absurd rfl hne, ?_⟩
  · intro p hp
    rw [hpushes] at hp
    obtain hp | hp := List.mem_append.mp hp
    · exact h.sent p hp
    · rw [List.mem_singleton.mp hp]
  · have hactive := hr.active
    have hpushed : s.channel.continuePush.pushed = s.channel.pushed ++ [s.activeBuf] := by
      rw [Channel.pushed, hpushes, Channel.pushed_append_true]
    have hwritten : written { s with channel := s.channel.continuePush
                                     activeBuf := 1 - s.activeBuf
                                     telIdx := 0
                                     recorder := .measure } = s.written := by
      rw [written, written]
      dsimp only
      rw [Channel.popped, hpops, Channel.popped]
    intro _ hmem
    rw [outstanding, hwritten] at hmem
    dsimp only at hmem
    rw [hpushed, List.drop_append_of_le_length hle, List.drop_of_length_le hnone, List.nil_append,
      List.mem_singleton] at hmem
    omega

theorem Calmly.record (h : Calmly s) (hr : Recorded k buffers s)
    (hc : s.recorder = .measure → (s.next readings).slow = true → s.outstanding = []) :
    Calmly (s.record (2^k) readings) := by
  cases hpc : s.recorder with
  | measure =>
    have hapart := h.apart hpc
    rw [Telemetry.record, hpc]
    refine ⟨h.sent, ?_, fun _ => hapart⟩
    dsimp only
    intro hne
    apply hc hpc
    by_contra hfast
    rw [if_neg hfast] at hne
    exact hne rfl
  | push =>
    obtain ⟨hpushes, -⟩ := s.channel.beginPush_calls 2 s.activeBuf
    obtain ⟨hpops, -⟩ := s.channel.beginPush_consumer 2 s.activeBuf
    have hnone := h.pushing (by rw [hpc]; exact RecorderPc.noConfusion)
    rw [Telemetry.record, hpc]
    refine ⟨?_, ?_, RecorderPc.noConfusion⟩
    · dsimp only
      rw [hpushes]
      exact h.sent
    · intro _
      rw [outstanding, written] at hnone ⊢
      dsimp only
      rw [Channel.pushed, hpushes, Channel.popped, hpops]
      exact hnone
  | inPush =>
    have hrec := hr.recorder
    rw [RecorderOk, hpc] at hrec
    obtain ⟨hpops, -⟩ := s.channel.continuePush_consumer
    obtain ⟨ok, hpushes, -, hs⟩ | ⟨hpushes, -, hs⟩ := inPush_cases k readings hrec.2.2 hpc
    · rw [hs]
      exact h.returned hr hpc hpushes
    · have hnone := h.pushing (by rw [hpc]; exact RecorderPc.noConfusion)
      rw [hs]
      refine ⟨?_, ?_, ?_⟩
      · dsimp only
        rw [hpushes]
        exact h.sent
      · intro _
        rw [outstanding, written] at hnone ⊢
        dsimp only
        rw [Channel.pushed, hpushes, Channel.popped, hpops]
        exact hnone
      · intro hmeasure
        rw [hpc] at hmeasure
        cases hmeasure

theorem handOvers_all {snaps : List TelemetryBuffer} {pushes : List (Nat × Bool)}
    (h : ∀ p ∈ pushes, p.2 = true) :
    handOvers snaps pushes = (pushes.zip snaps).map fun p => (p.1.1, p.2) := by
  rw [handOvers, List.filter_eq_self.mpr]
  intro p hp
  exact h p.1 (List.of_mem_zip hp).1

/-- The entry of one block in a sequence of blocks of equal length. -/
theorem getElem?_flatMap_of_length {α β : Type*} {f : α → List β} {size : Nat} {l : List α}
    (h : ∀ a ∈ l, (f a).length = size) {n r : Nat} {a : α} (ha : l[n]? = some a) (hr : r < size) :
    (l.flatMap f)[n*size + r]? = (f a)[r]? := by
  induction l generalizing n with
  | nil => simp at ha
  | cons b l ih =>
    have hb := h b List.mem_cons_self
    rw [List.flatMap_cons]
    cases n with
    | zero =>
      rw [List.getElem?_cons_zero, Option.some.injEq] at ha
      rw [Nat.zero_mul, Nat.zero_add, List.getElem?_append_left (by omega), ha]
    | succ n =>
      rw [List.getElem?_cons_succ] at ha
      rw [Nat.succ_mul, List.getElem?_append_right (by omega), hb]
      have hidx : n*size + size + r - size = n*size + r := by omega
      rw [hidx]
      exact ih (fun a ha => h a (List.mem_cons_of_mem b ha)) ha

theorem getElem?_snapshots (size : Nat) (buffers : Nat → TelemetryBuffer) {n : Nat}
    {ps : List (List Measurement)} {period : List Measurement} (h : ps[n]? = some period) :
    ∃ before,
      (snapshots size buffers ps)[n]? = some (recordPeriod size before period) := by
  have hlt := (List.getElem?_eq_some_iff.mp h).1
  refine ⟨afterPeriods size buffers (ps.take n) (n % 2), ?_⟩
  rw [snapshots, List.getElem?_map, List.getElem?_range hlt, Option.map_some, List.take_add_one, h]
  have hlen : (ps.take n).length = n := List.length_take_of_le hlt.le
  have hconcat := afterPeriods_concat size buffers (ps.take n) period
  rw [hlen] at hconcat
  rw [Option.toList_some, hconcat, Function.update_self]

/-- Every slow order has its own block of the file, which shows the order and the orders before it,
back to the slow order before or as far as the buffer goes. -/
structure ShowsSlowOrders (size : Nat) (s : Telemetry) : Prop where
  sent : ∀ p ∈ s.channel.pushes, p.2 = true
  shown : ∀ n < s.written, ∀ period, (periods s.measured).1[n]? = some period →
    ∀ j < period.length, period.length ≤ j + size →
      s.file[n*size + j % size]? = period[j]?
  all : s.recorder = .measure → s.outstanding = [] →
    s.written = (periods s.measured).1.length

theorem Calmly.pushed_length (h : Calmly s) :
    s.channel.pushed.length = s.channel.pushes.length := by
  rw [Channel.pushed, List.length_map, List.filter_eq_self.mpr h.sent]

theorem Filed.shown (h : Filed k buffers s) (hc : Calmly s) {n j : Nat} {period : List Measurement}
    (hn : n < s.written) (hp : (periods s.measured).1[n]? = some period) (hj : j < period.length)
    (hsize : period.length ≤ j + 2^k) : s.file[n*2^k + j % 2^k]? = period[j]? := by
  obtain ⟨before, hsnap⟩ := getElem?_snapshots (2^k) buffers hp
  have hlt : n < s.channel.pushes.length := by
    have hle := h.recorded.written_le
    rw [hc.pushed_length] at hle
    omega
  have hhanded : ((s.handed (2^k) buffers).take s.written)[n]? =
      some ((s.channel.pushes.get ⟨n, hlt⟩).1, recordPeriod (2^k) before period) := by
    have hzip : (s.channel.pushes.zip (snapshots (2^k) buffers (periods s.measured).1))[n]? =
        some (s.channel.pushes.get ⟨n, hlt⟩, recordPeriod (2^k) before period) :=
      List.getElem?_zip_eq_some.mpr ⟨List.getElem?_eq_getElem hlt, hsnap⟩
    rw [List.getElem?_take_of_lt hn, handed, handOvers_all hc.sent, List.getElem?_map, hzip]
    rfl
  have hmod : j % 2^k < 2^k := Nat.mod_lt _ (Nat.two_pow_pos k)
  have hblock := getElem?_flatMap_of_length (f := fun p => TelemetryBuffer.entries (2^k) p.2)
    (fun p _ => by simp [TelemetryBuffer.entries]) hhanded hmod
  rw [TelemetryBuffer.entries, List.getElem?_map, List.getElem?_range hmod, Option.map_some,
    recordPeriod_apply before hj hsize] at hblock
  have hsome : period[j]? = some (period.get ⟨j, hj⟩) := List.getElem?_eq_getElem hj
  rw [hsome] at hblock ⊢
  rw [h.file, List.getElem?_append_left (List.getElem?_eq_some_iff.mp hblock).1]
  exact hblock

/-- If every slow order leaves the writer the time to finish, the file shows every slow order. -/
theorem run_showsSlowOrders (k : Nat) (readings : Nat → Readings)
    (buffers : Nat → TelemetryBuffer) (data : Nat → Nat) (schedule : List TelemetryThread)
    (hcalm : StepRun.Along (step (2^k) readings) (Calm readings) (start buffers data) schedule) :
    (run (2^k) readings buffers data schedule).ShowsSlowOrders (2^k) := by
  have h : Filed k buffers (run (2^k) readings buffers data schedule) ∧
      Calmly (run (2^k) readings buffers data schedule) := by
    refine hcalm.invariant (I := fun s => Filed k buffers s ∧ Calmly s) ?_ ?_
    · exact ⟨Filed.start k buffers data, fun _ hp => absurd hp List.not_mem_nil,
        fun hne => absurd rfl hne, fun _ => List.not_mem_nil⟩
    · intro s t ⟨hf, hc⟩ ht
      cases t with
      | recorder =>
        exact ⟨hf.step fun _ => hc.apart, hc.record hf.recorded (ht rfl)⟩
      | writer => exact ⟨hf.logTelemetry, hc.logTelemetry hf.recorded⟩
  obtain ⟨hf, hc⟩ := h
  refine ⟨hc.sent, fun n hn period hp j hj hsize => hf.shown hc hn hp hj hsize, ?_⟩
  intro hpc hnone
  have hr := hf.recorded.recorder
  have hle := hf.recorded.written_le
  rw [RecorderOk, hpc] at hr
  rw [outstanding, List.drop_eq_nil_iff, hc.pushed_length] at hnone
  rw [hc.pushed_length] at hle
  omega

theorem secondSlow_shown :
    let s := run (2^1) (slowAt [1, 2]) (fun _ _ => ⟨0, 0, 0⟩) (fun _ => 0)
      (List.replicate 5 .recorder ++ List.replicate 7 .writer ++ List.replicate 5 .recorder ++
        List.replicate 6 .writer)
    s.ShowsSlowOrders (2^1) ∧
      s.file = [⟨1000, 0, 0⟩, ⟨12000, 0, 0⟩, ⟨18000, 0, 0⟩, ⟨0, 0, 0⟩] := by
  refine ⟨run_showsSlowOrders 1 (slowAt [1, 2]) (fun _ _ => ⟨0, 0, 0⟩) (fun _ => 0) _ ?_, ?_⟩
  · decide
  · decide

end Telemetry
end MarketDataBook
