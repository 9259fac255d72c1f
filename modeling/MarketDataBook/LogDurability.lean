import MarketDataBook.CrashPoints

/-! Power failure. The kernel writes the pages of the mapped log to disk when it likes, so that
every page on disk is as the memory was at some moment of its own, in the middle of a
`log_payload` perhaps; `flush_to_disk` with `MS_SYNC` makes the pages up to `curr_` no older than
the call. Frames do not straddle pages and the scan stops at the first frame that is not valid, so
what recovery replays is an initial part of the calls all the same. -/
namespace MarketDataBook
open ByteMemory

def pageBytes : Nat := 4096

/-- The log in memory when `moment.1` calls are done and `moment.2` bytes of the next are stored. -/
def memoryAt (calls : List LogCall) (moment : Nat × Nat) : Memory :=
  let l := (calls.take moment.1).foldl logPayload .new
  match calls[moment.1]? with
  | none => l.logger.mem
  | some c => crashImage l c moment.2

/-- The disk, page by page as of the moment it was last written. -/
def diskImage (calls : List LogCall) (writtenAt : Nat → Nat × Nat) : Memory :=
  fun a => memoryAt calls (writtenAt (a / pageBytes)) a

/-- `flush_to_disk(MS_SYNC)` was called with `flushed` frames in the log. -/
def FlushedAt (flushed : Nat) (writtenAt : Nat → Nat × Nat) : Prop :=
  ∀ page, pageBytes * page < frameSize * flushed → flushed ≤ (writtenAt page).1

/-- No call is one whose frame passes before its payload is copied. -/
def NonePassesEarly (calls : List LogCall) : Prop :=
  ∀ j c, calls[j]? = some c → ∀ n < 16 + c.payload.length,
    ¬ EndsInOwnCrc (((frameBytes (BitVec.ofNat 32 j) c).take n).take 64)

section Pages
variable {calls : List LogCall} {writtenAt : Nat → Nat × Nat} {k i : Nat}

/-- The page of a frame. -/
theorem frame_page (hi : i < 64) : (frameSize * k + i) / pageBytes = k / 64 := by
  simp only [frameSize, pageBytes]
  omega

theorem frameAt_diskImage (hi : i < 64) :
    frameAt (diskImage calls writtenAt) k i =
      frameAt (memoryAt calls (writtenAt (k / 64))) k i := by
  rw [frameAt, diskImage, frame_page hi, frameAt]

theorem validFrame_diskImage :
    ValidFrame (diskImage calls writtenAt) k ↔
      ValidFrame (memoryAt calls (writtenAt (k / 64))) k :=
  ⟨fun h => h.congr fun _ hi => (frameAt_diskImage hi).symm,
    fun h => h.congr fun _ hi => frameAt_diskImage hi⟩

end Pages

section Moments
variable {calls : List LogCall} {moment : Nat × Nat} {k : Nat}

theorem memoryAt_none (h : calls[moment.1]? = none) :
    memoryAt calls moment = ((calls.take moment.1).foldl logPayload .new).logger.mem := by
  rw [memoryAt, h]

theorem memoryAt_some {c : LogCall} (h : calls[moment.1]? = some c) : memoryAt calls moment =
    crashImage ((calls.take moment.1).foldl logPayload .new) c moment.2 := by
  rw [memoryAt, h]

theorem written_take (hroom : calls.length ≤ 2^24) (j : Nat) :
    Written ((calls.take j).foldl logPayload .new) (calls.take j) :=
  written_logAll_of_le (by rw [List.length_take]; omega)

theorem untouched_take (ht : ∀ c ∈ calls, c.WellTagged) (hroom : calls.length ≤ 2^24) (j : Nat) :
    ∀ a, frameSize * (calls.take j).length + 2 ≤ a →
      ((calls.take j).foldl logPayload .new).logger.mem a = 0#8 := by
  rw [← (written_take hroom j).curr]
  exact logAll_untouched fun c hc => (ht c (List.mem_of_mem_take hc)).1

theorem logAll_take_drop (calls : List LogCall) (j : Nat) :
    calls.foldl logPayload .new =
      (calls.drop j).foldl logPayload ((calls.take j).foldl logPayload .new) := by
  rw [← List.foldl_append, List.take_append_drop]

/-- The frames of the first `j` calls are not written to any more. -/
theorem logAll_before (hroom : calls.length ≤ 2^24) (j : Nat) {a : Nat}
    (ha : a < frameSize * (calls.take j).length) :
    ((calls.take j).foldl logPayload .new).logger.mem a =
      (calls.foldl logPayload .new).logger.mem a := by
  have hlen : (calls.take j).length + (calls.drop j).length = calls.length := by
    rw [← List.length_append, List.take_append_drop]
  have hw := written_take hroom j
  have happ : Appended ((calls.take j).foldl logPayload .new) (calls.foldl logPayload .new)
      (calls.drop j) := by
    rw [logAll_take_drop calls j]
    apply appended_logAll
    rw [hw.curr, frameSize, fileSize]
    omega
  rw [← hw.curr] at ha
  exact (happ.before a ha).symm

/-- A call that is done has left its frame. -/
theorem memoryAt_done (hroom : calls.length ≤ 2^24) (hk : k < moment.1) (hlt : k < calls.length) :
    ∀ i < 64, frameAt (memoryAt calls moment) k i =
      frameAt (calls.foldl logPayload .new).logger.mem k i := by
  intro i hi
  have hbelow : frameSize * k + i < frameSize * (calls.take moment.1).length := by
    rw [frameSize, List.length_take]
    omega
  rw [frameAt, frameAt, ← logAll_before hroom moment.1 hbelow]
  cases hc : calls[moment.1]? with
  | none => rw [memoryAt_none hc]
  | some c =>
    rw [memoryAt_some hc]
    apply crashImage_below
    rw [(written_take hroom moment.1).curr]
    exact hbelow

/-- Behind the call under way there is no frame. -/
theorem memoryAt_ahead (ht : ∀ c ∈ calls, c.WellTagged) (hroom : calls.length ≤ 2^24)
    (hk : moment.1 < k ∨ calls.length ≤ k) :
    ¬ ValidFrame (memoryAt calls moment) k := by
  have hzero := untouched_take ht hroom moment.1
  have hcurr := (written_take hroom moment.1).curr
  have hlen := List.length_take (i := moment.1) (l := calls)
  apply not_validFrame
  intro a ha
  rw [frameSize] at ha hzero hcurr
  cases hc : calls[moment.1]? with
  | none =>
    rw [memoryAt_none hc]
    exact hzero a (by omega)
  | some c =>
    have hlt := (List.getElem?_eq_some_iff.mp hc).1
    have h50 := (ht c (List.mem_of_getElem? hc)).1
    rw [memoryAt_some hc, crashImage_above (by omega) (by omega)]
    exact hzero a (by omega)

/-- The call under way has a valid frame only once that is the frame it leaves. -/
theorem memoryAt_under_way (ht : ∀ c ∈ calls, c.WellTagged) (hroom : calls.length ≤ 2^24)
    (hearly : NonePassesEarly calls) (hlt : moment.1 < calls.length)
    (hv : ValidFrame (memoryAt calls moment) moment.1) :
    ∀ i < 64, frameAt (memoryAt calls moment) moment.1 i =
      frameAt (calls.foldl logPayload .new).logger.mem moment.1 i := by
  have hc := List.getElem?_eq_getElem hlt
  generalize calls[moment.1] = c at hc
  have hw := written_take hroom moment.1
  have hlen : (calls.take moment.1).length = moment.1 := by
    rw [List.length_take, Nat.min_eq_left hlt.le]
  have hcurr := hw.curr
  rw [hlen] at hcurr
  rw [memoryAt_some hc] at hv ⊢
  have hge : 16 + c.payload.length ≤ moment.2 := by
    by_contra hn
    have hzero := untouched_take ht hroom moment.1
    rw [← hw.curr] at hzero
    have hiff := hw.crash_validFrame_iff hzero (Nat.le_of_lt (Nat.lt_of_not_le hn))
    rw [hlen, hw.setWidth_seqNum, hlen] at hiff
    exact hearly _ c hc _ (Nat.lt_of_not_le hn) (hiff.mp hv)
  have hsame : ∀ i < 64, frameAt (crashImage ((calls.take moment.1).foldl logPayload .new) c
      moment.2) moment.1 i = populate ((calls.take moment.1).foldl logPayload .new).logger.mem
        ((calls.take moment.1).foldl logPayload .new).logger.curr
        (((calls.take moment.1).foldl logPayload .new).currSeqNum.setWidth 32) c
        (((calls.take moment.1).foldl logPayload .new).logger.curr + i) := by
    apply validChecksum_ext populate_checksum hv.2
    intro i hi
    rw [frameAt, ← hcurr]
    exact crashImage_field hge (by omega)
  have hnext : (calls.take (moment.1 + 1)).foldl logPayload .new =
      logPayload ((calls.take moment.1).foldl logPayload .new) c := by
    rw [List.take_add_one, hc, List.foldl_append]
    rfl
  intro i hi
  have hbelow : frameSize * moment.1 + i < frameSize * (calls.take (moment.1 + 1)).length := by
    rw [frameSize, List.length_take]
    omega
  have hfit : ((calls.take moment.1).foldl logPayload .new).logger.curr + frameSize ≤ fileSize := by
    rw [hcurr, frameSize, fileSize]
    omega
  rw [hsame i hi, frameAt, ← logAll_before hroom (moment.1 + 1) hbelow, hnext,
    logPayload_of_room hfit, hcurr]

end Moments

section Disk
variable {calls : List LogCall} {writtenAt : Nat → Nat × Nat} {k flushed : Nat}

/-- A valid frame on disk is the frame of its call. -/
theorem diskImage_frame (ht : ∀ c ∈ calls, c.WellTagged) (hroom : calls.length ≤ 2^24)
    (hearly : NonePassesEarly calls) (hv : ValidFrame (diskImage calls writtenAt) k) :
    k < calls.length ∧ ∀ i < 64, frameAt (diskImage calls writtenAt) k i =
      frameAt (calls.foldl logPayload .new).logger.mem k i := by
  have hv' := validFrame_diskImage.mp hv
  have hlt : k < calls.length := by
    by_contra hge
    exact memoryAt_ahead ht hroom (Or.inr (Nat.le_of_not_lt hge)) hv'
  refine ⟨hlt, ?_⟩
  intro i hi
  rw [frameAt_diskImage hi]
  generalize writtenAt (k / 64) = moment at hv' ⊢
  obtain hk | rfl | hk := Nat.lt_trichotomy moment.1 k
  · exact absurd hv' (memoryAt_ahead ht hroom (Or.inl hk))
  · exact memoryAt_under_way ht hroom hearly hlt hv' i hi
  · exact memoryAt_done hroom hk hlt i hi

theorem diskImage_flushed (hroom : calls.length ≤ 2^24) (hf : flushed ≤ calls.length)
    (hflush : FlushedAt flushed writtenAt) (hk : k < flushed) :
    ValidFrame (diskImage calls writtenAt) k := by
  have hpage : flushed ≤ (writtenAt (k / 64)).1 := by
    apply hflush
    simp only [pageBytes, frameSize]
    omega
  have hvalid := (written_logAll_of_le hroom).validFrame (Nat.lt_of_lt_of_le hk hf)
  apply validFrame_diskImage.mpr
  exact hvalid.congr (memoryAt_done hroom (by omega) (by omega))

end Disk

theorem Written.frameOrders_take {l : PayloadLog} {calls : List LogCall} (h : Written l calls)
    (ht : ∀ c ∈ calls, c.WellTagged) {m : Nat} (hm : m ≤ calls.length) :
    ((List.range m).map fun j => frameOrder (frameAt l.logger.mem j)) =
      (calls.take m).map LogCall.order := by
  have hall := h.frameOrders ht
  rw [← h.length_eq] at hall
  rw [List.map_take, ← hall, ← List.map_take, List.take_range, Nat.min_eq_left hm]

/-- Whatever pages were written when: recovery replays an initial part of the calls, and all those
that were in the log at the last flush. -/
theorem recovery_after_power_failure (calls : List LogCall) (ht : ∀ c ∈ calls, c.WellTagged)
    (hroom : calls.length < 2^24) (hearly : NonePassesEarly calls) (flushed : Nat)
    (hf : flushed ≤ calls.length) (writtenAt : Nat → Nat × Nat)
    (hflush : FlushedAt flushed writtenAt) (b : LimitOrderBook) :
    ∃ m, flushed ≤ m ∧ m ≤ calls.length ∧
      Follows (calls.foldl logPayload .new).logger.mem 0 .new
        (replay b ((calls.take m).map LogCall.order))
        (runRecovery b (diskImage calls writtenAt) fileSize) := by
  have hend : ¬ ValidFrame (diskImage calls writtenAt) calls.length := fun hv =>
    Nat.lt_irrefl _ (diskImage_frame ht hroom.le hearly hv).1
  -- the first frame on disk that is not valid
  obtain ⟨m, hstop, hfirst⟩ : ∃ m, ¬ ValidFrame (diskImage calls writtenAt) m ∧
      ∀ k < m, ValidFrame (diskImage calls writtenAt) k := by
    classical
    have hex : ∃ m, ¬ ValidFrame (diskImage calls writtenAt) m := ⟨_, hend⟩
    exact ⟨Nat.find hex, Nat.find_spec hex, fun k hk => not_not.mp (Nat.find_min hex hk)⟩
  have hle : m ≤ calls.length := by
    by_contra hlt
    exact hend (hfirst _ (Nat.lt_of_not_le hlt))
  refine ⟨m, ?_, hle, ?_⟩
  · by_contra hlt
    exact hstop (diskImage_flushed hroom.le hf hflush (Nat.lt_of_not_le hlt))
  · have hw : Written (calls.foldl logPayload .new) calls := written_logAll_of_le hroom.le
    rw [← hw.frameOrders_take ht hle]
    apply hw.recovery hle
    · rw [frameSize, fileSize]
      omega
    · intro a ha
      rw [frameSize] at ha
      have hframe := (diskImage_frame ht hroom.le hearly (hfirst (a / 64) (by omega))).2 (a % 64)
        (Nat.mod_lt _ (by decide))
      rw [frameAt, frameAt, frameSize, Nat.div_add_mod] at hframe
      exact hframe
    · exact hstop

def eventCancelCalls : List LogCall :=
  [⟨83#8 :: List.replicate 11 0#8, 45#8, 5#64⟩, ⟨88#8 :: List.replicate 22 0#8, 88#8, 9#64⟩]

theorem nonePassesEarly_eventCancelCalls : NonePassesEarly eventCancelCalls := by
  have hevent : ∀ n < 28, ¬ EndsInOwnCrc (((frameBytes 0#32
      ⟨83#8 :: List.replicate 11 0#8, 45#8, 5#64⟩).take n).take 64) := by decide +kernel
  have hcancel : ∀ n < 39, ¬ EndsInOwnCrc (((frameBytes 1#32
      ⟨88#8 :: List.replicate 22 0#8, 88#8, 9#64⟩).take n).take 64) := by decide +kernel
  intro j c hc n hn
  match j, hc with
  | 0, hc =>
    cases hc
    exact hevent n hn
  | 1, hc =>
    cases hc
    exact hcancel n hn

/-- The power fails with the cancel half logged and the event flushed. -/
theorem eventCancelCalls_recovered :
    let r := runRecovery (.new 1) (diskImage eventCancelCalls fun _ => (1, 20)) fileSize
    r.ending = .completed ∧ 1 ≤ r.report.recordsProcessed := by
  have htag : ∀ c ∈ eventCancelCalls, c.WellTagged := by
    intro c hc
    simp only [eventCancelCalls, List.mem_cons, List.not_mem_nil, or_false] at hc
    obtain rfl | rfl := hc
    · exact ⟨by decide, by rintro len ⟨⟩⟩
    · exact ⟨by decide, by rintro len ⟨⟩; rfl⟩
  obtain ⟨m, hflushed, hle, hf⟩ := recovery_after_power_failure eventCancelCalls htag (by decide)
    nonePassesEarly_eventCancelCalls 1 (by decide) (fun _ => (1, 20)) (fun _ _ => Nat.le_refl 1)
    (.new 1)
  have hm : m = 1 ∨ m = 2 := by
    have hlen : eventCancelCalls.length = 2 := rfl
    omega
  refine ⟨?_, ?_⟩
  · rw [hf.ending]
    obtain rfl | rfl := hm
    · decide +kernel
    · decide +kernel
  · rw [hf.records]
    obtain rfl | rfl := hm
    · decide +kernel
    · decide +kernel

end MarketDataBook
