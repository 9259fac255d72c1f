import MarketDataBook.SpscQueue

/-! The queue is a bounded FIFO under every sequentially consistent interleaving. All four
indices are residues of counters that never wrap: the number of completed pushes and pops,
and for each cached copy the value the counter had when it was taken. -/
namespace MarketDataBook.Channel
open SPSCQueue
variable {α : Type*}

def HeadBound (size filled emptied cached : Nat) : Prop :=
  ∃ h ≤ emptied, cached = h % size ∧ filled < h + size

def PushOk (size filled emptied : Nat) (q : SPSCQueue α) : PushPc α → Prop
  | .idle => True
  | .refresh _ tailIdx nextTailIdx => tailIdx = filled % size ∧ nextTailIdx = (filled+1) % size
  | .write _ tailIdx nextTailIdx => tailIdx = filled % size ∧ nextTailIdx = (filled+1) % size ∧
      HeadBound size (filled+1) emptied q.cachedHead
  | .publish input tailIdx nextTailIdx => tailIdx = filled % size ∧
      nextTailIdx = (filled+1) % size ∧ HeadBound size (filled+1) emptied q.cachedHead ∧
      q.data tailIdx = input

def TailBound (size filled emptied cached : Nat) : Prop :=
  ∃ t ≤ filled, emptied ≤ t ∧ cached = t % size

def PopOk (size : Nat) (pushed : List α) (emptied : Nat) (q : SPSCQueue α) : PopPc α → Prop
  | .idle => True
  | .refresh headIdx nextHeadIdx => headIdx = emptied % size ∧ nextHeadIdx = (emptied+1) % size
  | .read headIdx nextHeadIdx => headIdx = emptied % size ∧ nextHeadIdx = (emptied+1) % size ∧
      TailBound size pushed.length (emptied+1) q.cachedTail
  | .publish output nextHeadIdx => nextHeadIdx = (emptied+1) % size ∧
      TailBound size pushed.length (emptied+1) q.cachedTail ∧ pushed[emptied]? = some output

structure Fifo (size : Nat) (c : Channel α) : Prop where
  head : c.queue.head = c.popped.length % size
  tail : c.queue.tail = c.pushed.length % size
  room : c.pushed.length < c.popped.length + size
  cachedHead : HeadBound size c.pushed.length c.popped.length c.queue.cachedHead
  cachedTail : TailBound size c.pushed.length c.popped.length c.queue.cachedTail
  data : ∀ i v, c.popped.length ≤ i → c.pushed[i]? = some v → c.queue.data (i % size) = v
  ordered : c.popped <+: c.pushed
  push : PushOk size c.pushed.length c.popped.length c.queue c.pushPc
  pop : PopOk size c.pushed c.popped.length c.queue c.popPc

theorem nextIdx_mod (k a : Nat) : nextIdx (2^k) (a % 2^k) = (a+1) % 2^k := by
  rw [nextIdx, Nat.and_two_pow_sub_one_eq_mod, RingIndex.mod_succ_mod]

theorem HeadBound.mono {size filled emptied emptied' cached : Nat}
    (h : HeadBound size filled emptied cached) (he : emptied ≤ emptied') :
    HeadBound size filled emptied' cached := by
  obtain ⟨a, ha, hc, hf⟩ := h
  exact ⟨a, ha.trans he, hc, hf⟩

theorem PushOk.mono {size filled emptied emptied' : Nat} {q q' : SPSCQueue α} {pc : PushPc α}
    (h : PushOk size filled emptied q pc) (he : emptied ≤ emptied')
    (hq : q'.cachedHead = q.cachedHead) (hd : q'.data = q.data) :
    PushOk size filled emptied' q' pc := by
  cases pc with
  | idle => trivial
  | refresh v t n => exact h
  | write v t n =>
    obtain ⟨ht, hn, hb⟩ := h
    exact ⟨ht, hn, hq ▸ hb.mono he⟩
  | publish v t n =>
    obtain ⟨ht, hn, hb, hv⟩ := h
    exact ⟨ht, hn, hq ▸ hb.mono he, hd ▸ hv⟩

theorem TailBound.mono {size filled filled' emptied cached : Nat}
    (h : TailBound size filled emptied cached) (hf : filled ≤ filled') :
    TailBound size filled' emptied cached := by
  obtain ⟨t, ht, he, hc⟩ := h
  exact ⟨t, ht.trans hf, he, hc⟩

theorem TailBound.lt {size filled emptied cached : Nat}
    (h : TailBound size filled (emptied+1) cached) : emptied < filled := by
  obtain ⟨t, ht, he, _⟩ := h
  omega

theorem PopOk.mono {size emptied : Nat} {pushed pushed' : List α} {q q' : SPSCQueue α}
    {pc : PopPc α} (h : PopOk size pushed emptied q pc) (hp : pushed <+: pushed')
    (hq : q'.cachedTail = q.cachedTail) : PopOk size pushed' emptied q' pc := by
  cases pc with
  | idle => trivial
  | refresh i n => exact h
  | read i n =>
    obtain ⟨hi, hn, hb⟩ := h
    exact ⟨hi, hn, hq ▸ hb.mono hp.length_le⟩
  | publish w n =>
    obtain ⟨hn, hb, hw⟩ := h
    obtain ⟨rest, rfl⟩ := hp
    have hlt : emptied < pushed.length := (List.getElem?_eq_some_iff.mp hw).1
    exact ⟨hn, hq ▸ hb.mono (by simp), by rw [List.getElem?_append_left hlt, hw]⟩

theorem concat_of_getElem? {l m : List α} {v : α} (h : l <+: m)
    (hv : m[l.length]? = some v) : l ++ [v] <+: m := by
  obtain ⟨rest, rfl⟩ := h
  cases rest with
  | nil => simp at hv
  | cons w rest =>
    simp only [List.getElem?_append_right (Nat.le_refl _), Nat.sub_self, List.getElem?_cons_zero,
      Option.some.injEq] at hv
    exact ⟨rest, by simp [hv]⟩

theorem pushed_append_true (c : Channel α) (v : α) :
    ((c.pushes ++ [(v, true)]).filter Prod.snd).map Prod.fst = c.pushed ++ [v] := by
  simp [pushed]

theorem pushed_append_false (c : Channel α) (v : α) :
    ((c.pushes ++ [(v, false)]).filter Prod.snd).map Prod.fst = c.pushed := by
  simp [pushed]

theorem Fifo.new (k : Nat) (data : Nat → α) : Fifo (2^k) (Channel.new data) where
  head := (Nat.zero_mod _).symm
  tail := (Nat.zero_mod _).symm
  room := Nat.lt_add_of_pos_right (Nat.two_pow_pos k)
  cachedHead := ⟨0, Nat.le_refl 0, (Nat.zero_mod _).symm,
    Nat.lt_add_of_pos_right (Nat.two_pow_pos k)⟩
  cachedTail := ⟨0, Nat.le_refl 0, Nat.le_refl 0, (Nat.zero_mod _).symm⟩
  data := by simp [Channel.new, pushed]
  ordered := List.prefix_rfl
  push := trivial
  pop := trivial

section Producer
variable {k : Nat} {c : Channel α}

theorem Fifo.le (h : Fifo (2^k) c) : c.popped.length ≤ c.pushed.length := h.ordered.length_le

theorem Fifo.beginPush (h : Fifo (2^k) c) (input : α) : Fifo (2^k) (c.beginPush (2^k) input) := by
  obtain ⟨a, ha, hc, hf⟩ := h.cachedHead
  have hle := h.le
  have hnext : nextIdx (2^k) c.queue.tail = (c.pushed.length + 1) % 2^k := by
    rw [h.tail, nextIdx_mod]
  rw [Channel.beginPush]
  split_ifs with hfull
  · exact ⟨h.head, h.tail, h.room, h.cachedHead, h.cachedTail, h.data, h.ordered,
      ⟨h.tail, hnext⟩, h.pop⟩
  · have hne : c.pushed.length + 1 ≠ a + 2^k := by
      intro he
      apply hfull
      rw [hnext, hc]
      exact ((RingIndex.succ_mod_eq_iff (by omega) hf).mpr he).symm
    have hlt : c.pushed.length + 1 < a + 2^k := by omega
    exact ⟨h.head, h.tail, h.room, h.cachedHead, h.cachedTail, h.data, h.ordered,
      ⟨h.tail, hnext, a, ha, hc, hlt⟩, h.pop⟩

/-- At the load of `head_` inside `push`: the call fails exactly when the ring is full. -/
theorem Fifo.refresh_full_iff (h : Fifo (2^k) c) {input : α} {tailIdx nextTailIdx : Nat}
    (hp : c.pushPc = .refresh input tailIdx nextTailIdx) :
    c.queue.head = nextTailIdx ↔ c.pushed.length = c.popped.length + (2^k - 1) := by
  have hok := h.push
  rw [hp] at hok
  have hpos : 0 < 2^k := Nat.two_pow_pos k
  have hroom := h.room
  rw [h.head, hok.2, eq_comm, RingIndex.succ_mod_eq_iff h.le h.room]
  omega

/-- The load of `head_` either ends the call or lets it go on. -/
theorem Fifo.refreshPush (h : Fifo (2^k) c) {input : α} {tailIdx nextTailIdx : Nat}
    (hp : c.pushPc = .refresh input tailIdx nextTailIdx) : Fifo (2^k) c.continuePush := by
  have hle := h.le
  have hroom := h.room
  have hok := h.push
  rw [hp] at hok
  have hbound : HeadBound (2^k) c.pushed.length c.popped.length c.queue.head :=
    ⟨_, Nat.le_refl _, h.head, h.room⟩
  rw [Channel.continuePush, hp]
  dsimp only
  split_ifs with he
  · refine ⟨h.head, ?_, ?_, ?_, ?_, ?_, ?_, trivial, ?_⟩
    all_goals rw [pushed, pushed_append_false]
    · exact h.tail
    · exact h.room
    · exact hbound
    · exact h.cachedTail
    · exact h.data
    · exact h.ordered
    · exact h.pop
  · have hlt : c.pushed.length + 1 < c.popped.length + 2^k := by
      have := mt (h.refresh_full_iff hp).mpr he
      omega
    exact ⟨h.head, h.tail, h.room, hbound, h.cachedTail, h.data, h.ordered,
      ⟨hok.1, hok.2, _, Nat.le_refl _, h.head, hlt⟩, h.pop⟩

/-- The slot written to holds no unread value. -/
theorem Fifo.writePush (h : Fifo (2^k) c) {input : α} {tailIdx nextTailIdx : Nat}
    (hp : c.pushPc = .write input tailIdx nextTailIdx) : Fifo (2^k) c.continuePush := by
  have hle := h.le
  have hroom := h.room
  have hok := h.push
  rw [hp] at hok
  obtain ⟨ht, hn, hb⟩ := hok
  rw [Channel.continuePush, hp]
  refine ⟨h.head, h.tail, h.room, h.cachedHead, h.cachedTail, ?_, h.ordered,
    ⟨ht, hn, hb, Function.update_self ..⟩, h.pop⟩
  intro i w hi hw
  have hi : c.popped.length ≤ i := hi
  have hlt : i < c.pushed.length := (List.getElem?_eq_some_iff.mp hw).1
  have hne : i % 2^k ≠ tailIdx := by
    rw [ht, ne_eq, RingIndex.mod_eq_mod_iff (by omega) (by omega)]
    omega
  dsimp only
  rw [Function.update_of_ne hne]
  exact h.data i w hi hw

theorem Fifo.publishPush (h : Fifo (2^k) c) {input : α} {tailIdx nextTailIdx : Nat}
    (hp : c.pushPc = .publish input tailIdx nextTailIdx) : Fifo (2^k) c.continuePush := by
  have hok := h.push
  rw [hp] at hok
  obtain ⟨ht, hn, ⟨a, ha, hc, hf⟩, hv⟩ := hok
  have hlen : (c.pushed ++ [input]).length = c.pushed.length + 1 := List.length_append
  rw [Channel.continuePush, hp]
  refine ⟨h.head, ?_, ?_, ?_, ?_, ?_, ?_, trivial, ?_⟩
  all_goals rw [pushed, pushed_append_true]
  · rw [hlen]
    exact hn
  · rw [hlen]
    exact lt_of_lt_of_le hf (Nat.add_le_add_right ha _)
  · exact ⟨a, ha, hc, hlen ▸ hf⟩
  · exact h.cachedTail.mono (by simp)
  · intro i w hi hw
    obtain hlt | hge := Nat.lt_or_ge i c.pushed.length
    · rw [List.getElem?_append_left hlt] at hw
      exact h.data i w hi hw
    · have hie : i = c.pushed.length := by
        have := (List.getElem?_eq_some_iff.mp hw).1
        omega
      rw [hie, List.getElem?_concat_length, Option.some.injEq] at hw
      rw [hie, ← hw, ← hv, ht]
  · exact h.ordered.trans (List.prefix_append _ _)
  · exact h.pop.mono (List.prefix_append _ _) rfl

theorem Fifo.continuePush (h : Fifo (2^k) c) : Fifo (2^k) c.continuePush := by
  cases hp : c.pushPc with
  | idle =>
    rw [Channel.continuePush, hp]
    exact h
  | refresh v t n => exact h.refreshPush hp
  | write v t n => exact h.writePush hp
  | publish v t n => exact h.publishPush hp

end Producer

section Consumer
variable {k : Nat} {c : Channel α}

theorem popped_append_none (c : Channel α) : (c.pops ++ [none]).filterMap id = c.popped := by
  simp [popped]

theorem popped_append_some (c : Channel α) (v : α) :
    (c.pops ++ [some v]).filterMap id = c.popped ++ [v] := by
  simp [popped]

theorem Fifo.beginPop (h : Fifo (2^k) c) : Fifo (2^k) (c.beginPop (2^k)) := by
  obtain ⟨t, ht, hpt, hc⟩ := h.cachedTail
  have hroom := h.room
  have hnext : nextIdx (2^k) c.queue.head = (c.popped.length + 1) % 2^k := by
    rw [h.head, nextIdx_mod]
  rw [Channel.beginPop]
  split_ifs with he
  · exact ⟨h.head, h.tail, h.room, h.cachedHead, h.cachedTail, h.data, h.ordered, h.push,
      ⟨h.head, hnext⟩⟩
  · have hne : c.popped.length ≠ t := by
      rw [h.head, hc, RingIndex.mod_eq_mod_iff hpt (by omega)] at he
      exact he
    have hlt : c.popped.length + 1 ≤ t := by omega
    exact ⟨h.head, h.tail, h.room, h.cachedHead, h.cachedTail, h.data, h.ordered, h.push,
      ⟨h.head, hnext, t, ht, hlt, hc⟩⟩

/-- At the load of `tail_` inside `pop`: the call fails exactly when nothing is unread. -/
theorem Fifo.refresh_empty_iff (h : Fifo (2^k) c) {headIdx nextHeadIdx : Nat}
    (hp : c.popPc = .refresh headIdx nextHeadIdx) :
    headIdx = c.queue.tail ↔ c.popped.length = c.pushed.length := by
  have hok := h.pop
  rw [hp] at hok
  rw [hok.1, h.tail, RingIndex.mod_eq_mod_iff h.le h.room]

/-- The load of `tail_` either ends the call or lets it go on. -/
theorem Fifo.refreshPop (h : Fifo (2^k) c) {headIdx nextHeadIdx : Nat}
    (hp : c.popPc = .refresh headIdx nextHeadIdx) : Fifo (2^k) c.continuePop := by
  have hle := h.le
  have hok := h.pop
  rw [hp] at hok
  have htail : TailBound (2^k) c.pushed.length c.popped.length c.queue.tail :=
    ⟨_, Nat.le_refl _, hle, h.tail⟩
  rw [Channel.continuePop, hp]
  dsimp only
  split_ifs with he
  · refine ⟨?_, h.tail, ?_, ?_, ?_, ?_, ?_, ?_, trivial⟩
    all_goals rw [popped, popped_append_none]
    · exact h.head
    · exact h.room
    · exact h.cachedHead
    · exact htail
    · exact h.data
    · exact h.ordered
    · exact h.push.mono (Nat.le_refl _) rfl rfl
  · have hlt : c.popped.length < c.pushed.length := by
      have := mt (h.refresh_empty_iff hp).mpr he
      omega
    exact ⟨h.head, h.tail, h.room, h.cachedHead, htail, h.data, h.ordered,
      h.push.mono (Nat.le_refl _) rfl rfl, ⟨hok.1, hok.2, _, Nat.le_refl _, hlt, h.tail⟩⟩

theorem Fifo.readPop (h : Fifo (2^k) c) {headIdx nextHeadIdx : Nat}
    (hp : c.popPc = .read headIdx nextHeadIdx) : Fifo (2^k) c.continuePop := by
  have hok := h.pop
  rw [hp] at hok
  obtain ⟨hi, hn, hb⟩ := hok
  have hget := List.getElem?_eq_getElem hb.lt
  rw [Channel.continuePop, hp]
  refine ⟨h.head, h.tail, h.room, h.cachedHead, h.cachedTail, h.data, h.ordered, h.push, hn,
    hb, ?_⟩
  rw [hi, h.data _ _ (Nat.le_refl _) hget]
  exact hget

theorem Fifo.publishPop (h : Fifo (2^k) c) {output : α} {nextHeadIdx : Nat}
    (hp : c.popPc = .publish output nextHeadIdx) : Fifo (2^k) c.continuePop := by
  have hroom := h.room
  have hok := h.pop
  rw [hp] at hok
  obtain ⟨hn, hb, hv⟩ := hok
  have hlt : c.popped.length < c.pushed.length := (List.getElem?_eq_some_iff.mp hv).1
  have hlen : (c.popped ++ [output]).length = c.popped.length + 1 := List.length_append
  rw [Channel.continuePop, hp]
  refine ⟨?_, h.tail, ?_, ?_, ?_, ?_, ?_, ?_, trivial⟩
  all_goals rw [popped, popped_append_some]
  · rw [hlen]
    exact hn
  · rw [hlen]
    exact Nat.lt_of_lt_of_le hroom (by omega)
  · exact h.cachedHead.mono (by omega)
  · rw [hlen]
    exact hb
  · intro i w hi hw
    exact h.data i w (by omega) hw
  · exact concat_of_getElem? h.ordered hv
  · exact h.push.mono (by omega) rfl rfl

theorem Fifo.continuePop (h : Fifo (2^k) c) : Fifo (2^k) c.continuePop := by
  cases hp : c.popPc with
  | idle =>
    rw [Channel.continuePop, hp]
    exact h
  | refresh i n => exact h.refreshPop hp
  | read i n => exact h.readPop hp
  | publish v n => exact h.publishPop hp

end Consumer

/-- What a caller can rely on at every moment. Value number `i` lives in slot `i % size`;
a value is unread from its push's return until its pop's return. -/
structure BoundedFifo (size : Nat) (c : Channel α) : Prop where
  ordered : c.popped <+: c.pushed
  bounded : c.pushed.length ≤ c.popped.length + (size - 1)
  holds : ∀ i v, c.popped.length ≤ i → c.pushed[i]? = some v → c.queue.data (i % size) = v
  write_free : ∀ input tailIdx nextTailIdx, c.pushPc = .write input tailIdx nextTailIdx →
    tailIdx < size ∧ ∀ i, c.popped.length ≤ i → i < c.pushed.length → i % size ≠ tailIdx
  read_published : ∀ headIdx nextHeadIdx, c.popPc = .read headIdx nextHeadIdx →
    headIdx = c.popped.length % size ∧
      c.pushed[c.popped.length]? = some (c.queue.data headIdx)
  push_false : ∀ input, c.continuePush.pushes = c.pushes ++ [(input, false)] →
    c.pushed.length = c.popped.length + (size - 1)
  pop_false : c.continuePop.pops = c.pops ++ [none] → c.popped.length = c.pushed.length

section Caller
variable {k : Nat} {c : Channel α}

theorem Fifo.write_free (h : Fifo (2^k) c) {input : α} {tailIdx nextTailIdx : Nat}
    (hp : c.pushPc = .write input tailIdx nextTailIdx) :
    tailIdx < 2^k ∧ ∀ i, c.popped.length ≤ i → i < c.pushed.length → i % 2^k ≠ tailIdx := by
  have hok := h.push
  have hroom := h.room
  rw [hp] at hok
  obtain ⟨ht, -, -⟩ := hok
  rw [ht]
  refine ⟨Nat.mod_lt _ (Nat.two_pow_pos k), ?_⟩
  intro i hi hlt
  rw [ne_eq, RingIndex.mod_eq_mod_iff (by omega) (by omega)]
  omega

theorem Fifo.read_published (h : Fifo (2^k) c) {headIdx nextHeadIdx : Nat}
    (hp : c.popPc = .read headIdx nextHeadIdx) :
    headIdx = c.popped.length % 2^k ∧
      c.pushed[c.popped.length]? = some (c.queue.data headIdx) := by
  have hok := h.pop
  rw [hp] at hok
  obtain ⟨hi, _, hb⟩ := hok
  have hget := List.getElem?_eq_getElem hb.lt
  refine ⟨hi, ?_⟩
  rw [hi, h.data _ _ (Nat.le_refl _) hget]
  exact hget

/-- A push can only fail at its load of `head_`. -/
theorem Fifo.push_false (h : Fifo (2^k) c) {input : α}
    (hf : c.continuePush.pushes = c.pushes ++ [(input, false)]) :
    c.pushed.length = c.popped.length + (2^k - 1) := by
  rw [Channel.continuePush] at hf
  cases hp : c.pushPc with
  | idle => simp [hp] at hf
  | refresh v t n =>
    apply (h.refresh_full_iff hp).mp
    by_contra hne
    simp [hp, hne] at hf
  | write v t n => simp [hp] at hf
  | publish v t n => simp [hp] at hf

theorem Fifo.pop_false (h : Fifo (2^k) c) (hf : c.continuePop.pops = c.pops ++ [none]) :
    c.popped.length = c.pushed.length := by
  rw [Channel.continuePop] at hf
  cases hp : c.popPc with
  | idle => simp [hp] at hf
  | refresh i n =>
    apply (h.refresh_empty_iff hp).mp
    by_contra hne
    simp [hp, hne] at hf
  | read i n => simp [hp] at hf
  | publish v n => simp [hp] at hf

theorem Fifo.boundedFifo (h : Fifo (2^k) c) : BoundedFifo (2^k) c where
  ordered := h.ordered
  bounded := by
    have hroom := h.room
    omega
  holds := h.data
  write_free := fun _ _ _ hp => h.write_free hp
  read_published := fun _ _ hp => h.read_published hp
  push_false := fun _ hf => h.push_false hf
  pop_false := h.pop_false

end Caller

end MarketDataBook.Channel

namespace MarketDataBook

def PushPc.current {α : Type*} : PushPc α → List α
  | .idle => []
  | .refresh input _ _ => [input]
  | .write input _ _ => [input]
  | .publish input _ _ => [input]

namespace Channel
variable {α : Type*}

theorem beginPush_calls (size : Nat) (c : Channel α) (input : α) :
    (c.beginPush size input).pushes = c.pushes ∧
    (c.beginPush size input).pushPc.current = [input] := by
  rw [beginPush]
  split_ifs <;> exact ⟨rfl, rfl⟩

/-- A push under way stays accounted for until it returns. -/
theorem continuePush_calls (c : Channel α) :
    c.continuePush.pushes.map Prod.fst ++ c.continuePush.pushPc.current =
      c.pushes.map Prod.fst ++ c.pushPc.current := by
  rw [continuePush]
  cases hp : c.pushPc with
  | idle => simp [hp]
  | refresh v t n =>
    dsimp only
    split_ifs <;> simp [PushPc.current]
  | write v t n => rfl
  | publish v t n => simp [PushPc.current]

/-- A step of a push under way either returns from the call or leaves the calls as they are. -/
theorem continuePush_returns {c : Channel α} {v : α} (hc : c.pushPc.current = [v]) :
    (c.continuePush.pushPc = .idle ∧ ∃ ok, c.continuePush.pushes = c.pushes ++ [(v, ok)]) ∨
    (c.continuePush.pushPc ≠ .idle ∧ c.continuePush.pushPc.current = [v] ∧
      c.continuePush.pushes = c.pushes) := by
  rw [continuePush]
  cases hp : c.pushPc with
  | idle => simp [hp, PushPc.current] at hc
  | refresh w t n =>
    simp only [hp, PushPc.current, List.cons.injEq, and_true] at hc
    subst hc
    dsimp only
    split_ifs
    · exact Or.inl ⟨rfl, false, rfl⟩
    · exact Or.inr ⟨by simp, rfl, rfl⟩
  | write w t n =>
    simp only [hp, PushPc.current, List.cons.injEq, and_true] at hc
    subst hc
    exact Or.inr ⟨by simp, rfl, rfl⟩
  | publish w t n =>
    simp only [hp, PushPc.current, List.cons.injEq, and_true] at hc
    subst hc
    exact Or.inl ⟨rfl, true, rfl⟩

theorem beginPush_consumer (size : Nat) (c : Channel α) (input : α) :
    (c.beginPush size input).pops = c.pops ∧ (c.beginPush size input).popPc = c.popPc := by
  rw [beginPush]
  split_ifs <;> exact ⟨rfl, rfl⟩

theorem continuePush_consumer (c : Channel α) :
    c.continuePush.pops = c.pops ∧ c.continuePush.popPc = c.popPc := by
  rw [continuePush]
  cases c.pushPc with
  | idle => exact ⟨rfl, rfl⟩
  | refresh v t n =>
    dsimp only
    split_ifs <;> exact ⟨rfl, rfl⟩
  | write v t n => exact ⟨rfl, rfl⟩
  | publish v t n => exact ⟨rfl, rfl⟩

theorem beginPop_producer (size : Nat) (c : Channel α) :
    (c.beginPop size).pushes = c.pushes ∧ (c.beginPop size).pushPc = c.pushPc := by
  rw [beginPop]
  split_ifs <;> exact ⟨rfl, rfl⟩

theorem continuePop_producer (c : Channel α) :
    c.continuePop.pushes = c.pushes ∧ c.continuePop.pushPc = c.pushPc := by
  rw [continuePop]
  cases c.popPc with
  | idle => exact ⟨rfl, rfl⟩
  | refresh i n =>
    dsimp only
    split_ifs <;> exact ⟨rfl, rfl⟩
  | read i n => exact ⟨rfl, rfl⟩
  | publish v n => exact ⟨rfl, rfl⟩

theorem beginPop_pushed (size : Nat) (c : Channel α) : (c.beginPop size).pushed = c.pushed := by
  rw [pushed, (c.beginPop_producer size).1, pushed]

theorem continuePop_pushed (c : Channel α) : c.continuePop.pushed = c.pushed := by
  rw [pushed, c.continuePop_producer.1, pushed]

theorem beginPop_popped (size : Nat) (c : Channel α) : (c.beginPop size).popped = c.popped := by
  rw [beginPop]
  split_ifs <;> rfl

theorem continuePop_popped {c : Channel α} (hp : ∀ v n, c.popPc ≠ .publish v n) :
    c.continuePop.popped = c.popped := by
  rw [continuePop]
  cases hc : c.popPc with
  | idle => rfl
  | refresh i n =>
    dsimp only
    split_ifs
    · exact popped_append_none c
    · rfl
  | read i n => rfl
  | publish v n => exact absurd hc (hp v n)

theorem continuePop_publish {c : Channel α} {v : α} {n : Nat} (hp : c.popPc = .publish v n) :
    c.continuePop.popped = c.popped ++ [v] ∧ c.continuePop.popPc = .idle := by
  rw [continuePop, hp]
  exact ⟨popped_append_some c v, rfl⟩

end Channel

inductive QueueThread where
  | producer | consumer

/-- One producer that pushes the given values one after the other, and one consumer that
pops for ever. -/
structure Session (α : Type*) where
  channel : Channel α
  inputs : List α

namespace Session
variable {α : Type*}

def produce (size : Nat) (s : Session α) : Session α :=
  match s.channel.pushPc with
  | .idle =>
    match s.inputs with
    | [] => s
    | input::inputs => ⟨s.channel.beginPush size input, inputs⟩
  | _ => { s with channel := s.channel.continuePush }

def consume (size : Nat) (s : Session α) : Session α :=
  match s.channel.popPc with
  | .idle => { s with channel := s.channel.beginPop size }
  | _ => { s with channel := s.channel.continuePop }

def step (size : Nat) (s : Session α) : QueueThread → Session α
  | .producer => s.produce size
  | .consumer => s.consume size

def start (data : Nat → α) (inputs : List α) : Session α := ⟨.new data, inputs⟩

theorem step_fifo {k : Nat} {s : Session α} (h : s.channel.Fifo (2^k)) (t : QueueThread) :
    (s.step (2^k) t).channel.Fifo (2^k) := by
  cases t with
  | producer =>
    rw [step, produce]
    split
    · split
      · exact h
      · exact h.beginPush _
    · exact h.continuePush
  | consumer =>
    rw [step, consume]
    split
    · exact h.beginPop
    · exact h.continuePop

def calls (s : Session α) : List α :=
  s.channel.pushes.map Prod.fst ++ s.channel.pushPc.current ++ s.inputs

theorem calls_step (size : Nat) (s : Session α) (t : QueueThread) :
    (s.step size t).calls = s.calls := by
  cases t with
  | producer =>
    rw [step, produce, calls, calls]
    cases hp : s.channel.pushPc with
    | idle =>
      cases hi : s.inputs with
      | nil => simp [hp, hi]
      | cons v vs =>
        obtain ⟨hl, hc⟩ := s.channel.beginPush_calls size v
        have hidle : (PushPc.idle : PushPc α).current = [] := rfl
        simp [hl, hc, hidle]
    | refresh v t n => simp only [s.channel.continuePush_calls, hp]
    | write v t n => simp only [s.channel.continuePush_calls, hp]
    | publish v t n => simp only [s.channel.continuePush_calls, hp]
  | consumer =>
    rw [step, consume, calls, calls]
    split
    · obtain ⟨hl, hc⟩ := s.channel.beginPop_producer size
      rw [hl, hc]
    · obtain ⟨hl, hc⟩ := s.channel.continuePop_producer
      rw [hl, hc]

/-- Every interleaving of the individual accesses, for every ring of two to the `k` slots. -/
theorem run_boundedFifo (k : Nat) (data : Nat → α) (inputs : List α)
    (schedule : List QueueThread) :
    (schedule.foldl (step (2^k)) (start data inputs)).channel.BoundedFifo (2^k) ∧
    (schedule.foldl (step (2^k)) (start data inputs)).calls = inputs := by
  have h : (schedule.foldl (step (2^k)) (start data inputs)).channel.Fifo (2^k) ∧
      (schedule.foldl (step (2^k)) (start data inputs)).calls = inputs :=
    StepRun.invariant (I := fun s : Session α => s.channel.Fifo (2^k) ∧ s.calls = inputs) schedule
      ⟨Channel.Fifo.new k data, rfl⟩
      (fun s t hs => ⟨step_fifo hs.1 t, (calls_step _ s t).trans hs.2⟩)
  exact ⟨h.1.boundedFifo, h.2⟩

end Session
end MarketDataBook
