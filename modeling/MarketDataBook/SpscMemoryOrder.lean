import MarketDataBook.Library.ReleaseAcquire
import MarketDataBook.SpscFifo

/-! `utils/spscqueue.h` with the memory orders it asks for: relaxed loads of the own index,
acquire loads of the other one, release stores, and plain accesses to the slots. A load of the
other thread's index may return an old store. What the queue promises does not change, and no
two accesses to a slot race. -/
namespace MarketDataBook
open ReleaseAcquire

deriving instance DecidableEq for QueueThread

inductive QueueIndex where
  | head | tail
  deriving DecidableEq

/-- The two indices are the atomic locations, the slots the plain ones. -/
abbrev QueueMemory (α : Type*) := Machine QueueThread QueueIndex Nat Nat α

structure WeakChannel (α : Type*) where
  mem : QueueMemory α
  cachedHead : Nat
  cachedTail : Nat
  pushPc : PushPc α
  popPc : PopPc α
  pushes : List (α × Bool)
  pops : List (Option α)

namespace WeakChannel
variable {α : Type*}

def new (data : Nat → α) : WeakChannel α := ⟨.start (fun _ => 0) data, 0, 0, .idle, .idle, [], []⟩

def beginPush (size : Nat) (c : WeakChannel α) (n : Nat) (input : α) : WeakChannel α :=
  let tailIdx := c.mem.valueAt .tail n 0
  let nextTailIdx := SPSCQueue.nextIdx size tailIdx
  let c := { c with mem := c.mem.loadRelaxed .producer .tail n }
  if c.cachedHead = nextTailIdx then { c with pushPc := .refresh input tailIdx nextTailIdx }
  else { c with pushPc := .write input tailIdx nextTailIdx }

def continuePush (c : WeakChannel α) (n : Nat) : WeakChannel α :=
  match c.pushPc with
  | .idle => c
  | .refresh input tailIdx nextTailIdx =>
    let cachedHead := c.mem.valueAt .head n 0
    let c := { c with mem := c.mem.loadAcquire .producer .head n, cachedHead := cachedHead }
    if cachedHead = nextTailIdx then
      { c with pushPc := .idle, pushes := c.pushes ++ [(input, false)] }
    else { c with pushPc := .write input tailIdx nextTailIdx }
  | .write input tailIdx nextTailIdx =>
    { c with mem := c.mem.writeCell .producer tailIdx input
             pushPc := .publish input tailIdx nextTailIdx }
  | .publish input _ nextTailIdx =>
    { c with mem := c.mem.storeRelease .producer .tail nextTailIdx
             pushPc := .idle
             pushes := c.pushes ++ [(input, true)] }

def beginPop (size : Nat) (c : WeakChannel α) (n : Nat) : WeakChannel α :=
  let headIdx := c.mem.valueAt .head n 0
  let nextHeadIdx := SPSCQueue.nextIdx size headIdx
  let c := { c with mem := c.mem.loadRelaxed .consumer .head n }
  if headIdx = c.cachedTail then { c with popPc := .refresh headIdx nextHeadIdx }
  else { c with popPc := .read headIdx nextHeadIdx }

def continuePop (c : WeakChannel α) (n : Nat) : WeakChannel α :=
  match c.popPc with
  | .idle => c
  | .refresh headIdx nextHeadIdx =>
    let cachedTail := c.mem.valueAt .tail n 0
    let c := { c with mem := c.mem.loadAcquire .consumer .tail n, cachedTail := cachedTail }
    if headIdx = cachedTail then { c with popPc := .idle, pops := c.pops ++ [none] }
    else { c with popPc := .read headIdx nextHeadIdx }
  | .read headIdx nextHeadIdx =>
    { c with mem := c.mem.readCell .consumer headIdx
             popPc := .publish (c.mem.cell headIdx).value nextHeadIdx }
  | .publish output nextHeadIdx =>
    { c with mem := c.mem.storeRelease .consumer .head nextHeadIdx
             popPc := .idle
             pops := c.pops ++ [some output] }

def loads (c : WeakChannel α) : QueueThread → Option QueueIndex
  | .producer => match c.pushPc with
    | .idle => some .tail
    | .refresh _ _ _ => some .head
    | _ => none
  | .consumer => match c.popPc with
    | .idle => some .head
    | .refresh _ _ => some .tail
    | _ => none

def Legal (c : WeakChannel α) (t : QueueThread) (n : Nat) : Prop :=
  ∀ k ∈ c.loads t, c.mem.Readable t k n

instance (c : WeakChannel α) (t : QueueThread) (n : Nat) : Decidable (c.Legal t n) :=
  inferInstanceAs (Decidable (∀ k ∈ c.loads t, c.mem.Readable t k n))

/-- The plain access that a thread makes next has every conflicting access before it. -/
def RaceFree (c : WeakChannel α) : Prop :=
  (∀ input tailIdx nextTailIdx, c.pushPc = .write input tailIdx nextTailIdx →
    c.mem.WriteOrdered .producer tailIdx) ∧
  ∀ headIdx nextHeadIdx, c.popPc = .read headIdx nextHeadIdx → c.mem.ReadOrdered .consumer headIdx

/-- The queue as it would be if every load returned the newest store. -/
def newest (c : WeakChannel α) : Channel α where
  queue := ⟨c.mem.latest .tail 0, c.cachedHead, c.mem.latest .head 0, c.cachedTail,
    fun i => (c.mem.cell i).value⟩
  pushPc := c.pushPc
  popPc := c.popPc
  pushes := c.pushes
  pops := c.pops

end WeakChannel

def PushPc.claims {α : Type*} : PushPc α → Nat
  | .idle => 0
  | .refresh _ _ _ => 0
  | .write _ _ _ => 1
  | .publish _ _ _ => 1

def PopPc.claims {α : Type*} : PopPc α → Nat
  | .idle => 0
  | .refresh _ _ => 0
  | .read _ _ => 1
  | .publish _ _ => 1

def PushPc.accessed {α : Type*} : PushPc α → Nat
  | .idle => 0
  | .refresh _ _ _ => 0
  | .write _ _ _ => 0
  | .publish _ _ _ => 1

def PopPc.accessed {α : Type*} : PopPc α → Nat
  | .idle => 0
  | .refresh _ _ => 0
  | .read _ _ => 0
  | .publish _ _ => 1

theorem PushPc.accessed_le_claims {α : Type*} (pc : PushPc α) : pc.accessed ≤ pc.claims := by
  cases pc <;> simp [accessed, claims]

theorem PopPc.accessed_le_claims {α : Type*} (pc : PopPc α) : pc.accessed ≤ pc.claims := by
  cases pc <;> simp [accessed, claims]

/-- Store `n` of an index stands for `n` finished calls and is made knowing their accesses. -/
structure StoresOk (size : Nat) (owner : QueueThread) (count : Nat)
    (stores : List (Store QueueThread QueueIndex Nat)) : Prop where
  length : stores.length = count + 1
  store : ∀ n s, stores[n]? = some s →
    s.value = n % size ∧ n ≤ s.view.clock owner

/-- What a thread knows: its own stores, and of the other thread the accesses of the calls it
has seen finished. -/
structure Knows (size : Nat) (v : View QueueThread QueueIndex) (t u : QueueThread)
    (own other : QueueIndex) (count accessed cached : Nat) : Prop where
  own : v.floor own = count
  accessed : v.clock t = count + accessed
  cached : cached = v.floor other % size
  known : v.floor other ≤ v.clock u

def Touched (size count slot access : Nat) : Prop :=
  access = 0 ∨ ∃ i < count, i % size = slot ∧ access = i + 1

structure WeakFifo {α : Type*} (size : Nat) (c : WeakChannel α) : Prop where
  fifo : c.newest.Fifo size
  consistent : c.mem.Consistent
  tails : StoresOk size .producer c.newest.pushed.length (c.mem.stores .tail)
  heads : StoresOk size .consumer c.newest.popped.length (c.mem.stores .head)
  producer : Knows size (c.mem.view .producer) .producer .consumer .tail .head
    c.newest.pushed.length c.pushPc.accessed c.cachedHead
  consumer : Knows size (c.mem.view .consumer) .consumer .producer .head .tail
    c.newest.popped.length c.popPc.accessed c.cachedTail
  room : c.newest.pushed.length + c.pushPc.claims < (c.mem.view .producer).floor .head + size
  unread : c.newest.popped.length + c.popPc.claims ≤ (c.mem.view .consumer).floor .tail
  written : ∀ j, Touched size (c.newest.pushed.length + c.pushPc.accessed) j
    ((c.mem.cell j).written .producer) ∧ (c.mem.cell j).written .consumer = 0
  read : ∀ j, Touched size (c.newest.popped.length + c.popPc.accessed) j
    ((c.mem.cell j).read .consumer) ∧ (c.mem.cell j).read .producer = 0

section Stores
variable {α : Type*} {size count n : Nat} {owner : QueueThread} {k : QueueIndex}
  {stores : List (Store QueueThread QueueIndex Nat)} {m : QueueMemory α}

theorem StoresOk.valueAt (h : StoresOk size owner count (m.stores k)) (hn : n ≤ count) :
    m.valueAt k n 0 = n % size := by
  have hs := List.getElem?_eq_getElem (l := m.stores k) (i := n) (by rw [h.length]; omega)
  rw [Machine.valueAt, hs]
  exact (h.store n _ hs).1

theorem StoresOk.append (h : StoresOk size owner count stores)
    {s : Store QueueThread QueueIndex Nat} (hv : s.value = (count+1) % size)
    (hk : count + 1 ≤ s.view.clock owner) : StoresOk size owner (count+1) (stores ++ [s]) where
  length := by rw [List.length_append, h.length, List.length_singleton]
  store := by
    intro n s' hs
    obtain hlt | hge := Nat.lt_or_ge n stores.length
    · rw [List.getElem?_append_left hlt] at hs
      exact h.store n s' hs
    · have hlen := h.length
      have hn : n < (stores ++ [s]).length := (List.getElem?_eq_some_iff.mp hs).1
      rw [List.length_append, List.length_singleton] at hn
      obtain rfl : n = count + 1 := by omega
      rw [List.getElem?_append_right hge, hlen, Nat.sub_self, List.getElem?_cons_zero,
        Option.some.injEq] at hs
      subst hs
      exact ⟨hv, hk⟩

theorem Touched.mono {slot access count' : Nat} (h : Touched size count slot access)
    (hle : count ≤ count') : Touched size count' slot access := by
  obtain h0 | ⟨i, hi, hslot, he⟩ := h
  · exact Or.inl h0
  · exact Or.inr ⟨i, Nat.lt_of_lt_of_le hi hle, hslot, he⟩

theorem Touched.succ (size i : Nat) : Touched size (i+1) (i % size) (i+1) :=
  Or.inr ⟨i, Nat.lt_succ_self i, rfl, rfl⟩

/-- An acquire load brings the accesses of all calls that the store stands for. -/
theorem Knows.acquire {v w : View QueueThread QueueIndex} {t u : QueueThread}
    {own other : QueueIndex} {cached : Nat} (h : Knows size v t u own other count 0 cached)
    (hle : v.floor other ≤ n) (hown : w.floor own ≤ count) (ht : w.clock t ≤ count)
    (hother : w.floor other = n) (hu : n ≤ w.clock u) :
    Knows size (v.join w) t u own other count 0 (n % size) ∧ (v.join w).floor other = n := by
  have hfloor : (v.join w).floor other = n := by
    rw [Machine.join_floor, hother, Nat.max_eq_right hle]
  refine ⟨⟨?_, ?_, ?_, ?_⟩, hfloor⟩
  · rw [Machine.join_floor, h.own, Nat.max_eq_left hown]
  · rw [Machine.join_clock, h.accessed]
    exact Nat.max_eq_left ht
  · rw [hfloor]
  · rw [hfloor, Machine.join_clock]
    exact Nat.le_trans hu (Nat.le_max_right _ _)

theorem Knows.access {v : View QueueThread QueueIndex} {t u : QueueThread}
    {own other : QueueIndex} {cached : Nat} (h : Knows size v t u own other count 0 cached)
    (hne : u ≠ t) : Knows size (v.tick t) t u own other count 1 cached := by
  refine ⟨h.own, ?_, h.cached, ?_⟩
  · rw [Machine.tick_clock, if_pos rfl, h.accessed]
  · rw [Machine.tick_clock, if_neg hne]
    exact h.known

theorem Knows.publish {v : View QueueThread QueueIndex} {t u : QueueThread}
    {own other : QueueIndex} {cached : Nat} (h : Knows size v t u own other count 1 cached)
    (hne : other ≠ own) :
    Knows size (v.raise own (count+1)) t u own other (count+1) 0 cached := by
  refine ⟨?_, h.accessed, ?_, ?_⟩
  · rw [Machine.raise_floor, if_pos rfl]
  · rw [Machine.raise_floor, if_neg hne]
    exact h.cached
  · rw [Machine.raise_floor, if_neg hne]
    exact h.known

/-- A position of a slot is at least a lap behind the next one. -/
theorem Touched.lap {slot access i : Nat} (h : Touched size count slot access) (hc : count ≤ i)
    (hslot : slot = i % size) : access = 0 ∨ access + size ≤ i + 1 := by
  obtain h0 | ⟨j, hj, hjs, rfl⟩ := h
  · exact Or.inl h0
  · refine Or.inr ?_
    by_contra hlt
    have heq := (RingIndex.mod_eq_mod_iff (a := j) (b := i) (n := size) (by omega) (by omega)).mp
      (hjs.trans hslot)
    omega

/-- The slot's positions short of a lap ahead are at most the one read now. -/
theorem Touched.le {slot access i : Nat} (h : Touched size count slot access)
    (hc : count ≤ i + size) (hslot : slot = i % size) : access ≤ i + 1 := by
  obtain h0 | ⟨j, hj, hjs, rfl⟩ := h
  · omega
  · by_contra hlt
    have heq := (RingIndex.mod_eq_mod_iff (a := i) (b := j) (n := size) (by omega) (by omega)).mp
      (hslot.symm.trans hjs.symm)
    omega

end Stores

namespace WeakChannel
variable {α : Type*}

theorem newest_write (c : WeakChannel α) (input : α) (tailIdx nextTailIdx : Nat) :
    newest { c with mem := c.mem.writeCell .producer tailIdx input
                    pushPc := .publish input tailIdx nextTailIdx } =
      { c.newest with
        queue := { c.newest.queue with data := Function.update c.newest.queue.data tailIdx input }
        pushPc := .publish input tailIdx nextTailIdx } := by
  have hdata : (fun i => ((c.mem.writeCell .producer tailIdx input).cell i).value) =
      Function.update (fun i => (c.mem.cell i).value) tailIdx input := by
    funext i
    rw [Machine.writeCell, Machine.writeCells_cell_value, Function.update_apply]
    split_ifs <;> rfl
  simp only [newest, ← hdata]
  rfl

theorem newest_read (c : WeakChannel α) (headIdx : Nat) (pc : PopPc α) :
    newest { c with mem := c.mem.readCell .consumer headIdx, popPc := pc } =
      { c.newest with popPc := pc } := by
  have hdata : (fun i => ((c.mem.readCell .consumer headIdx).cell i).value) =
      fun i => (c.mem.cell i).value := by
    funext i
    rw [Machine.readCell, Machine.readCells_cell_value]
  simp only [newest, hdata]
  rfl

theorem newest_publishPush (c : WeakChannel α) (nextTailIdx : Nat) (pushes : List (α × Bool)) :
    newest { c with mem := c.mem.storeRelease .producer .tail nextTailIdx
                    pushPc := .idle, pushes := pushes } =
      { c.newest with queue := { c.newest.queue with tail := nextTailIdx }
                      pushPc := .idle, pushes := pushes } := by
  have ht := Machine.storeRelease_latest (m := c.mem) (t := .producer) (k := .tail) nextTailIdx 0 .tail
  have hh := Machine.storeRelease_latest (m := c.mem) (t := .producer) (k := .tail) nextTailIdx 0 .head
  rw [if_pos rfl] at ht
  rw [if_neg (by decide)] at hh
  simp only [newest, ht, hh]
  rfl

theorem newest_publishPop (c : WeakChannel α) (nextHeadIdx : Nat) (pops : List (Option α)) :
    newest { c with mem := c.mem.storeRelease .consumer .head nextHeadIdx
                    popPc := .idle, pops := pops } =
      { c.newest with queue := { c.newest.queue with head := nextHeadIdx }
                      popPc := .idle, pops := pops } := by
  have ht := Machine.storeRelease_latest (m := c.mem) (t := .consumer) (k := .head) nextHeadIdx 0 .tail
  have hh := Machine.storeRelease_latest (m := c.mem) (t := .consumer) (k := .head) nextHeadIdx 0 .head
  rw [if_neg (by decide)] at ht
  rw [if_pos rfl] at hh
  simp only [newest, ht, hh]
  rfl

theorem pushed_publish (c : WeakChannel α) (n : Nat) {input : α} {tailIdx nextTailIdx : Nat}
    (hp : c.pushPc = .publish input tailIdx nextTailIdx) :
    (c.continuePush n).newest.pushed.length = c.newest.pushed.length + 1 := by
  rw [continuePush, hp, Channel.pushed]
  exact (congrArg List.length (Channel.pushed_append_true c.newest input)).trans List.length_append

theorem popped_publish (c : WeakChannel α) (n : Nat) {output : α} {nextHeadIdx : Nat}
    (hp : c.popPc = .publish output nextHeadIdx) :
    (c.continuePop n).newest.popped.length = c.newest.popped.length + 1 := by
  rw [continuePop, hp, Channel.popped]
  exact (congrArg List.length (Channel.popped_append_some c.newest output)).trans List.length_append

end WeakChannel

namespace Channel
variable {α : Type*} {k : Nat} {c : Channel α}

/-- A push that goes by an older value of `head_`. -/
theorem Fifo.refreshPush_stale (h : Fifo (2^k) c) {input : α} {tailIdx nextTailIdx n : Nat}
    (hp : c.pushPc = .refresh input tailIdx nextTailIdx) (hn : n ≤ c.popped.length)
    (hroom : c.pushed.length < n + 2^k) :
    Fifo (2^k)
      (if n % 2^k = nextTailIdx then
        { c with queue := { c.queue with cachedHead := n % 2^k }
                 pushPc := .idle, pushes := c.pushes ++ [(input, false)] }
      else { c with queue := { c.queue with cachedHead := n % 2^k }
                    pushPc := .write input tailIdx nextTailIdx }) := by
  have hle := h.le
  have hok := h.push
  rw [hp] at hok
  obtain ⟨ht, hnext⟩ := hok
  have hbound : HeadBound (2^k) c.pushed.length c.popped.length (n % 2^k) := ⟨n, hn, rfl, hroom⟩
  split_ifs with he
  · refine ⟨h.head, ?_, ?_, ?_, ?_, ?_, ?_, trivial, ?_⟩
    all_goals rw [pushed, pushed_append_false]
    · exact h.tail
    · exact h.room
    · exact hbound
    · exact h.cachedTail
    · exact h.data
    · exact h.ordered
    · exact h.pop
  · rw [hnext, eq_comm] at he
    have hlt := RingIndex.succ_lt_of_mod_ne (by omega) hroom he
    exact ⟨h.head, h.tail, h.room, hbound, h.cachedTail, h.data, h.ordered,
      ⟨ht, hnext, n, hn, rfl, hlt⟩, h.pop⟩

/-- A pop that goes by an older value of `tail_`. -/
theorem Fifo.refreshPop_stale (h : Fifo (2^k) c) {headIdx nextHeadIdx n : Nat}
    (hp : c.popPc = .refresh headIdx nextHeadIdx) (hn : n ≤ c.pushed.length)
    (hread : c.popped.length ≤ n) :
    Fifo (2^k)
      (if headIdx = n % 2^k then
        { c with queue := { c.queue with cachedTail := n % 2^k }
                 popPc := .idle, pops := c.pops ++ [none] }
      else { c with queue := { c.queue with cachedTail := n % 2^k }
                    popPc := .read headIdx nextHeadIdx }) := by
  have hroom := h.room
  have hok := h.pop
  rw [hp] at hok
  obtain ⟨hi, hnext⟩ := hok
  have hbound : TailBound (2^k) c.pushed.length c.popped.length (n % 2^k) := ⟨n, hn, hread, rfl⟩
  split_ifs with he
  · refine ⟨?_, h.tail, ?_, ?_, ?_, ?_, ?_, ?_, trivial⟩
    all_goals rw [popped, popped_append_none]
    · exact h.head
    · exact h.room
    · exact h.cachedHead
    · exact hbound
    · exact h.data
    · exact h.ordered
    · exact h.push.mono (Nat.le_refl _) rfl rfl
  · rw [hi, RingIndex.mod_eq_mod_iff hread (by omega)] at he
    have hlt : c.popped.length + 1 ≤ n := by omega
    exact ⟨h.head, h.tail, h.room, h.cachedHead, hbound, h.data, h.ordered,
      h.push.mono (Nat.le_refl _) rfl rfl, ⟨hi, hnext, n, hn, hlt, rfl⟩⟩

end Channel

theorem WeakFifo.new {α : Type*} (k : Nat) (data : Nat → α) : WeakFifo (2^k) (.new data) where
  fifo := Channel.Fifo.new k data
  consistent := Machine.consistent_start _ _
  tails := ⟨rfl, by
    intro n s hs
    obtain ⟨hn, rfl⟩ := List.getElem?_eq_some_iff.mp hs
    obtain rfl : n = 0 := Nat.lt_one_iff.mp hn
    exact ⟨(Nat.zero_mod _).symm, Nat.le_refl 0⟩⟩
  heads := ⟨rfl, by
    intro n s hs
    obtain ⟨hn, rfl⟩ := List.getElem?_eq_some_iff.mp hs
    obtain rfl : n = 0 := Nat.lt_one_iff.mp hn
    exact ⟨(Nat.zero_mod _).symm, Nat.le_refl 0⟩⟩
  producer := ⟨rfl, rfl, (Nat.zero_mod _).symm, Nat.le_refl 0⟩
  consumer := ⟨rfl, rfl, (Nat.zero_mod _).symm, Nat.le_refl 0⟩
  room := Nat.lt_add_of_pos_right (Nat.two_pow_pos k)
  unread := Nat.le_refl 0
  written := fun _ => ⟨Or.inl rfl, rfl⟩
  read := fun _ => ⟨Or.inl rfl, rfl⟩

section Producer
variable {α : Type*} {k : Nat} {c : WeakChannel α}

theorem WeakFifo.seen_head (h : WeakFifo (2^k) c) :
    (c.mem.view .producer).floor .head ≤ c.newest.popped.length := by
  have hlt := (h.consistent.views .producer).1 .head
  rw [h.heads.length] at hlt
  omega

theorem WeakFifo.seen_tail (h : WeakFifo (2^k) c) :
    (c.mem.view .consumer).floor .tail ≤ c.newest.pushed.length := by
  have hlt := (h.consistent.views .consumer).1 .tail
  rw [h.tails.length] at hlt
  omega

theorem WeakFifo.own_tail (h : WeakFifo (2^k) c) {n : Nat}
    (hr : c.mem.Readable .producer .tail n) : n = c.newest.pushed.length := by
  have hlt := hr.2
  have hle := hr.1
  rw [h.tails.length] at hlt
  rw [h.producer.own] at hle
  omega

/-- A load of the producer, of its own index or of the other one. -/
theorem WeakFifo.producerLoad (h : WeakFifo (2^k) c) {v : View QueueThread QueueIndex}
    {cachedHead : Nat} {pc : PushPc α} {pushes : List (α × Bool)}
    (hfifo : Channel.Fifo (2^k)
      { c.newest with queue := { c.newest.queue with cachedHead := cachedHead }
                      pushPc := pc, pushes := pushes })
    (hpushed : (pushes.filter Prod.snd).map Prod.fst = c.newest.pushed)
    (hcovers : c.mem.Covers v)
    (hknows : Knows (2^k) v .producer .consumer .tail .head c.newest.pushed.length
      pc.accessed cachedHead)
    (haccessed : pc.accessed = c.pushPc.accessed)
    (hroom : c.newest.pushed.length + pc.claims < v.floor .head + 2^k) :
    WeakFifo (2^k)
      { c with mem := { c.mem with view := Function.update c.mem.view .producer v }
               cachedHead := cachedHead, pushPc := pc, pushes := pushes } := by
  have hne : QueueThread.consumer ≠ .producer := by decide
  have hclock : v.clock .producer = (c.mem.view .producer).clock .producer := by
    rw [hknows.accessed, haccessed, h.producer.accessed]
  refine ⟨hfifo, h.consistent.learn hcovers hclock, ?_, h.heads, ?_, ?_, ?_, ?_, ?_, h.read⟩
  all_goals simp only [WeakChannel.newest, Channel.pushed, hpushed, haccessed,
    Function.update_self, Function.update_of_ne hne]
  · exact h.tails
  · rw [← haccessed]
    exact hknows
  · exact h.consumer
  · exact hroom
  · exact h.unread
  · exact h.written

theorem WeakFifo.beginPush (h : WeakFifo (2^k) c) {n : Nat}
    (hr : c.mem.Readable .producer .tail n) (input : α) (hidle : c.pushPc = .idle) :
    WeakFifo (2^k) (c.beginPush (2^k) n input) := by
  have hn := h.own_tail hr
  have hlast : c.mem.valueAt .tail n 0 = c.newest.queue.tail := by
    rw [hn, ← Nat.add_sub_cancel (n := c.newest.pushed.length) (m := 1), ← h.tails.length]
    rfl
  have hfifo := h.fifo.beginPush input
  have htail := h.fifo.tail
  have hle := h.fifo.le
  have hseen := h.seen_head
  have hroom := h.room
  rw [hidle, PushPc.claims] at hroom
  have hcovers := (h.consistent.views .producer).raise hr.2
  have hknows : Knows (2^k) ((c.mem.view .producer).raise .tail n) .producer .consumer .tail .head
      c.newest.pushed.length 0 c.cachedHead := by
    have hp := h.producer
    rw [hidle] at hp
    exact ⟨by rw [Machine.raise_floor, if_pos rfl, hn], hp.accessed, hp.cached, hp.known⟩
  rw [Channel.beginPush] at hfifo
  rw [WeakChannel.beginPush]
  dsimp only at hfifo ⊢
  rw [hlast]
  have hcache : c.newest.queue.cachedHead = c.cachedHead := rfl
  rw [hcache] at hfifo
  split_ifs with hfull
  · rw [if_pos hfull] at hfifo
    exact h.producerLoad hfifo rfl hcovers hknows (by rw [hidle]; rfl) hroom
  · rw [if_neg hfull] at hfifo
    refine h.producerLoad hfifo rfl hcovers hknows (by rw [hidle]; rfl) ?_
    rw [htail, Channel.nextIdx_mod, h.producer.cached, eq_comm] at hfull
    rw [Machine.raise_floor, if_neg (by decide)]
    exact RingIndex.succ_lt_of_mod_ne (by omega) hroom hfull

/-- The load of `head_` returns a store that the producer has not gone past. -/
theorem WeakFifo.refreshPush (h : WeakFifo (2^k) c) {n : Nat}
    (hr : c.mem.Readable .producer .head n) {input : α} {tailIdx nextTailIdx : Nat}
    (hp : c.pushPc = .refresh input tailIdx nextTailIdx) : WeakFifo (2^k) (c.continuePush n) := by
  have hlt := hr.2
  rw [h.heads.length] at hlt
  have hn : n ≤ c.newest.popped.length := by omega
  obtain ⟨s, hs⟩ := hr.store
  have hfloor := h.consistent.own .head n s hs
  obtain ⟨-, hclock⟩ := h.heads.store n s hs
  have hcovers := h.consistent.stores .head s (List.mem_of_getElem? hs)
  have hseen := hr.1
  have hle := h.fifo.le
  have hknown := h.producer
  have hroom := h.room
  rw [hp] at hknown hroom
  rw [PushPc.claims] at hroom
  have hroom' : c.newest.pushed.length < n + 2^k := by omega
  obtain ⟨hknows, hhead⟩ := hknown.acquire hr.1
    (by have hlen := h.tails.length; have hlt := hcovers.1 .tail; omega)
    (by have hacc := hknown.accessed; rw [PushPc.accessed] at hacc; have := hcovers.2 .producer; omega)
    hfloor hclock
  have hfifo := h.fifo.refreshPush_stale hp hn hroom'
  have hview := (h.consistent.views .producer).join hcovers
  rw [WeakChannel.continuePush, hp]
  dsimp only
  rw [h.heads.valueAt hn, h.consistent.loadAcquire_eq hr hs]
  split_ifs with hfull
  · rw [if_pos hfull] at hfifo
    refine h.producerLoad hfifo (Channel.pushed_append_false c.newest input) hview hknows
      (by rw [hp]; rfl) ?_
    rw [hhead]
    exact hroom'
  · rw [if_neg hfull] at hfifo
    refine h.producerLoad hfifo rfl hview hknows (by rw [hp]; rfl) ?_
    have hok := h.fifo.push
    have hp' : c.newest.pushPc = .refresh input tailIdx nextTailIdx := hp
    rw [hp'] at hok
    rw [hok.2, eq_comm] at hfull
    rw [hhead]
    exact RingIndex.succ_lt_of_mod_ne (by omega) hroom' hfull

/-- The slot's last reader has finished its call before the producer comes round to it. -/
theorem WeakFifo.write_ordered (h : WeakFifo (2^k) c) {input : α} {tailIdx nextTailIdx : Nat}
    (hp : c.pushPc = .write input tailIdx nextTailIdx) :
    c.mem.WriteOrdered .producer tailIdx := by
  have hok := h.fifo.push
  have hp' : c.newest.pushPc = .write input tailIdx nextTailIdx := hp
  rw [hp'] at hok
  have hroom := h.room
  rw [hp, PushPc.claims] at hroom
  have hknown := h.producer.known
  intro u
  cases u with
  | producer =>
    obtain ⟨hw, -⟩ := h.consistent.cells tailIdx .producer
    rw [(h.read tailIdx).2]
    exact ⟨hw, Nat.zero_le _⟩
  | consumer =>
    rw [(h.written tailIdx).2]
    refine ⟨Nat.zero_le _, ?_⟩
    have hbehind : c.newest.popped.length + c.popPc.accessed ≤ c.newest.pushed.length := by
      have hunread := h.unread
      have hseen := h.seen_tail
      have hle := c.popPc.accessed_le_claims
      omega
    obtain h0 | hlap := (h.read tailIdx).1.lap hbehind hok.1
    · omega
    · omega

theorem WeakFifo.writePush (h : WeakFifo (2^k) c) (n : Nat) {input : α} {tailIdx nextTailIdx : Nat}
    (hp : c.pushPc = .write input tailIdx nextTailIdx) : WeakFifo (2^k) (c.continuePush n) := by
  have hne : QueueThread.consumer ≠ .producer := by decide
  have hp' : c.newest.pushPc = .write input tailIdx nextTailIdx := hp
  have hok := h.fifo.push
  rw [hp'] at hok
  have hfifo := h.fifo.writePush hp'
  rw [Channel.continuePush, hp'] at hfifo
  have hknown := h.producer
  have hroom := h.room
  have hwritten := h.written
  rw [hp] at hknown hroom hwritten
  rw [WeakChannel.continuePush, hp]
  refine ⟨?_, h.consistent.writeCells, h.tails, h.heads, ?_, ?_, ?_, ?_, ?_, ?_⟩
  · rw [WeakChannel.newest_write]
    exact hfifo
  all_goals simp only [Machine.writeCell, Machine.writeCells_view_self,
    Machine.writeCells_view_of_ne hne, Machine.writeCells_cell_read,
    Machine.writeCells_cell_written_self, Machine.writeCells_cell_written_of_ne hne]
  · exact hknown.access hne
  · exact h.consumer
  · exact hroom
  · exact h.unread
  · intro j
    refine ⟨?_, (h.written j).2⟩
    by_cases hj : j = tailIdx
    · rw [if_pos hj, Option.isSome_some, if_pos rfl, hj, hknown.accessed, hok.1]
      exact Touched.succ _ _
    · rw [if_neg hj, Option.isSome_none, if_neg Bool.false_ne_true]
      exact (hwritten j).1.mono (Nat.le_succ _)
  · exact h.read

theorem WeakFifo.publishPush (h : WeakFifo (2^k) c) (n : Nat) {input : α}
    {tailIdx nextTailIdx : Nat} (hp : c.pushPc = .publish input tailIdx nextTailIdx) :
    WeakFifo (2^k) (c.continuePush n) := by
  have hne : QueueThread.consumer ≠ .producer := by decide
  have hk : QueueIndex.head ≠ .tail := by decide
  have hp' : c.newest.pushPc = .publish input tailIdx nextTailIdx := hp
  have hok := h.fifo.push
  rw [hp'] at hok
  have hfifo := h.fifo.publishPush hp'
  rw [Channel.continuePush, hp'] at hfifo
  have hknown := h.producer
  have hroom := h.room
  have hwritten := h.written
  rw [hp] at hknown hroom hwritten
  have hlen := c.pushed_publish n hp
  rw [WeakChannel.continuePush, hp] at hlen ⊢
  refine ⟨?_, h.consistent.storeRelease nextTailIdx, ?_, ?_, ?_, ?_, ?_, ?_, ?_, h.read⟩
  · rw [WeakChannel.newest_publishPush]
    exact hfifo
  all_goals simp only [hlen, h.tails.length, Machine.storeRelease_view_self,
    Machine.storeRelease_view_of_ne hne, Machine.storeRelease_stores_self,
    Machine.storeRelease_stores_of_ne hk]
  · exact h.tails.append hok.2.1 (Nat.le_of_eq hknown.accessed.symm)
  · exact h.heads
  · exact hknown.publish hk
  · exact h.consumer
  · rw [Machine.raise_floor, if_neg hk]
    exact hroom
  · exact h.unread
  · exact hwritten

end Producer

section Consumer
variable {α : Type*} {k : Nat} {c : WeakChannel α}

theorem WeakFifo.own_head (h : WeakFifo (2^k) c) {n : Nat}
    (hr : c.mem.Readable .consumer .head n) : n = c.newest.popped.length := by
  have hlt := hr.2
  have hle := hr.1
  rw [h.heads.length] at hlt
  rw [h.consumer.own] at hle
  omega

/-- A load of the consumer, of its own index or of the other one. -/
theorem WeakFifo.consumerLoad (h : WeakFifo (2^k) c) {v : View QueueThread QueueIndex}
    {cachedTail : Nat} {pc : PopPc α} {pops : List (Option α)}
    (hfifo : Channel.Fifo (2^k)
      { c.newest with queue := { c.newest.queue with cachedTail := cachedTail }
                      popPc := pc, pops := pops })
    (hpopped : pops.filterMap id = c.newest.popped)
    (hcovers : c.mem.Covers v)
    (hknows : Knows (2^k) v .consumer .producer .head .tail c.newest.popped.length
      pc.accessed cachedTail)
    (haccessed : pc.accessed = c.popPc.accessed)
    (hunread : c.newest.popped.length + pc.claims ≤ v.floor .tail) :
    WeakFifo (2^k)
      { c with mem := { c.mem with view := Function.update c.mem.view .consumer v }
               cachedTail := cachedTail, popPc := pc, pops := pops } := by
  have hne : QueueThread.producer ≠ .consumer := by decide
  have hclock : v.clock .consumer = (c.mem.view .consumer).clock .consumer := by
    rw [hknows.accessed, haccessed, h.consumer.accessed]
  refine ⟨hfifo, h.consistent.learn hcovers hclock, h.tails, ?_, ?_, ?_, ?_, ?_, h.written, ?_⟩
  all_goals simp only [WeakChannel.newest, Channel.popped, hpopped, haccessed,
    Function.update_self, Function.update_of_ne hne]
  · exact h.heads
  · exact h.producer
  · rw [← haccessed]
    exact hknows
  · exact h.room
  · exact hunread
  · exact h.read

theorem WeakFifo.beginPop (h : WeakFifo (2^k) c) {n : Nat}
    (hr : c.mem.Readable .consumer .head n) (hidle : c.popPc = .idle) :
    WeakFifo (2^k) (c.beginPop (2^k) n) := by
  have hn := h.own_head hr
  have hlast : c.mem.valueAt .head n 0 = c.newest.queue.head := by
    rw [hn, ← Nat.add_sub_cancel (n := c.newest.popped.length) (m := 1), ← h.heads.length]
    rfl
  have hfifo := h.fifo.beginPop
  have hhead := h.fifo.head
  have hroom := h.fifo.room
  have hseen := h.seen_tail
  have hunread := h.unread
  rw [hidle, PopPc.claims, Nat.add_zero] at hunread
  have hcovers := (h.consistent.views .consumer).raise hr.2
  have hknows : Knows (2^k) ((c.mem.view .consumer).raise .head n) .consumer .producer .head .tail
      c.newest.popped.length 0 c.cachedTail := by
    have hp := h.consumer
    rw [hidle] at hp
    exact ⟨by rw [Machine.raise_floor, if_pos rfl, hn], hp.accessed, hp.cached, hp.known⟩
  rw [Channel.beginPop] at hfifo
  rw [WeakChannel.beginPop]
  dsimp only at hfifo ⊢
  rw [hlast]
  have hcache : c.newest.queue.cachedTail = c.cachedTail := rfl
  rw [hcache] at hfifo
  split_ifs with hempty
  · rw [if_pos hempty] at hfifo
    exact h.consumerLoad hfifo rfl hcovers hknows (by rw [hidle]; rfl) hunread
  · rw [if_neg hempty] at hfifo
    refine h.consumerLoad hfifo rfl hcovers hknows (by rw [hidle]; rfl) ?_
    rw [hhead, h.consumer.cached, RingIndex.mod_eq_mod_iff hunread (by omega)] at hempty
    rw [Machine.raise_floor, if_neg (by decide), PopPc.claims]
    omega

/-- The load of `tail_` returns a store that the consumer has not gone past. -/
theorem WeakFifo.refreshPop (h : WeakFifo (2^k) c) {n : Nat}
    (hr : c.mem.Readable .consumer .tail n) {headIdx nextHeadIdx : Nat}
    (hp : c.popPc = .refresh headIdx nextHeadIdx) : WeakFifo (2^k) (c.continuePop n) := by
  have hlt := hr.2
  rw [h.tails.length] at hlt
  have hn : n ≤ c.newest.pushed.length := by omega
  obtain ⟨s, hs⟩ := hr.store
  have hfloor := h.consistent.own .tail n s hs
  obtain ⟨-, hclock⟩ := h.tails.store n s hs
  have hcovers := h.consistent.stores .tail s (List.mem_of_getElem? hs)
  have hseen := hr.1
  have hroom := h.fifo.room
  have hknown := h.consumer
  have hunread := h.unread
  rw [hp] at hknown hunread
  rw [PopPc.claims] at hunread
  have hread : c.newest.popped.length ≤ n := by omega
  obtain ⟨hknows, htail⟩ := hknown.acquire hr.1
    (by have hlen := h.heads.length; have hlt := hcovers.1 .head; omega)
    (by have hacc := hknown.accessed; rw [PopPc.accessed] at hacc; have := hcovers.2 .consumer; omega)
    hfloor hclock
  have hfifo := h.fifo.refreshPop_stale hp hn hread
  have hview := (h.consistent.views .consumer).join hcovers
  rw [WeakChannel.continuePop, hp]
  dsimp only
  rw [h.tails.valueAt hn, h.consistent.loadAcquire_eq hr hs]
  split_ifs with hempty
  · rw [if_pos hempty] at hfifo
    refine h.consumerLoad hfifo (Channel.popped_append_none c.newest) hview hknows
      (by rw [hp]; rfl) ?_
    rw [htail]
    exact hread
  · rw [if_neg hempty] at hfifo
    refine h.consumerLoad hfifo rfl hview hknows (by rw [hp]; rfl) ?_
    have hok := h.fifo.pop
    have hp' : c.newest.popPc = .refresh headIdx nextHeadIdx := hp
    rw [hp'] at hok
    rw [hok.1, RingIndex.mod_eq_mod_iff hread (by omega)] at hempty
    rw [htail, PopPc.claims]
    omega

/-- The slot's last writer has published what it wrote, and has not come round again. -/
theorem WeakFifo.read_ordered (h : WeakFifo (2^k) c) {headIdx nextHeadIdx : Nat}
    (hp : c.popPc = .read headIdx nextHeadIdx) : c.mem.ReadOrdered .consumer headIdx := by
  have hok := h.fifo.pop
  have hp' : c.newest.popPc = .read headIdx nextHeadIdx := hp
  rw [hp'] at hok
  have hunread := h.unread
  rw [hp, PopPc.claims] at hunread
  have hknown := h.consumer.known
  intro u
  cases u with
  | producer =>
    have hahead : c.newest.pushed.length + c.pushPc.accessed ≤ c.newest.popped.length + 2^k := by
      have hroom := h.room
      have hseen := h.seen_head
      have hle := c.pushPc.accessed_le_claims
      omega
    have hle := (h.written headIdx).1.le hahead hok.1
    omega
  | consumer =>
    rw [(h.written headIdx).2]
    exact Nat.zero_le _

theorem WeakFifo.readPop (h : WeakFifo (2^k) c) (n : Nat) {headIdx nextHeadIdx : Nat}
    (hp : c.popPc = .read headIdx nextHeadIdx) : WeakFifo (2^k) (c.continuePop n) := by
  have hne : QueueThread.producer ≠ .consumer := by decide
  have hp' : c.newest.popPc = .read headIdx nextHeadIdx := hp
  have hok := h.fifo.pop
  rw [hp'] at hok
  have hfifo := h.fifo.readPop hp'
  rw [Channel.continuePop, hp'] at hfifo
  have hknown := h.consumer
  have hunread := h.unread
  have hread := h.read
  rw [hp] at hknown hunread hread
  rw [WeakChannel.continuePop, hp]
  refine ⟨?_, h.consistent.readCells, h.tails, h.heads, ?_, ?_, ?_, ?_, ?_, ?_⟩
  · rw [WeakChannel.newest_read]
    exact hfifo
  all_goals simp only [Machine.readCell, Machine.readCells_view_self,
    Machine.readCells_view_of_ne hne, Machine.readCells_cell_written,
    Machine.readCells_cell_read_self, Machine.readCells_cell_read_of_ne hne]
  · exact h.producer
  · exact hknown.access hne
  · exact h.room
  · exact hunread
  · exact h.written
  · intro j
    refine ⟨?_, (h.read j).2⟩
    split_ifs with hj
    · rw [of_decide_eq_true hj, hknown.accessed, hok.1]
      exact Touched.succ _ _
    · exact (hread j).1.mono (Nat.le_succ _)

theorem WeakFifo.publishPop (h : WeakFifo (2^k) c) (n : Nat) {output : α} {nextHeadIdx : Nat}
    (hp : c.popPc = .publish output nextHeadIdx) : WeakFifo (2^k) (c.continuePop n) := by
  have hne : QueueThread.producer ≠ .consumer := by decide
  have hk : QueueIndex.tail ≠ .head := by decide
  have hp' : c.newest.popPc = .publish output nextHeadIdx := hp
  have hok := h.fifo.pop
  rw [hp'] at hok
  have hfifo := h.fifo.publishPop hp'
  rw [Channel.continuePop, hp'] at hfifo
  have hknown := h.consumer
  have hunread := h.unread
  have hread := h.read
  rw [hp] at hknown hunread hread
  have hlen := c.popped_publish n hp
  rw [WeakChannel.continuePop, hp] at hlen ⊢
  refine ⟨?_, h.consistent.storeRelease nextHeadIdx, ?_, ?_, ?_, ?_, ?_, ?_, h.written, ?_⟩
  · rw [WeakChannel.newest_publishPop]
    exact hfifo
  all_goals simp only [hlen, h.heads.length, Machine.storeRelease_view_self,
    Machine.storeRelease_view_of_ne hne, Machine.storeRelease_stores_self,
    Machine.storeRelease_stores_of_ne hk]
  · exact h.tails
  · exact h.heads.append hok.1 (Nat.le_of_eq hknown.accessed.symm)
  · exact h.producer
  · exact hknown.publish hk
  · exact h.room
  · rw [Machine.raise_floor, if_neg hk]
    exact hunread
  · exact hread

end Consumer

end MarketDataBook
