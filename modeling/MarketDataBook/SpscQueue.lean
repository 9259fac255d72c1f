import MarketDataBook.Library.RingIndex
import MarketDataBook.Library.StepRun
import Mathlib.Logic.Function.Iterate

/-! `utils/spscqueue.h`. The calls `push` and `pop` as the code computes them alone, and cut
into their individual accesses to the shared indices and slots, so that the two threads can
be interleaved at every access. -/
namespace MarketDataBook

structure SPSCQueue (α : Type*) where
  tail : Nat
  cachedHead : Nat
  head : Nat
  cachedTail : Nat
  data : Nat → α

namespace SPSCQueue
variable {α : Type*}

/-- The constructed queue; the slots hold whatever their constructors left. -/
def new (data : Nat → α) : SPSCQueue α := ⟨0, 0, 0, 0, data⟩

def nextIdx (size idx : Nat) : Nat := (idx + 1) &&& (size - 1)

def push (size : Nat) (q : SPSCQueue α) (input : α) : SPSCQueue α × Bool :=
  let tailIdx := q.tail
  let nextTailIdx := nextIdx size tailIdx
  let q := if q.cachedHead = nextTailIdx then { q with cachedHead := q.head } else q
  if q.cachedHead = nextTailIdx then (q, false)
  else ({ q with data := Function.update q.data tailIdx input, tail := nextTailIdx }, true)

def pop (size : Nat) (q : SPSCQueue α) : SPSCQueue α × Option α :=
  let headIdx := q.head
  let nextHeadIdx := nextIdx size headIdx
  let q := if headIdx = q.cachedTail then { q with cachedTail := q.tail } else q
  if headIdx = q.cachedTail then (q, none)
  else ({ q with head := nextHeadIdx }, some (q.data headIdx))

end SPSCQueue

/-- Where the producer stands inside `push`; every state but `idle` names the access it
makes next. -/
inductive PushPc (α : Type*) where
  | idle
  | refresh (input : α) (tailIdx nextTailIdx : Nat)
  | write (input : α) (tailIdx nextTailIdx : Nat)
  | publish (input : α) (tailIdx nextTailIdx : Nat)

inductive PopPc (α : Type*) where
  | idle
  | refresh (headIdx nextHeadIdx : Nat)
  | read (headIdx nextHeadIdx : Nat)
  | publish (output : α) (nextHeadIdx : Nat)

/-- The queue with both threads' positions and the calls that have returned: each `push`
with its argument and result, each `pop` with the value it delivered. -/
structure Channel (α : Type*) where
  queue : SPSCQueue α
  pushPc : PushPc α
  popPc : PopPc α
  pushes : List (α × Bool)
  pops : List (Option α)

namespace Channel
variable {α : Type*}

def new (data : Nat → α) : Channel α := ⟨.new data, .idle, .idle, [], []⟩

def beginPush (size : Nat) (c : Channel α) (input : α) : Channel α :=
  let tailIdx := c.queue.tail
  let nextTailIdx := SPSCQueue.nextIdx size tailIdx
  if c.queue.cachedHead = nextTailIdx then
    { c with pushPc := .refresh input tailIdx nextTailIdx }
  else { c with pushPc := .write input tailIdx nextTailIdx }

def continuePush (c : Channel α) : Channel α :=
  match c.pushPc with
  | .idle => c
  | .refresh input tailIdx nextTailIdx =>
    let c := { c with queue := { c.queue with cachedHead := c.queue.head } }
    if c.queue.cachedHead = nextTailIdx then
      { c with pushPc := .idle, pushes := c.pushes ++ [(input, false)] }
    else { c with pushPc := .write input tailIdx nextTailIdx }
  | .write input tailIdx nextTailIdx =>
    { c with queue := { c.queue with data := Function.update c.queue.data tailIdx input }
             pushPc := .publish input tailIdx nextTailIdx }
  | .publish input _ nextTailIdx =>
    { c with queue := { c.queue with tail := nextTailIdx }
             pushPc := .idle
             pushes := c.pushes ++ [(input, true)] }

def beginPop (size : Nat) (c : Channel α) : Channel α :=
  let headIdx := c.queue.head
  let nextHeadIdx := SPSCQueue.nextIdx size headIdx
  if headIdx = c.queue.cachedTail then { c with popPc := .refresh headIdx nextHeadIdx }
  else { c with popPc := .read headIdx nextHeadIdx }

def continuePop (c : Channel α) : Channel α :=
  match c.popPc with
  | .idle => c
  | .refresh headIdx nextHeadIdx =>
    let c := { c with queue := { c.queue with cachedTail := c.queue.tail } }
    if headIdx = c.queue.cachedTail then
      { c with popPc := .idle, pops := c.pops ++ [none] }
    else { c with popPc := .read headIdx nextHeadIdx }
  | .read headIdx nextHeadIdx =>
    { c with popPc := .publish (c.queue.data headIdx) nextHeadIdx }
  | .publish output nextHeadIdx =>
    { c with queue := { c.queue with head := nextHeadIdx }
             popPc := .idle
             pops := c.pops ++ [some output] }

def pushed (c : Channel α) : List α := (c.pushes.filter Prod.snd).map Prod.fst

def popped (c : Channel α) : List α := c.pops.filterMap id

/-- A `push` whose accesses are not interleaved with the consumer's is the plain call. -/
theorem push_alone (size : Nat) (c : Channel α) (input : α) :
    ∃ n, continuePush^[n] (c.beginPush size input) =
      { c with queue := (c.queue.push size input).1
               pushPc := .idle
               pushes := c.pushes ++ [(input, (c.queue.push size input).2)] } := by
  by_cases hc : c.queue.cachedHead = SPSCQueue.nextIdx size c.queue.tail
  · by_cases hh : c.queue.head = SPSCQueue.nextIdx size c.queue.tail
    · exact ⟨1, by simp [beginPush, continuePush, SPSCQueue.push, hc, hh]⟩
    · exact ⟨3, by simp [beginPush, continuePush, SPSCQueue.push, hc, hh]⟩
  · exact ⟨2, by simp [beginPush, continuePush, SPSCQueue.push, hc]⟩

theorem pop_alone (size : Nat) (c : Channel α) :
    ∃ n, continuePop^[n] (c.beginPop size) =
      { c with queue := (c.queue.pop size).1
               popPc := .idle
               pops := c.pops ++ [(c.queue.pop size).2] } := by
  by_cases hc : c.queue.head = c.queue.cachedTail
  · by_cases hh : c.queue.cachedTail = c.queue.tail
    · exact ⟨1, by simp [beginPop, continuePop, SPSCQueue.pop, hc, hh]⟩
    · exact ⟨3, by simp [beginPop, continuePop, SPSCQueue.pop, hc, hh]⟩
  · exact ⟨2, by simp [beginPop, continuePop, SPSCQueue.pop, hc]⟩

end Channel
end MarketDataBook
