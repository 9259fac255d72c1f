import MarketDataBook.Library.StepRun
import MarketDataBook.LimitOrderBook

/-! The plain reference book: the resting orders in order of arrival and nothing else.
The FIFO queue of one side and price is a sublist of it. -/
namespace MarketDataBook

structure Resting where
  side : Side
  price : BitVec 32
  id : BitVec 64
  shares : BitVec 32
  deriving DecidableEq

def NormalizedAddOrder.resting (order : NormalizedAddOrder) : Resting :=
  ⟨order.side, order.price, order.orderReferenceNumber, order.shares⟩

abbrev ReferenceBook := List Resting

namespace ReferenceBook

def queue (ref : ReferenceBook) (s : Side) (p : BitVec 32) : List (BitVec 64 × BitVec 32) :=
  (ref.filter fun r => r.side = s ∧ r.price = p).map fun r => (r.id, r.shares)

def prices (ref : ReferenceBook) (s : Side) : List Nat :=
  (ref.filter fun r => r.side = s).map fun r => r.price.toNat

def bestBid (ref : ReferenceBook) : Nat := (ref.prices .buy).max?.getD npos
def bestOffer (ref : ReferenceBook) : Nat := (ref.prices .sell).min?.getD npos

def add (maxOrders : Nat) (ref : ReferenceBook) (order : NormalizedAddOrder) : ReferenceBook :=
  if maxTicks ≤ order.price.toNat ∨ maxOrders ≤ ref.length then ref
  else ref ++ [order.resting]

def cancel (ref : ReferenceBook) (orderId : BitVec 64) : ReferenceBook :=
  ref.filter fun r => r.id ≠ orderId

/-- Take `shares` off one order, which keeps its place. -/
def reduce (ref : ReferenceBook) (orderId : BitVec 64) (shares : BitVec 32) : ReferenceBook :=
  ref.map fun r => if r.id = orderId then { r with shares := r.shares - shares } else r

def execute (ref : ReferenceBook) (order : NormalizedOrderExecuted) : ReferenceBook × Outcome :=
  match ref.find? fun r => r.id = order.orderReferenceNumber with
  | none => (ref, .returned)
  | some r =>
    if r.shares < order.shares then (ref, overExecution)
    else if r.shares = order.shares then (ref.cancel order.orderReferenceNumber, .returned)
    else (ref.reduce order.orderReferenceNumber order.shares, .returned)

def step (maxOrders : Nat) (ref : ReferenceBook) : BookCall → ReferenceBook × Outcome
  | .add order => (ref.add maxOrders order, .returned)
  | .cancel orderId => (ref.cancel orderId, .returned)
  | .execute order => ref.execute order

def run (maxOrders : Nat) (ref : ReferenceBook) : List BookCall → ReferenceBook × List Outcome
  | [] => (ref, [])
  | c::cs =>
    let (ref', o) := ref.step maxOrders c
    let (ref'', os) := run maxOrders ref' cs
    (ref'', o::os)

/-- The feed's guarantee: no add uses a reference number that is resting. -/
def Fresh (ref : ReferenceBook) : BookCall → Prop
  | .add order => ∀ r ∈ ref, r.id ≠ order.orderReferenceNumber
  | .cancel _ => True
  | .execute _ => True

instance decidableFresh (ref : ReferenceBook) : (c : BookCall) → Decidable (ref.Fresh c)
  | .add order => inferInstanceAs (Decidable (∀ r ∈ ref, r.id ≠ order.orderReferenceNumber))
  | .cancel _ => isTrue trivial
  | .execute _ => isTrue trivial

def after (maxOrders : Nat) (ref : ReferenceBook) (c : BookCall) : ReferenceBook :=
  (ref.step maxOrders c).1

def FreshAdds (maxOrders : Nat) (ref : ReferenceBook) (calls : List BookCall) : Prop :=
  StepRun.Along (after maxOrders) Fresh ref calls

instance decidableFreshAdds (maxOrders : Nat) (ref : ReferenceBook) (calls : List BookCall) :
    Decidable (ref.FreshAdds maxOrders calls) :=
  inferInstanceAs (Decidable (StepRun.Along (after maxOrders) Fresh ref calls))

def Admits (maxOrders : Nat) (ref : ReferenceBook) : BookCall → Prop
  | .add order => order.price.toNat < maxTicks → ref.length < maxOrders →
      ∀ r ∈ ref, r.id ≠ order.orderReferenceNumber
  | .cancel _ => True
  | .execute _ => True

theorem Fresh.admits {maxOrders : Nat} {ref : ReferenceBook} {c : BookCall} (h : ref.Fresh c) :
    ref.Admits maxOrders c := by
  cases c with
  | add order => exact fun _ _ => h
  | cancel id => trivial
  | execute order => trivial

/-- A call invents no reference number. -/
theorem mem_after {maxOrders : Nat} {ref : ReferenceBook} {c : BookCall} {r : Resting}
    (h : r ∈ ref.after maxOrders c) : (∃ q ∈ ref, q.id = r.id) ∨
      ∃ order, c = .add order ∧ order.orderReferenceNumber = r.id := by
  have hcancel : ∀ id, r ∈ ref.cancel id → ∃ q ∈ ref, q.id = r.id := fun id hr =>
    ⟨r, (List.mem_filter.mp hr).1, rfl⟩
  cases c with
  | add order =>
    simp only [after, step, add] at h
    split_ifs at h
    · exact Or.inl ⟨r, h, rfl⟩
    · obtain h | h := List.mem_append.mp h
      · exact Or.inl ⟨r, h, rfl⟩
      · exact Or.inr ⟨order, rfl, by rw [List.mem_singleton.mp h]; rfl⟩
  | cancel id => exact Or.inl (hcancel id h)
  | execute order =>
    left
    simp only [after, step, execute] at h
    split at h
    · exact ⟨r, h, rfl⟩
    · split_ifs at h
      · exact ⟨r, h, rfl⟩
      · exact hcancel _ h
      · obtain ⟨q, hq, rfl⟩ := List.mem_map.mp h
        refine ⟨q, hq, ?_⟩
        split_ifs <;> rfl

theorem mem_run {maxOrders : Nat} {ref : ReferenceBook} {calls : List BookCall} {r : Resting}
    (h : r ∈ calls.foldl (after maxOrders) ref) : (∃ q ∈ ref, q.id = r.id) ∨
      ∃ order, .add order ∈ calls ∧ order.orderReferenceNumber = r.id := by
  induction calls generalizing ref with
  | nil => exact Or.inl ⟨r, h, rfl⟩
  | cons c cs ih =>
    obtain ⟨q, hq, he⟩ | ⟨order, ho, he⟩ := ih h
    · obtain ⟨q', hq', he'⟩ | ⟨order, rfl, he'⟩ := mem_after hq
      · exact Or.inl ⟨q', hq', he'.trans he⟩
      · exact Or.inr ⟨order, List.mem_cons_self, he'.trans he⟩
    · exact Or.inr ⟨order, List.mem_cons_of_mem c ho, he⟩

theorem mem_cancel_all {maxOrders : Nat} {ref : ReferenceBook} {ids : List (BitVec 64)}
    {r : Resting} (h : r ∈ (ids.map BookCall.cancel).foldl (after maxOrders) ref) :
    r ∈ ref ∧ r.id ∉ ids := by
  induction ids generalizing ref with
  | nil => exact ⟨h, List.not_mem_nil⟩
  | cons id ids ih =>
    obtain ⟨hr, hid⟩ := ih h
    obtain ⟨hr, hne⟩ := List.mem_filter.mp hr
    exact ⟨hr, List.not_mem_cons_of_ne_of_not_mem (of_decide_eq_true hne) hid⟩

theorem queue_add (maxOrders : Nat) (ref : ReferenceBook) (order : NormalizedAddOrder) (s : Side)
    (p : BitVec 32) (hp : order.price.toNat < maxTicks) (hl : ref.length < maxOrders) :
    (ref.add maxOrders order).queue s p =
      if order.side = s ∧ order.price = p
      then ref.queue s p ++ [(order.orderReferenceNumber, order.shares)] else ref.queue s p := by
  have hno : ¬ (maxTicks ≤ order.price.toNat ∨ maxOrders ≤ ref.length) := by omega
  rw [add, if_neg hno, queue, List.filter_append, List.map_append]
  split_ifs with h
  · simp [queue, NormalizedAddOrder.resting, h]
  · simp [queue, NormalizedAddOrder.resting, h]

theorem queue_cancel (ref : ReferenceBook) (orderId : BitVec 64) (s : Side) (p : BitVec 32) :
    (ref.cancel orderId).queue s p = (ref.queue s p).filter fun e => e.1 ≠ orderId := by
  rw [queue, queue, cancel, List.filter_map, List.filter_filter, List.filter_filter]
  congr 1
  apply List.filter_congr
  intro r _
  simp [Bool.and_comm]

/-- An execution that leaves shares behind changes one entry of one queue in place. -/
theorem queue_reduce (ref : ReferenceBook) (orderId : BitVec 64) (shares : BitVec 32) (s : Side)
    (p : BitVec 32) : (ref.reduce orderId shares).queue s p =
      (ref.queue s p).map fun e => if e.1 = orderId then (e.1, e.2 - shares) else e := by
  have hkeep : (ref.filter fun r => (if r.id = orderId then { r with shares := r.shares - shares }
      else r).side = s ∧ (if r.id = orderId then { r with shares := r.shares - shares }
      else r).price = p) = ref.filter fun r => r.side = s ∧ r.price = p := by
    apply List.filter_congr
    intro r _
    split_ifs <;> rfl
  rw [queue, reduce, List.filter_map, Function.comp_def, hkeep, queue, List.map_map, List.map_map]
  apply List.map_congr_left
  intro r _
  simp only [Function.comp_apply]
  split_ifs <;> rfl

theorem cancel_of_absent {ref : ReferenceBook} {orderId : BitVec 64}
    (h : ∀ r ∈ ref, r.id ≠ orderId) : ref.cancel orderId = ref := by
  rw [cancel, List.filter_eq_self]
  intro r hr
  exact decide_eq_true (h r hr)

theorem execute_of_absent {ref : ReferenceBook} {order : NormalizedOrderExecuted}
    (h : ∀ r ∈ ref, r.id ≠ order.orderReferenceNumber) :
    ref.execute order = (ref, .returned) := by
  have hf : ref.find? (fun r => r.id = order.orderReferenceNumber) = none := by
    rw [List.find?_eq_none]
    intro r hr
    simpa using h r hr
  rw [execute, hf]

theorem cancel_reduce (ref : ReferenceBook) (orderId : BitVec 64) (shares : BitVec 32) :
    (ref.reduce orderId shares).cancel orderId = ref.cancel orderId := by
  induction ref with
  | nil => rfl
  | cons r rs ih =>
    simp only [cancel, reduce, List.map_cons, List.filter_cons] at ih ⊢
    by_cases hr : r.id = orderId
    · simpa [hr] using ih
    · simpa [hr] using ih

end ReferenceBook
end MarketDataBook
