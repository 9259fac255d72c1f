import MarketDataBook.BlockFraming
import MarketDataBook.MockMode

/-! The correctness check of the repository: built with `CORRECTNESS_CHECK`, `consume` prints the
first ten add orders it takes from the queue, and `tests/verify_itch_file.py` prints the first ten
of the file. The two outputs are compared by hand and differ in the tag of each line. -/
namespace MarketDataBook
open ByteMemory

structure ShownOrder where
  id : Nat
  stock : String
  shares : Nat
  price : Nat

def ShownOrder.line (tag : String) (o : ShownOrder) : String :=
  tag ++ "Add Order -> ID: " ++ toString o.id ++ " | Stock: '" ++ o.stock ++ "' | Shares: " ++
    toString o.shares ++ " | Price: " ++ toString o.price ++ "\n"

def byteChar (b : Byte) : Char := Char.ofNat b.toNat

/-- What `%s` shows of `stock_str`: the bytes in front of the first zero. -/
def stockStr (stock : List Byte) : String :=
  String.ofList ((stock.takeWhile fun b => b ≠ 0#8).map byteChar)

def NormalizedAddOrder.shown (o : NormalizedAddOrder) : ShownOrder :=
  ⟨o.orderReferenceNumber.toNat, stockStr o.stock, o.shares.toNat, o.price.toNat⟩

/-- `run_mock_mode` as built with `CORRECTNESS_CHECK`. -/
structure CheckedMode where
  mode : MockMode
  addCount : Nat
  lines : List String

namespace CheckedMode
variable (size : Nat) (clock : Nat → BitVec 64) (file : List Byte)

def start (data : Nat → NormalizedOrder) (book : LimitOrderBook) : CheckedMode :=
  ⟨.start data book, 0, []⟩

def check (s : CheckedMode) : NormalizedOrder → CheckedMode
  | .addOrder o =>
    if s.addCount < 10 then
      { s with addCount := s.addCount + 1, lines := s.lines ++ [o.shown.line "[C++] "] }
    else s
  | _ => s

def checked (s : CheckedMode) : MockThread → CheckedMode
  | .consume =>
    match s.mode.consumer with
    | .dispatch order => s.check order
    | .pop => s
    | .terminated _ => s
  | .simulate => s
  | .main => s
  | .statistics => s

def step (s : CheckedMode) (t : MockThread) : CheckedMode :=
  { s.checked t with mode := s.mode.step size clock file t }

def run (data : Nat → NormalizedOrder) (book : LimitOrderBook) (schedule : List MockThread) :
    CheckedMode :=
  schedule.foldl (step size clock file) (start data book)

end CheckedMode

inductive PyEnding where
  | completed
  | raised (exception : String)
  deriving DecidableEq

structure PyRun where
  lines : List String
  ending : PyEnding

def decodeAscii (bytes : List Byte) : Option String :=
  if ∀ b ∈ bytes, b.toNat < 128 then some (String.ofList (bytes.map byteChar)) else none

/-- `struct.unpack(">cHH6sQcI8sI", payload)` and the two `decode` calls. -/
def unpackAddOrder (payload : List Byte) : Except String ShownOrder :=
  if payload.length ≠ 36 then .error "struct.error"
  else
    match decodeAscii ((payload.drop 19).take 1), decodeAscii ((payload.drop 24).take 8) with
    | some _, some stock =>
      .ok ⟨bigEndian ((payload.drop 11).take 8), stock, bigEndian ((payload.drop 20).take 4),
        bigEndian ((payload.drop 32).take 4)⟩
    | _, _ => .error "UnicodeDecodeError"

def verifyItch (addCount : Nat) (file : List Byte) : PyRun :=
  if 10 ≤ addCount then ⟨[], .completed⟩
  else
    match file with
    | [] => ⟨[], .completed⟩
    | [_] => ⟨[], .raised "struct.error"⟩
    | hi::lo::rest =>
      let msgLen := bigEndian [hi, lo]
      match (rest.take msgLen).head? with
      | none => ⟨[], .raised "IndexError"⟩
      | some msgType =>
        if msgType = 65#8 then
          match unpackAddOrder (rest.take msgLen) with
          | .error exception => ⟨[], .raised exception⟩
          | .ok o =>
            let py := verifyItch (addCount+1) (rest.drop msgLen)
            { py with lines := o.line "[PY]  " :: py.lines }
        else verifyItch addCount (rest.drop msgLen)
termination_by file.length
decreasing_by
  all_goals
    rw [List.length_drop, List.length_cons, List.length_cons]
    omega

def itchFile (messages : List (List Byte)) : List Byte :=
  messages.flatMap fun m => beBytes 2 (BitVec.ofNat 16 m.length) ++ m

/-- The stock of an add order is ASCII without a zero, and its side is ASCII. -/
def Printable (m : List Byte) : Prop :=
  m.head? = some 65#8 → (∀ b ∈ (m.drop 24).take 8, b ≠ 0#8 ∧ b.toNat < 128) ∧
    ∀ b ∈ (m.drop 19).take 1, b.toNat < 128

instance decidablePrintable (m : List Byte) : Decidable (Printable m) :=
  inferInstanceAs (Decidable (m.head? = some 65#8 →
    (∀ b ∈ (m.drop 24).take 8, b ≠ 0#8 ∧ b.toNat < 128) ∧ ∀ b ∈ (m.drop 19).take 1, b.toNat < 128))

def addOrders (orders : List NormalizedOrder) : List NormalizedAddOrder :=
  orders.filterMap fun
    | .addOrder o => some o
    | _ => none

section Script
variable {m : List Byte}

theorem itchFile_cons (hm : m.length < 2^16) (ms : List (List Byte)) :
    ∃ hi lo, bigEndian [hi, lo] = m.length ∧
      itchFile (m::ms) = hi::lo::(m ++ itchFile ms) := by
  obtain ⟨hi, lo, hbytes⟩ := List.length_eq_two.mp (length_beBytes 2 (BitVec.ofNat 16 m.length))
  have hvalue := bigEndian_beBytes 2 (BitVec.ofNat 16 m.length)
  rw [BitVec.toNat_ofNat, Nat.mod_eq_of_lt hm, hbytes] at hvalue
  refine ⟨hi, lo, hvalue, ?_⟩
  rw [itchFile, List.flatMap_cons, ← itchFile, hbytes]
  rfl

theorem completeRecords_itchFile {messages : List (List Byte)}
    (h : ∀ m ∈ messages, m.length < 2^16) : completeRecords (itchFile messages) = messages := by
  induction messages with
  | nil => exact completeRecords_short (by decide)
  | cons m ms ih =>
    obtain ⟨hi, lo, hlen, hfile⟩ := itchFile_cons (h m List.mem_cons_self) ms
    have hlong : ¬ (m ++ itchFile ms).length < m.length := by
      rw [List.length_append]
      omega
    rw [hfile, completeRecords, hlen, if_neg hlong, List.take_left, List.drop_left,
      ih fun m hm => h m (List.mem_cons_of_mem _ hm)]

theorem stockStr_eq {stock : List Byte} (h : ∀ b ∈ stock, b ≠ 0#8) :
    stockStr stock = String.ofList (stock.map byteChar) := by
  have hall : stock.takeWhile (fun b => b ≠ 0#8) = stock := by
    induction stock with
    | nil => rfl
    | cons b bs ih =>
      have hb : b ≠ 0#8 := h b List.mem_cons_self
      rw [List.takeWhile_cons_of_pos (by simp [hb]), ih fun b hb => h b (List.mem_cons_of_mem _ hb)]
  rw [stockStr, hall]

/-- The script reads an add order as `parse_add_order` does. -/
theorem unpackAddOrder_eq (hc : Complete m) (hp : Printable m) (ht : m.head? = some 65#8) :
    ∃ o, messageOrder m = some (.addOrder o) ∧ unpackAddOrder m = .ok o.shown := by
  have hfields := hc.carriesFields
  obtain ⟨hstock, hside⟩ := hp ht
  have hlen : m.length = 36 := by
    obtain ⟨t, hhead, hlen⟩ := hc
    rw [ht] at hhead
    cases hhead
    exact (Option.some.inj hlen).symm
  cases ho : messageOrder m with
  | none =>
    rw [ho] at hfields
    exact absurd ht hfields.1
  | some order =>
    cases order with
    | executeOrder o =>
      rw [ho] at hfields
      have hhead := ht.symm.trans hfields.1
      cases hhead
    | cancelOrder o =>
      rw [ho] at hfields
      have hhead := ht.symm.trans hfields.1
      cases hhead
    | addOrder o =>
      rw [ho] at hfields
      obtain ⟨-, -, hid, hshares, hprice, hname, -⟩ := hfields
      refine ⟨o, rfl, ?_⟩
      rw [unpackAddOrder, if_neg (by simp [hlen]), decodeAscii, decodeAscii, if_pos hside,
        if_pos fun b hb => (hstock b hb).2, NormalizedAddOrder.shown, hname,
        stockStr_eq fun b hb => (hstock b hb).1, hid, hshares, hprice]
      rfl

theorem addOrders_cons (hc : Complete m) (ht : m.head? ≠ some 65#8) (ms : List (List Byte)) :
    addOrders ((m::ms).filterMap messageOrder) = addOrders (ms.filterMap messageOrder) := by
  have hfields := hc.carriesFields
  cases ho : messageOrder m with
  | none => rw [List.filterMap_cons_none ho]
  | some order =>
    rw [List.filterMap_cons_some ho, addOrders]
    cases order with
    | addOrder o =>
      rw [ho] at hfields
      exact absurd hfields.1 ht
    | executeOrder o => rfl
    | cancelOrder o => rfl

theorem verifyItch_itchFile {messages : List (List Byte)}
    (h : ∀ m ∈ messages, Complete m ∧ Printable m) (n : Nat) :
    verifyItch n (itchFile messages) =
      ⟨((addOrders (messages.filterMap messageOrder)).take (10 - n)).map fun o =>
        o.shown.line "[PY]  ", .completed⟩ := by
  induction messages generalizing n with
  | nil =>
    rw [itchFile, List.flatMap_nil, verifyItch, List.filterMap_nil, addOrders, List.filterMap_nil,
      List.take_nil]
    split_ifs
    · rfl
    · rfl
  | cons m ms ih =>
    obtain ⟨hc, hp⟩ := h m List.mem_cons_self
    have hrest : ∀ m ∈ ms, Complete m ∧ Printable m := fun m hm => h m (List.mem_cons_of_mem _ hm)
    have hlen := hc.length_le
    obtain ⟨hi, lo, hvalue, hfile⟩ := itchFile_cons (m := m) (by omega) ms
    obtain ⟨t, ht, -⟩ := id hc
    rw [hfile, verifyItch]
    by_cases hn : 10 ≤ n
    · rw [if_pos hn, Nat.sub_eq_zero_of_le hn]
      rfl
    · rw [if_neg hn]
      dsimp only
      rw [hvalue, List.take_left, List.drop_left, ht]
      dsimp only
      by_cases hadd : t = 65#8
      · rw [hadd] at ht
        obtain ⟨o, ho, hunpack⟩ := unpackAddOrder_eq hc hp ht
        have hsucc : 10 - n = 10 - (n+1) + 1 := by omega
        rw [if_pos hadd, hunpack, ih hrest, List.filterMap_cons_some ho, hsucc]
        rfl
      · have hne : m.head? ≠ some 65#8 := by
          rw [ht]
          exact fun he => hadd (Option.some.inj he)
        rw [if_neg hadd, ih hrest, addOrders_cons hc hne]

end Script

def ConsumerPc.pending : ConsumerPc → List NormalizedOrder
  | .pop => []
  | .dispatch order => [order]
  | .terminated _ => []

structure CheckedMode.Printed (seen : List NormalizedOrder) (s : CheckedMode) : Prop where
  popped : s.mode.channel.popped = seen ++ s.mode.consumer.pending
  addCount : s.addCount = min 10 (addOrders seen).length
  lines : s.lines = ((addOrders seen).take 10).map fun o => o.shown.line "[C++] "

section Check
variable {size : Nat} {clock : Nat → BitVec 64} {file : List Byte} {s : CheckedMode}
  {seen : List NormalizedOrder}

/-- Only `consume` takes orders from the queue. -/
theorem MockMode.step_popped (s : MockMode) (size : Nat) (clock : Nat → BitVec 64)
    (file : List Byte) {t : MockThread} (ht : t ≠ .consume) :
    (s.step size clock file t).channel.popped = s.channel.popped ∧
      (s.step size clock file t).consumer = s.consumer := by
  cases t with
  | consume => exact absurd rfl ht
  | simulate => exact ⟨rfl, rfl⟩
  | statistics => exact ⟨rfl, rfl⟩
  | main =>
    rw [MockMode.step, MockMode.pollSimulation]
    cases s.receiver.pollPc with
    | wait => exact ⟨rfl, rfl⟩
    | release => exact ⟨rfl, rfl⟩
    | advance => exact ⟨rfl, rfl⟩
    | parse =>
      have hconsumer := s.toInPlaceFeed.parseBlock_consumer size clock s.receiver.ring
        s.receiver.payloadPtr s.receiver.payloadLength
      dsimp only
      obtain ⟨-, heq⟩ | ⟨-, heq⟩ := s.parseBlock_cases size clock
      · rw [heq]
        exact hconsumer
      · rw [heq]
        exact hconsumer

/-- `consume` takes one order after the other and dispatches it before the next. -/
theorem MockMode.consume_cases (s : MockMode) (size : Nat) :
    (s.consumer = .pop ∧
      (s.consume size).channel.popped = s.channel.popped ++ (s.consume size).consumer.pending) ∨
    (∃ order, s.consumer = .dispatch order ∧ (s.consume size).channel = s.channel ∧
      (s.consume size).consumer.pending = []) ∨
    ∃ what, s.consumer = .terminated what ∧ (s.consume size).channel = s.channel ∧
      (s.consume size).consumer = s.consumer := by
  rw [MockMode.consume, InPlaceFeed.consume, Feed.consume, InPlaceFeed.feed]
  cases hc : s.consumer with
  | pop =>
    left
    cases hp : s.channel.popPc with
    | idle =>
      simp only [InPlaceFeed.withFeed, ConsumerPc.pending, Channel.beginPop_popped, true_and,
        List.append_nil]
    | refresh i n =>
      simp only [InPlaceFeed.withFeed, ConsumerPc.pending, true_and, List.append_nil]
      exact Channel.continuePop_popped (by simp [hp])
    | read i n =>
      simp only [InPlaceFeed.withFeed, ConsumerPc.pending, true_and, List.append_nil]
      exact Channel.continuePop_popped (by simp [hp])
    | publish v n =>
      simp only [InPlaceFeed.withFeed, ConsumerPc.pending, true_and]
      exact (Channel.continuePop_publish hp).1
  | dispatch order =>
    right
    left
    refine ⟨order, rfl, ?_⟩
    dsimp only [InPlaceFeed.withFeed]
    cases hs : s.book.step (dispatchTable order) with
    | mk book out =>
      cases out with
      | returned => exact ⟨rfl, rfl⟩
      | raised what => exact ⟨rfl, rfl⟩
  | terminated what =>
    right
    right
    exact ⟨what, rfl, rfl, rfl⟩

/-- One order more. -/
theorem CheckedMode.check_printed (order : NormalizedOrder)
    (hcount : s.addCount = min 10 (addOrders seen).length)
    (hlines : s.lines = ((addOrders seen).take 10).map fun o => o.shown.line "[C++] ") :
    (s.check order).addCount = min 10 (addOrders (seen ++ [order])).length ∧
    (s.check order).lines =
      ((addOrders (seen ++ [order])).take 10).map fun o => o.shown.line "[C++] " := by
  have happend : addOrders (seen ++ [order]) = addOrders seen ++ addOrders [order] :=
    List.filterMap_append
  cases order with
  | executeOrder o =>
    have hnone : addOrders [.executeOrder o] = [] := rfl
    rw [happend, hnone, List.append_nil]
    exact ⟨hcount, hlines⟩
  | cancelOrder o =>
    have hnone : addOrders [.cancelOrder o] = [] := rfl
    rw [happend, hnone, List.append_nil]
    exact ⟨hcount, hlines⟩
  | addOrder o =>
    have hone : addOrders [.addOrder o] = [o] := rfl
    rw [happend, hone, CheckedMode.check, List.length_append, List.length_singleton]
    split_ifs with hten
    · have hlen : (addOrders seen).length < 10 := by omega
      refine ⟨by dsimp only; omega, ?_⟩
      dsimp only
      rw [hlines, List.take_of_length_le hlen.le, List.take_of_length_le (by simp; omega),
        List.map_append, List.map_singleton]
    · refine ⟨by omega, ?_⟩
      rw [hlines, List.take_append_of_le_length (by omega)]

/-- A step ahead of which nothing is printed. -/
theorem CheckedMode.Printed.silent (h : s.Printed seen) {t : MockThread} (hsame : s.checked t = s)
    (hpopped : (s.mode.step size clock file t).channel.popped =
      seen ++ (s.mode.step size clock file t).consumer.pending) :
    (s.step size clock file t).Printed seen := by
  refine ⟨hpopped, ?_, ?_⟩
  · rw [CheckedMode.step, hsame]
    exact h.addCount
  · rw [CheckedMode.step, hsame]
    exact h.lines

theorem CheckedMode.Printed.consume (h : s.Printed seen) :
    ∃ seen', (s.step size clock file .consume).Printed seen' := by
  have hold := h.popped
  obtain ⟨hpc, hpopped⟩ | ⟨order, hpc, hchannel, hpending⟩ | ⟨what, hpc, hchannel, hconsumer⟩ :=
    s.mode.consume_cases size
  · rw [hpc, ConsumerPc.pending, List.append_nil] at hold
    refine ⟨seen, h.silent (by rw [CheckedMode.checked, hpc]) ?_⟩
    rw [← hold]
    exact hpopped
  · obtain ⟨hcount, hlines⟩ := CheckedMode.check_printed order h.addCount h.lines
    refine ⟨seen ++ [order], ?_, ?_, ?_⟩
    · have hnew : (s.mode.consume size).channel.popped =
          seen ++ [order] ++ (s.mode.consume size).consumer.pending := by
        rw [hchannel, hpending, hold, hpc, List.append_nil]
        rfl
      exact hnew
    · rw [CheckedMode.step, CheckedMode.checked, hpc]
      exact hcount
    · rw [CheckedMode.step, CheckedMode.checked, hpc]
      exact hlines
  · refine ⟨seen, h.silent (by rw [CheckedMode.checked, hpc]) ?_⟩
    have hnew : (s.mode.consume size).channel.popped =
        seen ++ (s.mode.consume size).consumer.pending := by
      rw [hchannel, hconsumer]
      exact hold
    exact hnew

theorem CheckedMode.Printed.step (h : s.Printed seen) (t : MockThread) :
    ∃ seen', (s.step size clock file t).Printed seen' := by
  have hother : t ≠ .consume → s.checked t = s → (s.step size clock file t).Printed seen := by
    intro ht hsame
    obtain ⟨hpopped, hconsumer⟩ := s.mode.step_popped size clock file ht
    apply h.silent hsame
    rw [hpopped, hconsumer]
    exact h.popped
  cases t with
  | consume => exact h.consume
  | simulate => exact ⟨seen, hother MockThread.noConfusion rfl⟩
  | main => exact ⟨seen, hother MockThread.noConfusion rfl⟩
  | statistics => exact ⟨seen, hother MockThread.noConfusion rfl⟩

theorem CheckedMode.run_printed (size : Nat) (clock : Nat → BitVec 64) (file : List Byte)
    (data : Nat → NormalizedOrder) (book : LimitOrderBook) (schedule : List MockThread) :
    ∃ seen, (CheckedMode.run size clock file data book schedule).Printed seen :=
  StepRun.invariant (I := fun s => ∃ seen, CheckedMode.Printed seen s) schedule
    ⟨[], rfl, rfl, rfl⟩ fun _ t ⟨_, h⟩ => h.step t

theorem CheckedMode.run_mode (size : Nat) (clock : Nat → BitVec 64) (file : List Byte)
    (data : Nat → NormalizedOrder) (book : LimitOrderBook) (schedule : List MockThread) :
    (CheckedMode.run size clock file data book schedule).mode =
      MockMode.run size clock file data book schedule := by
  rw [CheckedMode.run, MockMode.run]
  exact (List.foldl_hom CheckedMode.mode fun _ _ => rfl).symm

end Check

/-- While no push has failed the orders taken are the first of the messages. -/
theorem MockMode.run_popped (k : Nat) (clock : Nat → BitVec 64) {file : List Byte}
    (hfit : RecordsFit file) {blocks : List Block}
    (hblocks : completeRecords file = blocks.map Block.bytes) (data : Nat → NormalizedOrder)
    (b : LimitOrderBook) (schedule : List MockThread)
    (hpush : ∀ p ∈ (MockMode.run (2^k) clock file data b schedule).channel.pushes, p.2 = true) :
    (MockMode.run (2^k) clock file data b schedule).channel.popped <+:
        (blocks.flatMap Block.messages).filterMap messageOrder ∧
      ((MockMode.run (2^k) clock file data b schedule).Through →
        (MockMode.run (2^k) clock file data b schedule).channel.popped =
          (blocks.flatMap Block.messages).filterMap messageOrder) := by
  obtain ⟨ts, h⟩ := MockMode.run_feeds k clock hfit data b schedule
  generalize MockMode.run (2^k) clock file data b schedule = s at h hpush ⊢
  rw [hblocks] at h
  have hok := FeedOk.run k clock data (blocks.map Block.bytes) b ts
  obtain ⟨cur, rest, hin⟩ := InStep.run (2^k) clock data blocks b ts
  generalize Feed.run (2^k) clock data (blocks.map Block.bytes) b ts = f at h hok hin
  have hchannel : f.channel = s.channel := by rw [← h.feed]; rfl
  rw [← hchannel] at hpush ⊢
  have hall : f.channel.pushed = f.channel.pushes.map Prod.fst := by
    rw [Channel.pushed, List.filter_eq_self.mpr hpush]
  refine ⟨(hall ▸ hok.fifo.ordered).trans (hin.handed_initial hok), ?_⟩
  intro ht
  obtain ⟨hidle, hnone⟩ := h.finished ht
  rw [hok.popped_all hpush hidle (by rw [hchannel]; exact ht.empty), ← reduceOption_map_eq,
    hin.orders, hin.finished hidle hnone, reduceOption_map_eq]

/-- The two outputs agree but for the tags: the lines of the program are the first of the
script's, and once the file is through they are all of them. -/
structure CheckedMode.Agrees (py : PyRun) (s : CheckedMode) : Prop where
  completed : py.ending = .completed
  initial : (∀ p ∈ s.mode.channel.pushes, p.2 = true) →
    ∃ shown : List ShownOrder, s.lines = shown.map (ShownOrder.line "[C++] ") ∧
      shown.map (ShownOrder.line "[PY]  ") <+: py.lines
  complete : (∀ p ∈ s.mode.channel.pushes, p.2 = true) → s.mode.Through →
    ∃ shown : List ShownOrder, s.lines = shown.map (ShownOrder.line "[C++] ") ∧
      py.lines = shown.map (ShownOrder.line "[PY]  ")

theorem exists_blocks {messages : List (List Byte)} (h : ∀ m ∈ messages, Complete m) :
    ∃ blocks : List Block, blocks.map Block.bytes = messages ∧
      blocks.flatMap Block.messages = messages := by
  induction messages with
  | nil => exact ⟨[], rfl, rfl⟩
  | cons m ms ih =>
    obtain ⟨blocks, hbytes, hmessages⟩ := ih fun m hm => h m (List.mem_cons_of_mem _ hm)
    have hone : ∀ x ∈ [m], Complete x := by
      intro x hx
      rw [List.mem_singleton.mp hx]
      exact h m List.mem_cons_self
    refine ⟨⟨[m], [], hone, truncated_nil⟩ :: blocks, ?_, ?_⟩
    · rw [List.map_cons, hbytes, Block.bytes, List.flatten_singleton, List.append_nil]
    · rw [List.flatMap_cons, hmessages]
      rfl

/-- For every file of one message a record, with text for the stocks, and every interleaving. -/
theorem CheckedMode.run_agrees (k : Nat) (clock : Nat → BitVec 64) (messages : List (List Byte))
    (hm : ∀ m ∈ messages, Complete m ∧ Printable m) (data : Nat → NormalizedOrder)
    (b : LimitOrderBook) (schedule : List MockThread) :
    (CheckedMode.run (2^k) clock (itchFile messages) data b schedule).Agrees
      (verifyItch 0 (itchFile messages)) := by
  have hcomplete : ∀ m ∈ messages, Complete m := fun m hmem => (hm m hmem).1
  have hlen : ∀ m ∈ messages, m.length ≤ 50 := fun m hmem => (hcomplete m hmem).length_le
  have hrecords : completeRecords (itchFile messages) = messages :=
    completeRecords_itchFile fun m hmem => Nat.lt_of_le_of_lt (hlen m hmem) (by decide)
  have hfit : RecordsFit (itchFile messages) := by
    intro m hmem
    rw [hrecords] at hmem
    exact Nat.le_trans (hlen m hmem) (by decide)
  obtain ⟨blocks, hbytes, hmessages⟩ := exists_blocks hcomplete
  have hpopped := MockMode.run_popped k clock hfit (hrecords.trans hbytes.symm) data b schedule
  rw [← CheckedMode.run_mode, hmessages] at hpopped
  obtain ⟨seen, hp⟩ :=
    CheckedMode.run_printed (2^k) clock (itchFile messages) data b schedule
  generalize CheckedMode.run (2^k) clock (itchFile messages) data b schedule = s at hpopped hp ⊢
  have hlines : s.lines = (((addOrders seen).take 10).map NormalizedAddOrder.shown).map
      (ShownOrder.line "[C++] ") := by
    rw [hp.lines, List.map_map]
    rfl
  rw [verifyItch_itchFile hm]
  refine ⟨rfl, ?_, ?_⟩
  · intro hpush
    refine ⟨_, hlines, ?_⟩
    have hseen : seen <+: messages.filterMap messageOrder :=
      List.IsPrefix.trans (hp.popped ▸ List.prefix_append ..) (hpopped hpush).1
    rw [List.map_map]
    exact ((hseen.filterMap _).take 10).map _
  · intro hpush ht
    refine ⟨_, hlines, ?_⟩
    have hseen : seen = messages.filterMap messageOrder := by
      rw [← (hpopped hpush).2 ht, hp.popped, ht.idle]
      exact (List.append_nil seen).symm
    rw [List.map_map, hseen]
    rfl

def quotedAdd : List Byte :=
  65#8 :: List.replicate 17 0#8 ++ [1, 66, 0, 0, 0, 3, 65, 65, 80, 76, 32, 32, 32, 32, 0, 0, 0, 5]

theorem quotedAdd_agrees :
    let s := CheckedMode.run (2^2) (fun _ => 0#64) (itchFile [quotedAdd])
      (fun _ => .addOrder (.plain 66#8 1#64 5#32 3#32)) (.new 1)
      (List.replicate 6 .simulate ++ List.replicate 8 .main ++ List.replicate 5 .consume)
    s.Agrees (verifyItch 0 (itchFile [quotedAdd])) ∧
      s.lines = ["[C++] Add Order -> ID: 1 | Stock: 'AAPL    ' | Shares: 3 | Price: 5\n"] := by
  refine ⟨CheckedMode.run_agrees 2 (fun _ => 0#64) [quotedAdd] ?_ _ _ _, ?_⟩
  · intro m hm
    rw [List.mem_singleton.mp hm]
    exact ⟨⟨65#8, rfl, by decide⟩, by decide⟩
  · decide +kernel

end MarketDataBook
