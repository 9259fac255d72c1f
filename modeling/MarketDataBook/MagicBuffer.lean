import MarketDataBook.ItchOrderTypes
import MarketDataBook.Library.RingMemory
import MarketDataBook.Library.StepRun
import MarketDataBook.Library.WordBits

/-! `utils/MagicBuffer.h`: a byte ring mapped twice, one mapping right behind the other. The
system calls of the constructor succeed; both mappings show the bytes of one file. -/
namespace MarketDataBook
open ByteMemory

structure MagicBuffer where
  start : Nat
  readHead : Nat
  writeHead : Nat
  alignedCapacity : Nat
  /-- The bytes of `fd_`. -/
  file : Memory

namespace MagicBuffer

def pageAligned (pageSize capacity : BitVec 64) : BitVec 64 :=
  (capacity + pageSize - 1#64) &&& ~~~(pageSize - 1#64)

def fresh (start alignedCapacity : Nat) (file : Memory) : MagicBuffer :=
  ⟨start, start, start, alignedCapacity, file⟩

def new (pageSize capacity : BitVec 64) (buffer : Nat) : Except String MagicBuffer :=
  if capacity = 0#64 then .error "MagicBuffer(): Unable to create magic buffer of size 0"
  else .ok (fresh buffer (pageAligned pageSize capacity).toNat fun _ => 0#8)

def secondHalfStart (b : MagicBuffer) : Nat := b.start + b.alignedCapacity

def readSpaceLeft (b : MagicBuffer) : Nat :=
  if b.writeHead ≥ b.readHead then b.writeHead - b.readHead
  else b.alignedCapacity - (b.readHead - b.writeHead)

def writeSpaceLeft (b : MagicBuffer) : Nat := b.alignedCapacity - 1 - b.readSpaceLeft

def advanceWrite (b : MagicBuffer) (bytes : Nat) : MagicBuffer :=
  let head := b.writeHead + bytes
  { b with writeHead := if head ≥ b.secondHalfStart then head - b.alignedCapacity else head }

def advanceRead (b : MagicBuffer) (bytes : Nat) : MagicBuffer :=
  let head := b.readHead + bytes
  { b with readHead := if head ≥ b.secondHalfStart then head - b.alignedCapacity else head }

def reset (b : MagicBuffer) : MagicBuffer := { b with readHead := b.start, writeHead := b.start }

/-- The byte of the file that an address of either mapping shows. -/
def offset (b : MagicBuffer) (addr : Nat) : Nat :=
  if addr < b.secondHalfStart then addr - b.start else addr - b.secondHalfStart

def storeBytes (b : MagicBuffer) (addr : Nat) : List Byte → MagicBuffer
  | [] => b
  | x::xs => storeBytes { b with file := Function.update b.file (b.offset addr) x } (addr+1) xs

def loadBytes (b : MagicBuffer) (addr count : Nat) : List Byte :=
  (List.range count).map fun i => b.file (b.offset (addr + i))

def readable (b : MagicBuffer) : List Byte := b.loadBytes b.readHead b.readSpaceLeft

/-- The buffer holds the unread bytes of a stream from position `lo` on. -/
structure Holds (b : MagicBuffer) (start capacity lo : Nat) (unread : List Byte) : Prop where
  start_eq : b.start = start
  capacity_eq : b.alignedCapacity = capacity
  read : b.readHead = start + lo % capacity
  write : b.writeHead = start + (lo + unread.length) % capacity
  room : unread.length < capacity
  content : slice (RingMemory.unrolled b.file capacity) lo unread.length = unread

theorem holds_fresh {start capacity : Nat} (file : Memory) (h : 0 < capacity) :
    (fresh start capacity file).Holds start capacity 0 [] where
  start_eq := rfl
  capacity_eq := rfl
  read := by rw [Nat.zero_mod]; rfl
  write := by rw [List.length_nil, Nat.zero_mod]; rfl
  room := h
  content := rfl

section
variable {b : MagicBuffer} {start capacity lo : Nat} {unread : List Byte}

theorem Holds.reset (h : b.Holds start capacity lo unread) :
    b.reset.Holds start capacity 0 [] := by
  have hs := h.start_eq
  have hc := h.capacity_eq
  subst hs hc
  exact holds_fresh b.file (Nat.zero_lt_of_lt h.room)

/-- A head less than a lap ahead of a position shows the byte of the ring there. -/
theorem Holds.offset_eq (h : b.Holds start capacity lo unread) {i : Nat} (pos : Nat)
    (hi : i < capacity) : b.offset (start + pos % capacity + i) = (pos + i) % capacity := by
  rw [← RingIndex.wrap_eq_mod hi, offset, secondHalfStart, h.start_eq, h.capacity_eq]
  split_ifs <;> omega

theorem Holds.readSpaceLeft_eq (h : b.Holds start capacity lo unread) :
    b.readSpaceLeft = unread.length := by
  have hw := RingIndex.wrap_eq_mod (a := lo) h.room
  have hlt := Nat.mod_lt lo (Nat.zero_lt_of_lt h.room)
  have hroom := h.room
  rw [readSpaceLeft, h.read, h.write, h.capacity_eq, ← hw]
  split_ifs <;> omega

theorem Holds.writeSpaceLeft_eq (h : b.Holds start capacity lo unread) :
    b.writeSpaceLeft = capacity - 1 - unread.length := by
  rw [writeSpaceLeft, h.capacity_eq, h.readSpaceLeft_eq]

theorem Holds.loadBytes_eq (h : b.Holds start capacity lo unread) {count : Nat}
    (hc : count ≤ unread.length) : b.loadBytes b.readHead count = unread.take count := by
  have hroom := h.room
  calc
    b.loadBytes b.readHead count = slice (RingMemory.unrolled b.file capacity) lo count := by
      rw [loadBytes, slice, h.read]
      apply List.map_congr_left
      intro i hi
      have hlt := List.mem_range.mp hi
      rw [h.offset_eq lo (by omega)]
      rfl
    _ = unread.take count := by rw [← take_slice _ _ hc, h.content]

theorem Holds.readable_eq (h : b.Holds start capacity lo unread) : b.readable = unread := by
  rw [readable, h.readSpaceLeft_eq, h.loadBytes_eq (Nat.le_refl _), List.take_length]

theorem Holds.advanceRead (h : b.Holds start capacity lo unread) {count : Nat}
    (hc : count ≤ unread.length) :
    (b.advanceRead count).Holds start capacity (lo + count) (unread.drop count) := by
  have hroom := h.room
  have hsum : lo + count + (unread.length - count) = lo + unread.length := by omega
  refine ⟨h.start_eq, h.capacity_eq, ?_, ?_, ?_, ?_⟩
  · rw [← RingIndex.wrap_eq_mod (a := lo) (k := count) (by omega)]
    simp only [MagicBuffer.advanceRead, secondHalfStart, h.start_eq, h.capacity_eq, h.read]
    split_ifs <;> omega
  · rw [List.length_drop, hsum]
    exact h.write
  · rw [List.length_drop]
    omega
  · rw [List.length_drop, ← drop_slice _ _ hc]
    exact congrArg (List.drop count) h.content

theorem storeBytes_eq {bytes : List Byte} {addr pos : Nat}
    (h : ∀ i < bytes.length, b.offset (addr + i) = (pos + i) % capacity) :
    b.storeBytes addr bytes = { b with file := RingMemory.write b.file capacity pos bytes } := by
  induction bytes generalizing b addr pos with
  | nil => rfl
  | cons x xs ih =>
    have hx : b.offset addr = pos % capacity := h 0 (Nat.succ_pos _)
    rw [storeBytes, RingMemory.write, hx]
    apply ih
    intro i hi
    have hi' := h (i+1) (Nat.succ_lt_succ hi)
    rw [Nat.add_comm i 1, ← Nat.add_assoc, ← Nat.add_assoc] at hi'
    exact hi'

theorem Holds.storeBytes_eq (h : b.Holds start capacity lo unread) {bytes : List Byte}
    (hb : bytes.length ≤ b.writeSpaceLeft) :
    b.storeBytes b.writeHead bytes =
      { b with file := RingMemory.write b.file capacity (lo + unread.length) bytes } := by
  rw [h.writeSpaceLeft_eq] at hb
  have hroom := h.room
  apply MagicBuffer.storeBytes_eq
  intro i hi
  rw [h.write, h.offset_eq (lo + unread.length) (by omega)]

/-- Bytes stored at the write head are not yet readable, and what is readable stays. -/
theorem Holds.storeBytes (h : b.Holds start capacity lo unread) {bytes : List Byte}
    (hb : bytes.length ≤ b.writeSpaceLeft) :
    (b.storeBytes b.writeHead bytes).Holds start capacity lo unread := by
  rw [h.storeBytes_eq hb]
  rw [h.writeSpaceLeft_eq] at hb
  have hroom := h.room
  refine ⟨h.start_eq, h.capacity_eq, h.read, h.write, hroom, ?_⟩
  rw [RingMemory.slice_write_of_le (Nat.le_refl _) (by omega)]
  exact h.content

theorem Holds.write_bytes (h : b.Holds start capacity lo unread) {bytes : List Byte}
    (hb : bytes.length ≤ b.writeSpaceLeft) :
    ((b.storeBytes b.writeHead bytes).advanceWrite bytes.length).Holds start capacity lo
      (unread ++ bytes) := by
  rw [h.storeBytes_eq hb]
  rw [h.writeSpaceLeft_eq] at hb
  have hroom := h.room
  refine ⟨h.start_eq, h.capacity_eq, h.read, ?_, ?_, ?_⟩
  · rw [List.length_append, ← Nat.add_assoc,
      ← RingIndex.wrap_eq_mod (a := lo + unread.length) (k := bytes.length) (by omega)]
    simp only [MagicBuffer.advanceWrite, secondHalfStart, h.start_eq, h.capacity_eq, h.write]
    split_ifs <;> omega
  · rw [List.length_append]
    omega
  · rw [List.length_append]
    calc
      _ = slice (RingMemory.unrolled b.file capacity) lo unread.length ++ bytes :=
        RingMemory.slice_write (by omega)
      _ = unread ++ bytes := by rw [h.content]

end
end MagicBuffer

inductive BufferCall where
  | write (bytes : List Byte)
  | read (count : Nat)
  | reset

structure BufferSession where
  buffer : MagicBuffer
  written : List Byte
  taken : List Byte

namespace BufferSession

def start (b : MagicBuffer) : BufferSession := ⟨b, [], []⟩

def step (s : BufferSession) : BufferCall → BufferSession
  | .write bytes =>
    { s with
      buffer := (s.buffer.storeBytes s.buffer.writeHead bytes).advanceWrite bytes.length
      written := s.written ++ bytes }
  | .read count =>
    { s with
      buffer := s.buffer.advanceRead count
      taken := s.taken ++ s.buffer.loadBytes s.buffer.readHead count }
  | .reset => start s.buffer.reset

def Within (s : BufferSession) : BufferCall → Prop
  | .write bytes => bytes.length ≤ s.buffer.writeSpaceLeft
  | .read count => count ≤ s.buffer.readSpaceLeft
  | .reset => True

instance (s : BufferSession) : (c : BufferCall) → Decidable (s.Within c)
  | .write bytes => inferInstanceAs (Decidable (bytes.length ≤ s.buffer.writeSpaceLeft))
  | .read count => inferInstanceAs (Decidable (count ≤ s.buffer.readSpaceLeft))
  | .reset => isTrue trivial

def touched (s : BufferSession) : BufferCall → List Nat
  | .write bytes => (List.range bytes.length).map (s.buffer.writeHead + ·)
  | .read count => (List.range count).map (s.buffer.readHead + ·)
  | .reset => []

def Mapped (base capacity : Nat) (s : BufferSession) (c : BufferCall) : Prop :=
  ∀ addr ∈ s.touched c, base ≤ addr ∧ addr < base + 2 * capacity

/-- No byte that a write changes is shown by an address still to be read. -/
def SparesUnread (s : BufferSession) : BufferCall → Prop
  | .write bytes => ∀ i < bytes.length, ∀ j < s.buffer.readSpaceLeft,
      s.buffer.offset (s.buffer.writeHead + i) ≠ s.buffer.offset (s.buffer.readHead + j)
  | .read _ => True
  | .reset => True

structure Fifo (base capacity : Nat) (s : BufferSession) : Prop where
  readHead : base ≤ s.buffer.readHead ∧ s.buffer.readHead < base + capacity
  writeHead : base ≤ s.buffer.writeHead ∧ s.buffer.writeHead < base + capacity
  space : s.buffer.readSpaceLeft = s.written.length - s.taken.length
  bound : s.buffer.readSpaceLeft ≤ capacity - 1
  order : s.taken ++ s.buffer.readable = s.written

def Queued (base capacity : Nat) (s : BufferSession) : Prop :=
  ∃ unread, s.buffer.Holds base capacity s.taken.length unread ∧ s.taken ++ unread = s.written

section
variable {base capacity : Nat} {s : BufferSession}

theorem Queued.fifo (h : s.Queued base capacity) : s.Fifo base capacity := by
  obtain ⟨unread, hold, ho⟩ := h
  have hroom := hold.room
  have hpos : 0 < capacity := Nat.zero_lt_of_lt hroom
  refine ⟨?_, ?_, ?_, ?_, ?_⟩
  · have hlt := Nat.mod_lt s.taken.length hpos
    rw [hold.read]
    omega
  · have hlt := Nat.mod_lt (s.taken.length + unread.length) hpos
    rw [hold.write]
    omega
  · rw [hold.readSpaceLeft_eq, ← ho, List.length_append, Nat.add_sub_cancel_left]
  · rw [hold.readSpaceLeft_eq]
    omega
  · rw [hold.readable_eq, ho]

theorem Queued.step (h : s.Queued base capacity) {c : BufferCall} (hc : s.Within c) :
    (s.step c).Queued base capacity := by
  obtain ⟨unread, hold, ho⟩ := h
  cases c with
  | write bytes =>
    refine ⟨unread ++ bytes, hold.write_bytes hc, ?_⟩
    rw [← List.append_assoc]
    exact congrArg (· ++ bytes) ho
  | read count =>
    have hcount : count ≤ unread.length := by
      rw [← hold.readSpaceLeft_eq]
      exact hc
    have htaken : (s.step (.read count)).taken = s.taken ++ unread.take count :=
      congrArg (s.taken ++ ·) (hold.loadBytes_eq hcount)
    refine ⟨unread.drop count, ?_, ?_⟩
    · rw [htaken, List.length_append, List.length_take, Nat.min_eq_left hcount]
      exact hold.advanceRead hcount
    · rw [htaken, List.append_assoc, List.take_append_drop]
      exact ho
  | reset => exact ⟨[], hold.reset, rfl⟩

theorem Queued.mapped (h : s.Queued base capacity) {c : BufferCall} (hc : s.Within c) :
    s.Mapped base capacity c := by
  have hf := h.fifo
  obtain ⟨hr, hw, hb⟩ := And.intro hf.readHead (And.intro hf.writeHead hf.bound)
  obtain ⟨unread, hold, -⟩ := h
  intro addr ha
  cases c with
  | write bytes =>
    obtain ⟨i, hi, rfl⟩ := List.mem_map.mp ha
    have hlt := List.mem_range.mp hi
    have hspace : bytes.length ≤ s.buffer.writeSpaceLeft := hc
    rw [hold.writeSpaceLeft_eq] at hspace
    omega
  | read count =>
    obtain ⟨i, hi, rfl⟩ := List.mem_map.mp ha
    have hlt := List.mem_range.mp hi
    have hspace : count ≤ s.buffer.readSpaceLeft := hc
    omega
  | reset => cases ha

theorem Queued.sparesUnread (h : s.Queued base capacity) {c : BufferCall} (hc : s.Within c) :
    s.SparesUnread c := by
  obtain ⟨unread, hold, -⟩ := h
  cases c with
  | write bytes =>
    intro i hi j hj heq
    have hroom := hold.room
    have hspace : bytes.length ≤ s.buffer.writeSpaceLeft := hc
    rw [hold.writeSpaceLeft_eq] at hspace
    rw [hold.readSpaceLeft_eq] at hj
    rw [hold.write, hold.read, hold.offset_eq _ (by omega), hold.offset_eq _ (by omega)] at heq
    -- the two positions are less than one lap apart
    have hpos := (RingIndex.mod_eq_mod_iff (by omega) (by omega)).mp heq.symm
    omega
  | read count => trivial
  | reset => trivial

end

/-- Over every run of calls that stay within the space they are told of, the buffer is a queue
of bytes in every state, no call leaves the two mappings and no write hits an unread byte. -/
theorem run_fifo {base capacity : Nat} (file : Memory) (hcap : 1 ≤ capacity)
    {calls : List BufferCall}
    (hcalls : StepRun.Along step Within (start (.fresh base capacity file)) calls) :
    (∀ k, ((calls.take k).foldl step (start (.fresh base capacity file))).Fifo base capacity) ∧
      StepRun.Along step (fun s c => s.Mapped base capacity c ∧ s.SparesUnread c)
        (start (.fresh base capacity file)) calls := by
  have hstart : (start (.fresh base capacity file)).Queued base capacity :=
    ⟨[], MagicBuffer.holds_fresh file hcap, rfl⟩
  constructor
  · intro k
    exact ((hcalls.take k).invariant hstart fun s c h hc => h.step hc).fifo
  · exact hcalls.of_invariant hstart (fun s c h hc => h.step hc)
      fun s c h hc => ⟨h.mapped hc, h.sparesUnread hc⟩

/-- Five bytes through a ring of four, the last two across the mirror boundary. -/
def wrappingCalls : List BufferCall := [.write [1, 2, 3], .read 2, .write [4, 5], .read 3]

theorem wrappingCalls_fifo :
    (wrappingCalls.foldl step (start (.fresh 4096 4 fun _ => 0#8))).taken = [1, 2, 3, 4, 5] ∧
      ∀ k, ((wrappingCalls.take k).foldl step
        (start (.fresh 4096 4 fun _ => 0#8))).Fifo 4096 4 :=
  ⟨by decide, (run_fifo _ (by decide) (by decide)).1⟩

end BufferSession
end MarketDataBook
