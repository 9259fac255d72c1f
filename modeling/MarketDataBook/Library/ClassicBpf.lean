import MarketDataBook.Library.ByteMemory

/-! Classic BPF over a packet: two 32-bit registers, loads in network order, forward jumps
only. A load that reaches past the packet ends the program with 0. Jumps drop instructions, so
the interpreter recurses on what is left of the program. -/
namespace ClassicBpf
open ByteMemory

structure SockFilter where
  code : Nat
  jt : Nat
  jf : Nat
  k : Nat
  deriving DecidableEq

inductive Instr where
  | ldAbs (size k : Nat)
  | ldInd (size k : Nat)
  | ldxMsh (k : Nat)
  | jeq (k jt jf : Nat)
  | jset (k jt jf : Nat)
  | ret (k : Nat)
  | illegal
  deriving DecidableEq

def SockFilter.decode (i : SockFilter) : Instr :=
  match i.code with
  | 0x28 => .ldAbs 2 i.k
  | 0x30 => .ldAbs 1 i.k
  | 0x48 => .ldInd 2 i.k
  | 0xb1 => .ldxMsh i.k
  | 0x15 => .jeq i.k i.jt i.jf
  | 0x45 => .jset i.k i.jt i.jf
  | 0x06 => .ret i.k
  | _ => .illegal

def field (packet : List (BitVec 8)) (offset size : Nat) : Option Nat :=
  if offset + size ≤ packet.length then some (bigEndian ((packet.drop offset).take size)) else none

/-- The value returned from here on, with `skip` instructions still to be jumped over and the
registers `a` and `x`. -/
def exec (packet : List (BitVec 8)) : List Instr → (skip a x : Nat) → Nat
  | [], _, _, _ => 0
  | _::prog, skip+1, a, x => exec packet prog skip a x
  | i::prog, 0, a, x =>
    match i with
    | .ldAbs size k => (field packet k size).elim 0 fun v => exec packet prog 0 v x
    | .ldInd size k =>
      (field packet ((x + k) % 2^32) size).elim 0 fun v => exec packet prog 0 v x
    | .ldxMsh k => (field packet k 1).elim 0 fun v => exec packet prog 0 a (4 * (v % 16))
    | .jeq k jt jf => exec packet prog (if a = k then jt else jf) a x
    | .jset k jt jf => exec packet prog (if a &&& k ≠ 0 then jt else jf) a x
    | .ret k => k
    | .illegal => 0

theorem exec_ite (packet : List (BitVec 8)) (prog : List Instr) (c : Prop) [Decidable c]
    (m n a x : Nat) : exec packet prog (if c then m else n) a x =
      if c then exec packet prog m a x else exec packet prog n a x :=
  apply_ite (fun skip => exec packet prog skip a x) c m n

theorem elim_ne_zero {o : Option Nat} {f : Nat → Nat} :
    o.elim 0 f ≠ 0 ↔ ∃ v, o = some v ∧ f v ≠ 0 := by
  cases o with
  | none => simp
  | some v => simp

def run (filter : List SockFilter) (packet : List (BitVec 8)) : Nat :=
  exec packet (filter.map SockFilter.decode) 0 0 0

end ClassicBpf
