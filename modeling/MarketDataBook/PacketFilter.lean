import MarketDataBook.Library.ClassicBpf
import MarketDataBook.MulticastReceiver

/-! `network/MulticastReceiver.h` on a real interface: the packets `bpf_code` lets through and
the slice `poll` hands to `parse_block`, against the UDP payload a packet's own headers
designate. -/
namespace MarketDataBook
open ByteMemory ClassicBpf

def bpfCode : List SockFilter :=
  [⟨0x28, 0, 0, 0x0000000c⟩,
   ⟨0x15, 0, 7, 0x00000800⟩,
   ⟨0x30, 0, 0, 0x00000017⟩,
   ⟨0x15, 0, 11, 0x00000011⟩,
   ⟨0x28, 0, 0, 0x00000014⟩,
   ⟨0x45, 9, 0, 0x00001fff⟩,
   ⟨0xb1, 0, 0, 0x0000000e⟩,
   ⟨0x48, 0, 0, 0x00000010⟩,
   ⟨0x15, 5, 6, 0x0000e3fa⟩,
   ⟨0x15, 0, 5, 0x000086dd⟩,
   ⟨0x30, 0, 0, 0x00000014⟩,
   ⟨0x15, 0, 3, 0x00000011⟩,
   ⟨0x28, 0, 0, 0x00000038⟩,
   ⟨0x15, 0, 1, 0x0000e3fa⟩,
   ⟨0x6, 0, 0, 0x00040000⟩,
   ⟨0x6, 0, 0, 0x00000000⟩]

def ethHlen : Nat := 14

def ethertypeIpv4 : Nat := 0x0800
def ethertypeIpv6 : Nat := 0x86dd
def protocolUdp : Nat := 17

def Accepted (frame : List Byte) : Prop := run bpfCode frame ≠ 0

/-- The length of the IP header in front of a UDP header: what an IPv4 header says of itself,
or 40 bytes. Later fragments carry no UDP header. -/
def ipHeaderLength (frame : List Byte) : Option Nat := do
  let ethertype ← field frame 12 2
  if ethertype = ethertypeIpv4 then
    let protocol ← field frame 23 1
    let fragment ← field frame 20 2
    let versionIhl ← field frame 14 1
    if protocol = protocolUdp ∧ fragment % 2^13 = 0 then some (4 * (versionIhl % 16)) else none
  else if ethertype = ethertypeIpv6 then
    let nextHeader ← field frame 20 1
    if nextHeader = protocolUdp then some 40 else none
  else none

def udpPayload (frame : List Byte) : Option (Nat × Nat) := do
  let header ← ipHeaderLength frame
  let udpLength ← field frame (ethHlen + header + 4) 2
  if 8 ≤ udpLength then some (header + 8, udpLength - 8) else none

/-- The arguments of `parse_block`, `tp_snaplen` being unsigned and the length an `int`. -/
def pollSlice (ring : Memory) (addr : Nat) : Nat × Int :=
  (addr + (tpNet ring addr).toNat + 20 + 8,
    (tpSnaplen ring addr - BitVec.ofNat 32 ethHlen - 20#32 - 8#32).toInt)

/-- What the kernel puts into the ring frame at an address for a packet. -/
structure Captured (ring : Memory) (addr : Nat) (frame : List Byte) : Prop where
  snaplen : (tpSnaplen ring addr).toNat = frame.length
  bytes : ∀ i, ethHlen + i < frame.length →
    ring (addr + (tpNet ring addr).toNat + i) = frame.getD (ethHlen + i) 0#8
  fits : (tpNet ring addr).toNat + (frame.length - ethHlen) ≤ rxFrameSize

theorem decode_bpfCode : bpfCode.map SockFilter.decode =
    [.ldAbs 2 12, .jeq 0x800 0 7, .ldAbs 1 23, .jeq 0x11 0 11, .ldAbs 2 20, .jset 0x1fff 9 0,
     .ldxMsh 14, .ldInd 2 16, .jeq 0xe3fa 5 6, .jeq 0x86dd 0 5, .ldAbs 1 20, .jeq 0x11 0 3,
     .ldAbs 2 56, .jeq 0xe3fa 0 1, .ret 0x40000, .ret 0] := by
  rfl

theorem run_bpfCode (frame : List Byte) : run bpfCode frame =
    (field frame 12 2).elim 0 fun ethertype =>
      if ethertype = ethertypeIpv4 then
        (field frame 23 1).elim 0 fun protocol =>
          if protocol = protocolUdp then
            (field frame 20 2).elim 0 fun fragment =>
              if fragment &&& 0x1fff ≠ 0 then 0
              else (field frame 14 1).elim 0 fun versionIhl =>
                (field frame ((4 * (versionIhl % 16) + 16) % 2^32) 2).elim 0 fun port =>
                  if port = 58362 then 0x40000 else 0
          else 0
      else if ethertype = ethertypeIpv6 then
        (field frame 20 1).elim 0 fun nextHeader =>
          if nextHeader = protocolUdp then
            (field frame 56 2).elim 0 fun port => if port = 58362 then 0x40000 else 0
          else 0
      else 0 := by
  simp only [run, decode_bpfCode, exec, exec_ite]
  rfl

theorem ipHeaderLength_ipv4 {frame : List Byte} (h : field frame 12 2 = some ethertypeIpv4)
    {n : Nat} : ipHeaderLength frame = some n ↔ field frame 23 1 = some protocolUdp ∧
      (∃ fragment, field frame 20 2 = some fragment ∧ fragment % 2^13 = 0) ∧
      ∃ versionIhl, field frame 14 1 = some versionIhl ∧ 4 * (versionIhl % 16) = n := by
  simp only [ipHeaderLength, h, Option.bind_eq_bind, Option.bind_some, if_true,
    Option.bind_eq_some_iff, Option.ite_none_right_eq_some, Option.some.injEq]
  constructor
  · rintro ⟨protocol, hp, fragment, hf, versionIhl, hv, ⟨rfl, hz⟩, rfl⟩
    exact ⟨hp, ⟨fragment, hf, hz⟩, versionIhl, hv, rfl⟩
  · rintro ⟨hp, ⟨fragment, hf, hz⟩, versionIhl, hv, rfl⟩
    exact ⟨_, hp, fragment, hf, versionIhl, hv, ⟨rfl, hz⟩, rfl⟩

theorem ipHeaderLength_ipv6 {frame : List Byte} (h : field frame 12 2 = some ethertypeIpv6)
    {n : Nat} : ipHeaderLength frame = some n ↔ field frame 20 1 = some protocolUdp ∧ 40 = n := by
  have hne : ethertypeIpv6 ≠ ethertypeIpv4 := by decide
  simp only [ipHeaderLength, h, Option.bind_eq_bind, Option.bind_some, if_neg hne, if_true,
    Option.bind_eq_some_iff, Option.ite_none_right_eq_some, Option.some.injEq]
  constructor
  · rintro ⟨protocol, hp, rfl, rfl⟩
    exact ⟨hp, rfl⟩
  · rintro ⟨hp, rfl⟩
    exact ⟨_, hp, rfl, rfl⟩

theorem ipHeaderLength_other {frame : List Byte} (h4 : field frame 12 2 ≠ some ethertypeIpv4)
    (h6 : field frame 12 2 ≠ some ethertypeIpv6) : ipHeaderLength frame = none := by
  rw [ipHeaderLength]
  cases ht : field frame 12 2 with
  | none => rfl
  | some t =>
    rw [ht, Ne, Option.some.injEq] at h4 h6
    simp [h4, h6]

/-- The last test of both branches. -/
theorem port_test {o : Option Nat} :
    (o.elim 0 fun port => if port = 58362 then 0x40000 else 0) ≠ 0 ↔ o = some 58362 := by
  simp [elim_ne_zero]

theorem accepted_ipv4 {frame : List Byte} (h : field frame 12 2 = some ethertypeIpv4) :
    Accepted frame ↔ field frame 23 1 = some protocolUdp ∧
      (∃ fragment, field frame 20 2 = some fragment ∧ fragment % 2^13 = 0) ∧
      ∃ versionIhl, field frame 14 1 = some versionIhl ∧
        field frame (ethHlen + 4 * (versionIhl % 16) + 2) 2 = some 58362 := by
  have haddr : ∀ v, (4 * (v % 16) + 16) % 2^32 = ethHlen + 4 * (v % 16) + 2 := by
    intro v
    rw [ethHlen]
    omega
  have hmask : ∀ fragment, fragment &&& 0x1fff = fragment % 2^13 := fun fragment =>
    Nat.and_two_pow_sub_one_eq_mod fragment 13
  rw [Accepted, run_bpfCode, h, Option.elim_some, if_pos rfl]
  simp only [elim_ne_zero (f := fun protocol => ite (protocol = protocolUdp) _ 0),
    ite_ne_right_iff, haddr, hmask]
  constructor
  · rintro ⟨protocol, hp, rfl, htests⟩
    obtain ⟨fragment, hf, htests⟩ := elim_ne_zero.mp htests
    obtain ⟨hz, htests⟩ := ite_ne_left_iff.mp htests
    obtain ⟨versionIhl, hv, hport⟩ := elim_ne_zero.mp htests.symm
    exact ⟨hp, ⟨fragment, hf, not_not.mp hz⟩, versionIhl, hv, port_test.mp hport⟩
  · rintro ⟨hp, ⟨fragment, hf, hz⟩, versionIhl, hv, hport⟩
    refine ⟨protocolUdp, hp, rfl, elim_ne_zero.mpr ⟨fragment, hf, ?_⟩⟩
    rw [if_neg (not_not.mpr hz)]
    exact elim_ne_zero.mpr ⟨versionIhl, hv, port_test.mpr hport⟩

theorem accepted_ipv6 {frame : List Byte} (h : field frame 12 2 = some ethertypeIpv6) :
    Accepted frame ↔ field frame 20 1 = some protocolUdp ∧ field frame 56 2 = some 58362 := by
  have hne : ethertypeIpv6 ≠ ethertypeIpv4 := by decide
  rw [Accepted, run_bpfCode, h, Option.elim_some, if_neg hne, if_pos rfl, elim_ne_zero]
  simp only [ite_ne_right_iff, port_test]
  constructor
  · rintro ⟨nextHeader, hp, rfl, hport⟩
    exact ⟨hp, hport⟩
  · rintro ⟨hp, hport⟩
    exact ⟨protocolUdp, hp, rfl, hport⟩

theorem not_accepted_other {frame : List Byte} (h4 : field frame 12 2 ≠ some ethertypeIpv4)
    (h6 : field frame 12 2 ≠ some ethertypeIpv6) : ¬ Accepted frame := by
  intro h
  rw [Accepted, run_bpfCode, elim_ne_zero] at h
  obtain ⟨ethertype, ht, h⟩ := h
  rw [ht, Ne, Option.some.injEq] at h4 h6
  rw [if_neg h4, if_neg h6] at h
  exact h rfl

/-- The filter lets through exactly the heads of UDP datagrams for port 58362. -/
theorem accepted_iff (frame : List Byte) : Accepted frame ↔
    ∃ n, ipHeaderLength frame = some n ∧ field frame (ethHlen + n + 2) 2 = some 58362 := by
  by_cases h4 : field frame 12 2 = some ethertypeIpv4
  · simp only [accepted_ipv4 h4, ipHeaderLength_ipv4 h4]
    constructor
    · rintro ⟨hp, hf, versionIhl, hv, hport⟩
      exact ⟨_, ⟨hp, hf, versionIhl, hv, rfl⟩, hport⟩
    · rintro ⟨n, ⟨hp, hf, versionIhl, hv, rfl⟩, hport⟩
      exact ⟨hp, hf, versionIhl, hv, hport⟩
  · by_cases h6 : field frame 12 2 = some ethertypeIpv6
    · simp only [accepted_ipv6 h6, ipHeaderLength_ipv6 h6]
      constructor
      · rintro ⟨hp, hport⟩
        exact ⟨40, ⟨hp, rfl⟩, hport⟩
      · rintro ⟨n, ⟨hp, rfl⟩, hport⟩
        exact ⟨hp, hport⟩
    · refine iff_of_false (not_accepted_other h4 h6) ?_
      rintro ⟨n, hn, -⟩
      rw [ipHeaderLength_other h4 h6] at hn
      cases hn

def HandsPayload (ring : Memory) (addr : Nat) (frame : List Byte) : Prop :=
  ∃ offset length, udpPayload frame = some (offset, length) ∧
    pollSlice ring addr = (addr + (tpNet ring addr).toNat + offset, (length : Int))

/-- An IPv4 header of 20 bytes, and a frame that ends with the UDP datagram. -/
def PlainDatagram (frame : List Byte) : Prop :=
  field frame 12 2 = some ethertypeIpv4 ∧
    (∃ versionIhl, field frame 14 1 = some versionIhl ∧ versionIhl % 16 = 5) ∧
    ∃ udpLength, field frame (ethHlen + 20 + 4) 2 = some udpLength ∧ 8 ≤ udpLength ∧
      frame.length = ethHlen + 20 + udpLength

theorem Captured.pollLength {ring : Memory} {addr : Nat} {frame : List Byte}
    (h : Captured ring addr frame) : (pollSlice ring addr).2 = (frame.length : Int) - 42 := by
  have hfits := h.fits
  have hsize : rxFrameSize = 2048 := rfl
  have heth : ethHlen = 14 := rfl
  rw [← h.snaplen] at hfits ⊢
  rw [pollSlice]
  generalize tpSnaplen ring addr = snaplen at hfits ⊢
  simp only [BitVec.toInt_eq_toNat_cond, BitVec.toNat_sub, BitVec.toNat_ofNat]
  split_ifs <;> omega

theorem udpPayload_eq_some_iff {frame : List Byte} {p : Nat × Nat} :
    udpPayload frame = some p ↔ ∃ header udpLength, ipHeaderLength frame = some header ∧
      field frame (ethHlen + header + 4) 2 = some udpLength ∧ 8 ≤ udpLength ∧
      (header + 8, udpLength - 8) = p := by
  simp only [udpPayload, Option.bind_eq_bind, Option.bind_eq_some_iff,
    Option.ite_none_right_eq_some, Option.some.injEq]
  constructor
  · rintro ⟨header, hh, udpLength, hl, h8, rfl⟩
    exact ⟨header, udpLength, hh, hl, h8, rfl⟩
  · rintro ⟨header, udpLength, hh, hl, h8, rfl⟩
    exact ⟨header, hh, udpLength, hl, h8, rfl⟩

theorem ipHeaderLength_eq_twenty {frame : List Byte} (h : ipHeaderLength frame = some 20) :
    field frame 12 2 = some ethertypeIpv4 ∧
      ∃ versionIhl, field frame 14 1 = some versionIhl ∧ versionIhl % 16 = 5 := by
  by_cases h4 : field frame 12 2 = some ethertypeIpv4
  · obtain ⟨-, -, versionIhl, hv, heq⟩ := (ipHeaderLength_ipv4 h4).mp h
    exact ⟨h4, versionIhl, hv, by omega⟩
  · by_cases h6 : field frame 12 2 = some ethertypeIpv6
    · obtain ⟨-, heq⟩ := (ipHeaderLength_ipv6 h6).mp h
      omega
    · rw [ipHeaderLength_other h4 h6] at h
      cases h

theorem Accepted.ipHeaderLength {frame : List Byte} (h : Accepted frame)
    (h4 : field frame 12 2 = some ethertypeIpv4) {versionIhl : Nat}
    (hv : field frame 14 1 = some versionIhl) :
    ipHeaderLength frame = some (4 * (versionIhl % 16)) := by
  obtain ⟨n, hn, -⟩ := (accepted_iff frame).mp h
  obtain ⟨-, -, v, hv', rfl⟩ := (ipHeaderLength_ipv4 h4).mp hn
  rw [hv, Option.some.injEq] at hv'
  rw [hn, hv']

theorem HandsPayload.plainDatagram {ring : Memory} {addr : Nat} {frame : List Byte}
    (hc : Captured ring addr frame) (h : HandsPayload ring addr frame) : PlainDatagram frame := by
  obtain ⟨offset, length, hp, hslice⟩ := h
  have hlen := hc.pollLength
  have heth : ethHlen = 14 := rfl
  obtain ⟨header, udpLength, hh, hl, h8, heq⟩ := udpPayload_eq_some_iff.mp hp
  obtain ⟨rfl, rfl⟩ := Prod.mk.inj heq
  have hstart : addr + (tpNet ring addr).toNat + 20 + 8 =
      addr + (tpNet ring addr).toNat + (header + 8) := congrArg Prod.fst hslice
  obtain rfl : header = 20 := by omega
  obtain ⟨h4, hihl⟩ := ipHeaderLength_eq_twenty hh
  rw [congrArg Prod.snd hslice] at hlen
  exact ⟨h4, hihl, udpLength, hl, h8, by omega⟩

/-- For an accepted packet `poll` hands over the payload exactly if the IP header is the 20
bytes it counts on and nothing follows the datagram. -/
theorem handsPayload_iff {ring : Memory} {addr : Nat} {frame : List Byte}
    (hc : Captured ring addr frame) (ha : Accepted frame) :
    HandsPayload ring addr frame ↔ PlainDatagram frame := by
  refine ⟨HandsPayload.plainDatagram hc, ?_⟩
  rintro ⟨h4, ⟨versionIhl, hv, h5⟩, udpLength, hl, h8, hend⟩
  have hh := ha.ipHeaderLength h4 hv
  rw [h5] at hh
  refine ⟨28, udpLength - 8, udpPayload_eq_some_iff.mpr ⟨20, udpLength, hh, hl, h8, rfl⟩, ?_⟩
  refine Prod.ext rfl ?_
  rw [hc.pollLength, hend, ethHlen]
  omega

def captureRing (frame : List Byte) : Memory := fun a =>
  if a = 8 then BitVec.ofNat 8 frame.length
  else if a = 14 then 80#8
  else if a < 80 then 0#8
  else frame.getD (ethHlen + (a - 80)) 0#8

theorem captured_captureRing {frame : List Byte} (h : frame.length < 256) :
    Captured (captureRing frame) 0 frame := by
  have hzero : ∀ a < 80, a ≠ 8 → a ≠ 14 → captureRing frame a = 0#8 := by
    intro a ha h8 h14
    rw [captureRing, if_neg h8, if_neg h14, if_pos ha]
  have hlen : captureRing frame (0 + 8 + 0) = BitVec.ofNat 8 frame.length := if_pos rfl
  have h80 : captureRing frame (0 + 14 + 0) = 80#8 := by
    rw [captureRing, if_neg (by decide), if_pos rfl]
  have hnet : (tpNet (captureRing frame) 0).toNat = 80 := by
    rw [tpNet, toNat_load_succ, toNat_load_succ, hzero _ (by decide) (by decide) (by decide), h80]
    simp [load]
  refine ⟨?_, ?_, ?_⟩
  · rw [tpSnaplen, toNat_load_succ, toNat_load_succ, toNat_load_succ, toNat_load_succ,
      hzero _ (by decide) (by decide) (by decide), hzero _ (by decide) (by decide) (by decide),
      hzero _ (by decide) (by decide) (by decide), hlen]
    simp [load]
    omega
  · intro i _
    rw [hnet, captureRing, if_neg (by omega), if_neg (by omega), if_neg (by omega)]
    congr 2
    omega
  · rw [hnet, rxFrameSize]
    omega

def ipv4Frame (ihl udpLength : Nat) (rest : List Byte) : List Byte :=
  List.replicate 12 0#8 ++ [8#8, 0#8] ++ [BitVec.ofNat 8 (0x40 + ihl)] ++ List.replicate 8 0#8 ++
    [17#8] ++ List.replicate (4 * ihl - 10) 0#8 ++
    [0#8, 0#8, 0xe3#8, 0xfa#8, 0#8, BitVec.ofNat 8 udpLength, 0#8, 0#8] ++ rest

def ipv6Frame (udpLength : Nat) (rest : List Byte) : List Byte :=
  List.replicate 12 0#8 ++ [0x86#8, 0xdd#8] ++ List.replicate 6 0#8 ++ [17#8] ++
    List.replicate 33 0#8 ++ [0#8, 0#8, 0xe3#8, 0xfa#8, 0#8, BitVec.ofNat 8 udpLength, 0#8, 0#8] ++
    rest

theorem handsPayload_ipv4Frame :
    HandsPayload (captureRing (ipv4Frame 5 9 [65#8])) 0 (ipv4Frame 5 9 [65#8]) := by
  refine (handsPayload_iff (captured_captureRing (by decide)) ?_).mpr ?_
  · rw [Accepted]
    decide
  · exact ⟨by decide, ⟨0x45, by decide, by decide⟩, 9, by decide, by decide, by decide⟩

/-- One byte of payload: behind an IPv6 header, behind an IPv4 header with options, and in a
frame padded to the 60 bytes of the link layer. -/
theorem payload_missed :
    (Accepted (ipv6Frame 9 [65#8]) ∧
      ¬ HandsPayload (captureRing (ipv6Frame 9 [65#8])) 0 (ipv6Frame 9 [65#8])) ∧
    (Accepted (ipv4Frame 6 9 [65#8]) ∧
      ¬ HandsPayload (captureRing (ipv4Frame 6 9 [65#8])) 0 (ipv4Frame 6 9 [65#8])) ∧
    (Accepted (ipv4Frame 5 9 (65#8 :: List.replicate 17 0#8)) ∧
      ¬ HandsPayload (captureRing (ipv4Frame 5 9 (65#8 :: List.replicate 17 0#8))) 0
        (ipv4Frame 5 9 (65#8 :: List.replicate 17 0#8))) := by
  refine ⟨⟨by rw [Accepted]; decide, ?_⟩, ⟨by rw [Accepted]; decide, ?_⟩,
    by rw [Accepted]; decide, ?_⟩
  · intro h
    obtain ⟨h4, -, -⟩ := HandsPayload.plainDatagram (captured_captureRing (by decide)) h
    exact absurd h4 (by decide)
  · intro h
    obtain ⟨-, ⟨versionIhl, hv, h5⟩, -⟩ :=
      HandsPayload.plainDatagram (captured_captureRing (by decide)) h
    have hihl : field (ipv4Frame 6 9 [65#8]) 14 1 = some 0x46 := by decide
    rw [hihl, Option.some.injEq] at hv
    omega
  · intro h
    obtain ⟨-, -, udpLength, hl, -, hend⟩ :=
      HandsPayload.plainDatagram (captured_captureRing (by decide)) h
    have hlen : (ipv4Frame 5 9 (65#8 :: List.replicate 17 0#8)).length = 60 := by decide
    have hudp : field (ipv4Frame 5 9 (65#8 :: List.replicate 17 0#8)) (ethHlen + 20 + 4) 2 =
        some 9 := by decide
    rw [hudp, Option.some.injEq] at hl
    rw [hlen, ethHlen] at hend
    omega

/-- The bytes handed over are then the payload's. -/
theorem HandsPayload.bytes {ring : Memory} {addr : Nat} {frame : List Byte}
    (hc : Captured ring addr frame) (h : HandsPayload ring addr frame) :
    ∃ offset length, udpPayload frame = some (offset, length) ∧
      slice ring (pollSlice ring addr).1 (pollSlice ring addr).2.toNat =
        (frame.drop (ethHlen + offset)).take length := by
  obtain ⟨offset, length, hp, hslice⟩ := h
  refine ⟨offset, length, hp, ?_⟩
  have heth : ethHlen = 14 := rfl
  have hlen := hc.pollLength
  have hstart : addr + (tpNet ring addr).toNat + 20 + 8 =
      addr + (tpNet ring addr).toNat + offset := congrArg Prod.fst hslice
  rw [hslice] at hlen ⊢
  dsimp only at hlen ⊢
  rw [Int.toNat_natCast, ← slice_getD (by omega)]
  apply slice_congr
  intro i hi
  rw [Nat.add_assoc, hc.bytes (offset + i) (by omega), Nat.add_assoc]

end MarketDataBook
