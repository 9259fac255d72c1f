import MarketDataBook.ItchMessages
import MarketDataBook.SpscQueue
import MarketDataBook.WriteAheadLog

/-! One call of `ItchParser::parse_block`, alone on its queue and its log. Nothing bounds the
number of iterations, so the loop is run with fuel; which iterations there are depends on the
block only. -/
namespace MarketDataBook

structure ItchParser where
  queue : SPSCQueue NormalizedOrder
  log : PayloadLog

inductive ParseEnd where
  | returned (parser : ItchParser)
  | outOfBounds
  /-- The fuel is used up and the loop goes on. -/
  | running

/-- `parse_block`; `rdtsc i` is what `__rdtsc` gives in iteration `i`, and the result of `push`
is ignored. -/
def parseBlock (size : Nat) : (fuel : Nat) → (rdtsc : Nat → BitVec 64) → ItchParser → List Byte →
    ParseEnd
  | 0, _, _, _ => .running
  | fuel+1, rdtsc, p, payload =>
    match parseTurn payload with
    | .stop => .returned p
    | .outOfBounds => .outOfBounds
    | .unsupported message rest =>
      parseBlock size fuel (fun i => rdtsc (i+1))
        { p with log := logPayload p.log ⟨message, 45#8, rdtsc 0⟩ } rest
    | .order messageType message newOrder rest =>
      parseBlock size fuel (fun i => rdtsc (i+1))
        { queue := (p.queue.push size newOrder).1
          log := logPayload p.log ⟨message, messageType, rdtsc 0⟩ } rest

def nextPayload (payload : List Byte) : Option (List Byte) :=
  match parseTurn payload with
  | .unsupported _ rest => some rest
  | .order _ _ _ rest => some rest
  | _ => none

def payloadAt (payload : List Byte) : Nat → Option (List Byte)
  | 0 => some payload
  | n+1 => (nextPayload payload).bind fun rest => payloadAt rest n

section Control
variable {size : Nat} {rdtsc : Nat → BitVec 64} {p : ItchParser} {payload rest : List Byte}

/-- An iteration that goes on, whatever it does to the queue and the log. -/
theorem parseBlock_succ (h : nextPayload payload = some rest) (size : Nat)
    (rdtsc : Nat → BitVec 64) (p : ItchParser) : ∃ p', ∀ fuel,
    parseBlock size (fuel+1) rdtsc p payload =
      parseBlock size fuel (fun i => rdtsc (i+1)) p' rest := by
  rw [nextPayload] at h
  cases ht : parseTurn payload with
  | stop => simp [ht] at h
  | outOfBounds => simp [ht] at h
  | unsupported message rest' =>
    simp only [ht, Option.some.injEq] at h
    exact ⟨_, fun fuel => by rw [parseBlock, ht, h]⟩
  | order messageType message newOrder rest' =>
    simp only [ht, Option.some.injEq] at h
    exact ⟨_, fun fuel => by rw [parseBlock, ht, h]⟩

theorem parseBlock_stop (h : parseTurn payload = .stop) (fuel : Nat) :
    parseBlock size (fuel+1) rdtsc p payload = .returned p := by
  rw [parseBlock, h]

theorem nextPayload_stop (h : parseTurn payload = .stop) : nextPayload payload = none := by
  rw [nextPayload, h]

/-- The call returns exactly when some iteration finds nothing more to do. -/
theorem parseBlock_returns_iff :
    (∃ fuel p', parseBlock size fuel rdtsc p payload = .returned p') ↔
      ∃ n last, payloadAt payload n = some last ∧ parseTurn last = .stop := by
  constructor
  · rintro ⟨fuel, p', h⟩
    induction fuel generalizing rdtsc p payload with
    | zero => cases h
    | succ fuel ih =>
      cases hn : nextPayload payload with
      | none =>
        refine ⟨0, payload, rfl, ?_⟩
        rw [nextPayload] at hn
        rw [parseBlock] at h
        cases ht : parseTurn payload with
        | stop => rfl
        | outOfBounds => simp [ht] at h
        | unsupported message rest => simp [ht] at hn
        | order messageType message newOrder rest => simp [ht] at hn
      | some rest =>
        obtain ⟨q, hq⟩ := parseBlock_succ hn size rdtsc p
        rw [hq] at h
        obtain ⟨n, last, hlast, hstop⟩ := ih h
        exact ⟨n+1, last, by rw [payloadAt, hn, Option.bind_some, hlast], hstop⟩
  · rintro ⟨n, last, hlast, hstop⟩
    induction n generalizing rdtsc p payload with
    | zero =>
      cases hlast
      exact ⟨1, p, parseBlock_stop hstop 0⟩
    | succ n ih =>
      obtain ⟨rest, hn, hrest⟩ := Option.bind_eq_some_iff.mp hlast
      obtain ⟨q, hq⟩ := parseBlock_succ hn size rdtsc p
      obtain ⟨fuel, p', hp'⟩ : ∃ fuel p',
          parseBlock size fuel (fun i => rdtsc (i+1)) q rest = .returned p' := ih hrest
      exact ⟨fuel+1, p', by rw [hq, hp']⟩

end Control

def Framed (payload : List Byte) : Prop := ∃ block : Block, block.bytes = payload

def Shrinks (payload : List Byte) : Prop :=
  ∀ n q, payloadAt payload n = some q →
    parseTurn q = .stop ∨ ∃ rest, nextPayload q = some rest ∧ rest.length < q.length

section Framing
variable {payload rest m : List Byte}

theorem framed_of_truncated (h : Truncated payload) : Framed payload :=
  ⟨⟨[], payload, fun _ hm => absurd hm List.not_mem_nil, h⟩, rfl⟩

theorem Framed.cons (hm : Complete m) (h : Framed rest) : Framed (m ++ rest) := by
  obtain ⟨block, rfl⟩ := h
  refine ⟨⟨m::block.messages, block.tail, ?_, block.truncated⟩, ?_⟩
  · intro x hx
    obtain rfl | hx := List.mem_cons.mp hx
    · exact hm
    · exact block.complete x hx
  · simp [Block.bytes]

/-- Induction over the messages of a block. -/
theorem Framed.induct {P : List Byte → Prop} (h : Framed payload)
    (htail : ∀ tail, Truncated tail → P tail)
    (hcons : ∀ m rest, Complete m → Framed rest → P rest → P (m ++ rest)) : P payload := by
  obtain ⟨⟨messages, tail, complete, truncated⟩, rfl⟩ := h
  induction messages with
  | nil => exact htail tail truncated
  | cons m ms ih =>
    have hms : ∀ x ∈ ms, Complete x := fun x hx => complete x (List.mem_cons_of_mem m hx)
    have hbytes : Block.bytes ⟨m::ms, tail, complete, truncated⟩ =
        m ++ Block.bytes ⟨ms, tail, hms, truncated⟩ := by simp [Block.bytes]
    rw [hbytes]
    exact hcons m _ (complete m List.mem_cons_self) ⟨_, rfl⟩ (ih hms)

theorem Complete.nextPayload (h : Complete m) (rest : List Byte) :
    nextPayload (m ++ rest) = some rest := by
  obtain ⟨t, hm, _⟩ := id h
  rw [MarketDataBook.nextPayload]
  cases ho : orderLength t with
  | none => rw [(h.parseTurn_unsupported hm ho rest).1]
  | some len =>
    obtain ⟨o, _, _, hturn⟩ := h.parseTurn_order hm ho rest
    rw [hturn]

theorem Complete.length_pos (h : Complete m) : 0 < m.length := by
  obtain ⟨t, ms, rfl, _⟩ := h.cases
  exact Nat.succ_pos _

/-- An iteration that goes on skips a message, or nothing. -/
theorem nextPayload_split (h : nextPayload payload = some rest) :
    ∃ m, payload = m ++ rest ∧ (m = [] ∨ Complete m) := by
  rw [nextPayload] at h
  cases ht : parseTurn payload with
  | stop => simp [ht] at h
  | outOfBounds => simp [ht] at h
  | unsupported m rest' =>
    simp only [ht, Option.some.injEq] at h
    obtain ⟨hs, t, hhead, hl⟩ := parseTurn_eq_unsupported ht
    rw [h] at hs
    exact ⟨m, hs, complete_of_head hs hhead hl⟩
  | order t m o rest' =>
    simp only [ht, Option.some.injEq] at h
    obtain ⟨ho, _, hs, hhead⟩ := parseTurn_eq_order ht
    rw [h] at hs
    exact ⟨m, hs, complete_of_head hs hhead (messageLength_of_orderLength ho)⟩

theorem Framed.of_nextPayload (h : nextPayload payload = some rest) (hr : Framed rest) :
    Framed payload := by
  obtain ⟨m, rfl, rfl | hm⟩ := nextPayload_split h
  · exact hr
  · exact hr.cons hm

theorem framed_iff_stops :
    Framed payload ↔ ∃ n last, payloadAt payload n = some last ∧ parseTurn last = .stop := by
  constructor
  · intro h
    refine h.induct (P := fun payload => ∃ n last,
      payloadAt payload n = some last ∧ parseTurn last = .stop)
      (fun tail ht => ⟨0, tail, rfl, ht.parseTurn⟩) ?_
    rintro m rest hm _ ⟨n, last, hlast, hstop⟩
    exact ⟨n+1, last, by rw [payloadAt, hm.nextPayload, Option.bind_some, hlast], hstop⟩
  · rintro ⟨n, last, hlast, hstop⟩
    induction n generalizing payload with
    | zero =>
      cases hlast
      exact framed_of_truncated (parseTurn_eq_stop hstop)
    | succ n ih =>
      obtain ⟨rest, hn, hrest⟩ := Option.bind_eq_some_iff.mp hlast
      exact (ih hrest).of_nextPayload hn

theorem Shrinks.next (h : Shrinks payload) (hn : nextPayload payload = some rest) :
    Shrinks rest := by
  intro n q hq
  exact h (n+1) q (by rw [payloadAt, hn, Option.bind_some, hq])

theorem framed_iff_shrinks : Framed payload ↔ Shrinks payload := by
  constructor
  · intro h
    refine h.induct (P := Shrinks) ?_ ?_
    · intro tail ht n q hq
      cases n with
      | zero =>
        cases hq
        exact Or.inl ht.parseTurn
      | succ n => simp [payloadAt, nextPayload_stop ht.parseTurn] at hq
    · intro m rest hm _ ih n q hq
      cases n with
      | zero =>
        cases hq
        refine Or.inr ⟨rest, hm.nextPayload rest, ?_⟩
        have hpos := hm.length_pos
        rw [List.length_append]
        omega
      | succ n =>
        rw [payloadAt, hm.nextPayload, Option.bind_some] at hq
        exact ih n q hq
  · intro h
    -- the measure the loop lacks in general
    induction hlen : payload.length using Nat.strongRecOn generalizing payload with
    | ind len ih =>
      obtain hstop | ⟨rest, hn, hlt⟩ := h 0 payload rfl
      · exact framed_of_truncated (parseTurn_eq_stop hstop)
      · exact (ih rest.length (by omega) (h.next hn) rfl).of_nextPayload hn

end Framing

/-- `parse_block` returns, and every iteration makes progress, exactly on the blocks made of
whole messages of known types and perhaps a cut-off one. -/
theorem parseBlock_returns_iff_framed (size : Nat) (rdtsc : Nat → BitVec 64) (p : ItchParser)
    (payload : List Byte) :
    ((∃ fuel p', parseBlock size fuel rdtsc p payload = .returned p') ↔ Framed payload) ∧
      (Shrinks payload ↔ Framed payload) :=
  ⟨parseBlock_returns_iff.trans framed_iff_stops.symm, framed_iff_shrinks.symm⟩

theorem parseBlock_running {payload : List Byte} (h : nextPayload payload = some payload)
    (size fuel : Nat) (rdtsc : Nat → BitVec 64) (p : ItchParser) :
    parseBlock size fuel rdtsc p payload = .running := by
  induction fuel generalizing rdtsc p with
  | zero => rfl
  | succ fuel ih =>
    obtain ⟨q, hq⟩ := parseBlock_succ h size rdtsc p
    rw [hq, ih]

/-- A zero byte has length 0 in the table: it is logged again and again. -/
theorem zero_byte_never_returns :
    nextPayload [0#8] = some [0#8] ∧
      ¬ ∃ fuel p', parseBlock 4096 fuel (fun _ => 0#64)
        ⟨.new fun _ => .cancelOrder ⟨0, 0, 0, 0, 0⟩, .new⟩ [0#8] = .returned p' := by
  have hnext : nextPayload [0#8] = some [0#8] := by decide
  refine ⟨hnext, ?_⟩
  rintro ⟨fuel, p', h⟩
  rw [parseBlock_running hnext] at h
  cases h

def headerReads : List (Nat × Nat) := [(5, 6), (11, 8), (1, 2), (3, 2)]

def orderReads (messageType : Byte) : List (Nat × Nat) :=
  if messageType = 65#8 then [(20, 4), (32, 4), (24, 8), (19, 1)]
  else if messageType = 69#8 then [(23, 8), (19, 4)]
  else if messageType = 88#8 then [(19, 4)]
  else []

def turnReads (payload : List Byte) : List (Nat × Nat) :=
  match payload with
  | [] => []
  | messageType::_ =>
    (0, 1)::
      match messageLength messageType with
      | none => []
      | some messageLen =>
        if payload.length < messageLen then []
        else
          match orderLength messageType with
          -- `log_payload` copies the whole message
          | none => [(0, messageLen)]
          | some len => (0, len)::(headerReads ++ orderReads messageType)

structure InBounds (block q : List Byte) : Prop where
  inside : q <:+ block
  index : ∀ t, q.head? = some t → 0 ≤ t.toInt ∧ t.toInt ≤ 255
  reads : ∀ r ∈ turnReads q, r.1 + r.2 ≤ q.length

section Bounds
variable {payload q : List Byte} {t : Byte}

theorem messageLength_isSome : (messageLength t).isSome ↔ 0 ≤ t.toInt := by
  have hlen : messageLengthTable.length = 256 := by decide +kernel
  have hlt := BitVec.toInt_lt (x := t)
  rw [messageLength]
  split_ifs with h
  · simpa using h
  · rw [List.getElem?_eq_getElem (by omega)]
    simpa using h

theorem toInt_nonneg_iff : 0 ≤ t.toInt ↔ t.toNat < 128 := by
  rw [BitVec.toInt_eq_toNat_cond]
  split_ifs <;> omega

/-- Past the length test nothing is read outside the payload. -/
theorem turnReads_within (q : List Byte) : ∀ r ∈ turnReads q, r.1 + r.2 ≤ q.length := by
  cases q with
  | nil => exact fun _ hr => absurd hr List.not_mem_nil
  | cons t ms =>
    have hone : 0 + 1 ≤ (t::ms).length := by simp
    intro r hr
    rw [turnReads] at hr
    obtain rfl | hr := List.mem_cons.mp hr
    · exact hone
    cases hl : messageLength t with
    | none => simp [hl] at hr
    | some messageLen =>
      simp only [hl] at hr
      split_ifs at hr with hshort
      · cases hr
      cases ho : orderLength t with
      | none =>
        simp only [ho, List.mem_singleton] at hr
        subst hr
        omega
      | some len =>
        simp only [ho] at hr
        have hlen : len ≤ (t::ms).length := orderLength_eq ho hl ▸ Nat.not_lt.mp hshort
        -- the literal lengths of the source cover the literal offsets
        have hmax : ∀ r ∈ (0, len)::(headerReads ++ orderReads t), r.1 + r.2 ≤ len := by
          obtain ⟨rfl, rfl⟩ | ⟨rfl, rfl⟩ | ⟨rfl, rfl⟩ := orderLength_eq_some ho <;> decide
        exact (hmax r hr).trans hlen

/-- The reads are those whose failure makes a turn go out of bounds. -/
theorem inBounds_iff (h : q <:+ payload) : InBounds payload q ↔ parseTurn q ≠ .outOfBounds := by
  cases q with
  | nil =>
    refine iff_of_true ⟨h, by simp, turnReads_within []⟩ ?_
    rw [parseTurn]
    simp
  | cons t ms =>
    have hlt := BitVec.toInt_lt (x := t)
    have hindex : InBounds payload (t::ms) ↔ (messageLength t).isSome := by
      rw [messageLength_isSome]
      refine ⟨fun hb => (hb.index t rfl).1, fun ht => ⟨h, ?_, turnReads_within _⟩⟩
      rintro s ⟨⟩
      exact ⟨ht, by omega⟩
    rw [hindex]
    cases hl : messageLength t with
    | none => simp [parseTurn, hl]
    | some messageLen =>
      refine iff_of_true rfl ?_
      by_cases hshort : (t::ms).length < messageLen
      · rw [Truncated.parseTurn (Or.inr ⟨t, messageLen, rfl, hl, hshort⟩)]
        simp
      rw [parseTurn]
      simp only [hl, if_neg hshort]
      cases ho : orderLength t with
      | none => simp
      | some len =>
        have hlen : len ≤ (t::ms).length := orderLength_eq ho hl ▸ Nat.not_lt.mp hshort
        obtain ⟨o, hd⟩ := decode_some ho hlen
        obtain ⟨m, hr⟩ := readBytes_some (m := t::ms) 0 len (by omega)
        simp [parseOrderTurn, hr, hd]

/-- Iterations start where whole messages end. -/
theorem payloadAt_split {n : Nat} (h : payloadAt payload n = some q) :
    ∃ messages : List (List Byte), (∀ m ∈ messages, Complete m) ∧
      payload = messages.flatten ++ q := by
  induction n generalizing payload with
  | zero =>
    cases h
    exact ⟨[], fun _ hm => absurd hm List.not_mem_nil, rfl⟩
  | succ n ih =>
    obtain ⟨rest, hn, hrest⟩ := Option.bind_eq_some_iff.mp h
    obtain ⟨messages, hall, rfl⟩ := ih hrest
    obtain ⟨m, rfl, rfl | hm⟩ := nextPayload_split hn
    · exact ⟨messages, hall, rfl⟩
    · refine ⟨m::messages, ?_, by simp⟩
      intro x hx
      obtain rfl | hx := List.mem_cons.mp hx
      · exact hm
      · exact hall x hx

theorem payloadAt_flatten (messages : List (List Byte)) (h : ∀ m ∈ messages, Complete m)
    (q : List Byte) : payloadAt (messages.flatten ++ q) messages.length = some q := by
  induction messages with
  | nil => rfl
  | cons m ms ih =>
    have hm := h m List.mem_cons_self
    rw [List.flatten_cons, List.append_assoc, List.length_cons, payloadAt, hm.nextPayload,
      Option.bind_some, ih fun x hx => h x (List.mem_cons_of_mem m hx)]

end Bounds

/-- `parse_block` stays inside its block and the table exactly when no byte above 127 stands
where a message type is expected. -/
theorem parseBlock_in_bounds_iff (payload : List Byte) :
    (∀ n q, payloadAt payload n = some q → InBounds payload q) ↔
      ∀ (messages : List (List Byte)) (rest : List Byte) (t : Byte),
        (∀ m ∈ messages, Complete m) → payload = messages.flatten ++ rest →
          rest.head? = some t → t.toNat < 128 := by
  constructor
  · intro h messages rest t hall hs ht
    subst hs
    exact toInt_nonneg_iff.mp ((h _ rest (payloadAt_flatten messages hall rest)).index t ht).1
  · intro h n q hq
    obtain ⟨messages, hall, hs⟩ := payloadAt_split hq
    refine ⟨⟨messages.flatten, hs.symm⟩, ?_, turnReads_within q⟩
    intro t ht
    have hlt := BitVec.toInt_lt (x := t)
    exact ⟨toInt_nonneg_iff.mpr (h messages q t hall hs ht), by omega⟩

/-- A block of the single byte 0x80: the table is indexed with -128. -/
theorem high_byte_out_of_bounds :
    payloadAt [128#8] 0 = some [128#8] ∧ (128#8 : Byte).toInt = -128 ∧
      ¬ InBounds [128#8] [128#8] := by
  refine ⟨rfl, by decide, fun h => ?_⟩
  have hneg : ¬ 0 ≤ (128#8 : Byte).toInt := by decide
  exact hneg (h.index 128#8 rfl).1

end MarketDataBook
