import MarketDataBook.ItchParser

/-! Complete messages. The decoders read only the bytes of the message at the front of a
payload, so decoding it from the block and from a log frame gives the same order. -/
namespace MarketDataBook
open ByteMemory

/-- One whole message of a type with a non-zero length in the table. -/
def Complete (message : List Byte) : Prop :=
  ∃ t, message.head? = some t ∧ messageLength t = some message.length

def Truncated (tail : List Byte) : Prop :=
  tail = [] ∨ ∃ t len, tail.head? = some t ∧ messageLength t = some len ∧ tail.length < len

theorem truncated_nil : Truncated [] := Or.inl rfl

structure Block where
  messages : List (List Byte)
  tail : List Byte
  complete : ∀ m ∈ messages, Complete m
  truncated : Truncated tail

def Block.bytes (block : Block) : List Byte := block.messages.flatten ++ block.tail

def messageOrder (message : List Byte) : Option NormalizedOrder :=
  message.head?.bind fun t => (decode t message).join

def messageTag (message : List Byte) : Byte :=
  match message.head? with
  | none => 45#8
  | some t => if (orderLength t).isSome then t else 45#8

section Reads
variable {m rest : List Byte} {header : Header}

theorem readWord_append {offset n : Nat} (h : offset + n ≤ m.length) :
    readWord (m ++ rest) offset n = readWord m offset n := by
  have ha : offset + n ≤ (m ++ rest).length := by
    rw [List.length_append]
    omega
  rw [readWord, readWord, if_pos h, if_pos ha]
  congr 1
  apply load_congr
  intro i hi
  simp only [List.getD]
  rw [List.getElem?_append_left (by omega)]

theorem readBytes_append {offset n : Nat} (h : offset + n ≤ m.length) :
    readBytes (m ++ rest) offset n = readBytes m offset n := by
  have ha : offset + n ≤ (m ++ rest).length := by
    rw [List.length_append]
    omega
  rw [readBytes, readBytes, if_pos h, if_pos ha, List.drop_append_of_le_length (by omega),
    List.take_append_of_le_length (by rw [List.length_drop]; omega)]

theorem readWord_some (offset n : Nat) (h : offset + n ≤ m.length) :
    ∃ v, readWord m offset n = some v := ⟨_, if_pos h⟩

theorem readBytes_some (offset n : Nat) (h : offset + n ≤ m.length) :
    ∃ v, readBytes m offset n = some v := ⟨_, if_pos h⟩

theorem extractHeader_append (h : 19 ≤ m.length) :
    extractHeader (m ++ rest) = extractHeader m := by
  rw [extractHeader, readWord_append (by omega), readWord_append (by omega),
    readWord_append (by omega), readWord_append (by omega)]
  rfl

theorem extractHeader_some (h : 19 ≤ m.length) : ∃ header, extractHeader m = some header := by
  obtain ⟨_, h1⟩ := readWord_some (m := m) 5 6 (by omega)
  obtain ⟨_, h2⟩ := readWord_some (m := m) 11 8 (by omega)
  obtain ⟨_, h3⟩ := readWord_some (m := m) 1 2 (by omega)
  obtain ⟨_, h4⟩ := readWord_some (m := m) 3 2 (by omega)
  rw [extractHeader, h1, h2, h3, h4]
  exact ⟨_, rfl⟩

theorem parseAddOrder_append (h : 36 ≤ m.length) :
    parseAddOrder (m ++ rest) header = parseAddOrder m header := by
  rw [parseAddOrder, readWord_append (by omega), readWord_append (by omega),
    readBytes_append (by omega), List.getElem?_append_left (by omega)]
  rfl

theorem parseAddOrder_some (header : Header) (h : 36 ≤ m.length) : ∃ o, parseAddOrder m header = some o := by
  obtain ⟨_, h1⟩ := readWord_some (m := m) 20 4 (by omega)
  obtain ⟨_, h2⟩ := readWord_some (m := m) 32 4 (by omega)
  obtain ⟨_, h3⟩ := readBytes_some (m := m) 24 8 (by omega)
  have h4 : m[19]? = some _ := List.getElem?_eq_getElem (by omega)
  rw [parseAddOrder, h1, h2, h3, h4]
  exact ⟨_, rfl⟩

theorem parseExecutedOrder_append (h : 31 ≤ m.length) :
    parseExecutedOrder (m ++ rest) header = parseExecutedOrder m header := by
  rw [parseExecutedOrder, readWord_append (by omega), readWord_append (by omega)]
  rfl

theorem parseExecutedOrder_some (header : Header) (h : 31 ≤ m.length) :
    ∃ o, parseExecutedOrder m header = some o := by
  obtain ⟨_, h1⟩ := readWord_some (m := m) 23 8 (by omega)
  obtain ⟨_, h2⟩ := readWord_some (m := m) 19 4 (by omega)
  rw [parseExecutedOrder, h1, h2]
  exact ⟨_, rfl⟩

theorem parseCancelOrder_append (h : 23 ≤ m.length) :
    parseCancelOrder (m ++ rest) header = parseCancelOrder m header := by
  rw [parseCancelOrder, readWord_append (by omega)]
  rfl

theorem parseCancelOrder_some (header : Header) (h : 23 ≤ m.length) : ∃ o, parseCancelOrder m header = some o := by
  obtain ⟨_, h1⟩ := readWord_some (m := m) 19 4 (by omega)
  rw [parseCancelOrder, h1]
  exact ⟨_, rfl⟩

end Reads

theorem orderLength_eq_some {t : Byte} {len : Nat} (h : orderLength t = some len) :
    (t = 65#8 ∧ len = 36) ∨ (t = 69#8 ∧ len = 31) ∨ (t = 88#8 ∧ len = 23) := by
  rw [orderLength] at h
  split_ifs at h with h1 h2 h3
  · exact Or.inl ⟨h1, (Option.some.inj h).symm⟩
  · exact Or.inr (Or.inl ⟨h2, (Option.some.inj h).symm⟩)
  · exact Or.inr (Or.inr ⟨h3, (Option.some.inj h).symm⟩)

theorem messageLength_of_orderLength {t : Byte} {len : Nat} (h : orderLength t = some len) :
    messageLength t = some len := by
  obtain ⟨rfl, rfl⟩ | ⟨rfl, rfl⟩ | ⟨rfl, rfl⟩ := orderLength_eq_some h <;> decide

theorem orderLength_eq {t : Byte} {len messageLen : Nat} (h : orderLength t = some len)
    (hl : messageLength t = some messageLen) : len = messageLen := by
  rw [messageLength_of_orderLength h] at hl
  exact Option.some.inj hl

theorem messageLength_le {t : Byte} {len : Nat} (h : messageLength t = some len) : len ≤ 50 := by
  have hall : ∀ n ∈ messageLengthTable, n ≤ 50 := by decide +kernel
  rw [messageLength] at h
  split_ifs at h
  exact hall len (List.mem_of_getElem? h)

section Decode
variable {m : List Byte} {t : Byte} {len : Nat}

theorem decode_append (rest : List Byte) (ht : orderLength t = some len) (h : len ≤ m.length) :
    decode t (m ++ rest) = decode t m := by
  obtain ⟨rfl, rfl⟩ | ⟨rfl, rfl⟩ | ⟨rfl, rfl⟩ := orderLength_eq_some ht
  · rw [decode, decode, extractHeader_append (by omega)]
    congr 1
    funext header
    simp only [parseOrder, parseAddOrder_append h, if_true]
  · rw [decode, decode, extractHeader_append (by omega)]
    congr 1
    funext header
    simp only [parseOrder, parseExecutedOrder_append h]
    rfl
  · rw [decode, decode, extractHeader_append (by omega)]
    congr 1
    funext header
    simp only [parseOrder, parseCancelOrder_append h]
    rfl

theorem decode_some (ht : orderLength t = some len) (h : len ≤ m.length) :
    ∃ o, decode t m = some (some o) := by
  have hlen : 19 ≤ m.length := by
    obtain ⟨_, rfl⟩ | ⟨_, rfl⟩ | ⟨_, rfl⟩ := orderLength_eq_some ht <;> omega
  obtain ⟨header, hh⟩ := extractHeader_some hlen
  obtain ⟨rfl, rfl⟩ | ⟨rfl, rfl⟩ | ⟨rfl, rfl⟩ := orderLength_eq_some ht
  · obtain ⟨o, ho⟩ := parseAddOrder_some header h
    exact ⟨o, by simp [decode, hh, parseOrder, ho]⟩
  · obtain ⟨o, ho⟩ := parseExecutedOrder_some header h
    exact ⟨o, by simp [decode, hh, parseOrder, ho]⟩
  · obtain ⟨o, ho⟩ := parseCancelOrder_some header h
    exact ⟨o, by simp [decode, hh, parseOrder, ho]⟩

theorem decode_unsupported (ht : orderLength t = none) (h : 19 ≤ m.length) :
    decode t m = some none := by
  obtain ⟨header, hh⟩ := extractHeader_some h
  rw [orderLength] at ht
  split_ifs at ht with h1 h2 h3
  simp [decode, hh, parseOrder, h1, h2, h3]

theorem decode_isSome (t : Byte) (h : 36 ≤ m.length) : ∃ o, decode t m = some o := by
  cases ht : orderLength t with
  | none => exact ⟨none, decode_unsupported ht (by omega)⟩
  | some len =>
    have hlen : len ≤ m.length := by
      obtain ⟨_, rfl⟩ | ⟨_, rfl⟩ | ⟨_, rfl⟩ := orderLength_eq_some ht <;> omega
    obtain ⟨o, ho⟩ := decode_some ht hlen
    exact ⟨some o, ho⟩

theorem decode_join_unsupported (ht : orderLength t = none) (m : List Byte) :
    (decode t m).join = none := by
  rw [orderLength] at ht
  split_ifs at ht with h1 h2 h3
  cases hh : extractHeader m with
  | none => simp [decode, hh]
  | some header => simp [decode, hh, parseOrder, h1, h2, h3]

end Decode

section Turns
variable {m : List Byte}

theorem Complete.cases (h : Complete m) : ∃ t ms, m = t::ms ∧ messageLength t = some m.length := by
  obtain ⟨t, ht, hl⟩ := h
  cases m with
  | nil => cases ht
  | cons s ms =>
    cases ht
    exact ⟨t, ms, rfl, hl⟩

theorem Complete.length_le (h : Complete m) : m.length ≤ 50 := by
  obtain ⟨_, _, hl⟩ := h
  exact messageLength_le hl

/-- A supported message at the front of the payload is logged, decoded and skipped. -/
theorem Complete.parseTurn_order (h : Complete m) {t : Byte} {len : Nat} (hm : m.head? = some t)
    (ht : orderLength t = some len) (rest : List Byte) :
    ∃ o, messageOrder m = some o ∧ messageTag m = t ∧
      parseTurn (m ++ rest) = .order t m o rest := by
  obtain ⟨s, ms, rfl, hl⟩ := h.cases
  cases hm
  have hlen : (t::ms).length = len := by
    rw [messageLength_of_orderLength ht] at hl
    exact (Option.some.inj hl).symm
  obtain ⟨o, hd⟩ := decode_some ht hlen.ge
  have hlt : ¬ (t::(ms ++ rest)).length < (t::ms).length := by simp
  have hread : readBytes (t::(ms ++ rest)) 0 len = some (t::ms) := by
    have happ : t::(ms ++ rest) = (t::ms) ++ rest := rfl
    rw [happ, readBytes_append (by omega), readBytes, if_pos (by omega), ← hlen]
    simp
  have hdec : decode t (t::(ms ++ rest)) = some (some o) := (decode_append rest ht hlen.ge).trans hd
  have hdrop : (t::(ms ++ rest)).drop len = rest := by
    rw [← hlen]
    simp
  refine ⟨o, by simp [messageOrder, hd], by simp [messageTag, ht], ?_⟩
  simp only [parseTurn, List.cons_append, hl, if_neg hlt, ht, parseOrderTurn, hread, hdec, hdrop]

theorem Complete.parseTurn_unsupported (h : Complete m) {t : Byte} (hm : m.head? = some t)
    (ht : orderLength t = none) (rest : List Byte) :
    parseTurn (m ++ rest) = .unsupported m rest ∧ messageTag m = 45#8 := by
  obtain ⟨s, ms, rfl, hl⟩ := h.cases
  cases hm
  have hlt : ¬ (t::ms ++ rest).length < (t::ms).length := by simp
  refine ⟨?_, by simp [messageTag, ht]⟩
  simp only [parseTurn, List.cons_append, hl] at hlt ⊢
  rw [if_neg hlt, ht]
  simp

theorem Truncated.parseTurn {tail : List Byte} (h : Truncated tail) : parseTurn tail = .stop := by
  obtain rfl | ⟨t, len, ht, hl, hlt⟩ := h
  · rfl
  · cases tail with
    | nil => rfl
    | cons s ms =>
      cases ht
      simp only [MarketDataBook.parseTurn, hl, if_pos hlt]

end Turns

theorem parseOrderTurn_eq {payload m rest : List Byte} {t s : Byte} {len : Nat}
    {o : NormalizedOrder} (h : parseOrderTurn t len payload = .order s m o rest) :
    s = t ∧ readBytes payload 0 len = some m ∧ decode t payload = some (some o) ∧
      rest = payload.drop len := by
  rw [parseOrderTurn] at h
  split at h
  · next hr hd =>
    cases h
    exact ⟨rfl, hr, hd, rfl⟩
  · cases h

theorem readBytes_front {payload m : List Byte} {len : Nat}
    (h : readBytes payload 0 len = some m) :
    m.length = len ∧ payload = m ++ payload.drop len := by
  rw [readBytes] at h
  split_ifs at h with hle
  cases h
  rw [Nat.zero_add] at hle
  refine ⟨by simpa using hle, ?_⟩
  rw [List.drop_zero, List.take_append_drop]

/-- What an order turn has read, for any payload. -/
theorem parseTurn_eq_order {payload m rest : List Byte} {t : Byte} {o : NormalizedOrder}
    (h : parseTurn payload = .order t m o rest) :
    orderLength t = some m.length ∧ decode t m = some (some o) ∧ payload = m ++ rest ∧
      payload.head? = some t := by
  cases payload with
  | nil => cases h
  | cons s ms =>
    rw [parseTurn] at h
    cases hl : messageLength s with
    | none => simp [hl] at h
    | some messageLen =>
      cases ho : orderLength s with
      | none =>
        simp only [hl, ho] at h
        split_ifs at h
      | some len =>
        simp only [hl, ho] at h
        split_ifs at h
        obtain ⟨rfl, hr, hd, rfl⟩ := parseOrderTurn_eq h
        obtain ⟨hlen, hsplit⟩ := readBytes_front hr
        refine ⟨by rw [ho, hlen], ?_, hsplit, rfl⟩
        rw [hsplit, decode_append _ ho hlen.ge] at hd
        exact hd

theorem parseTurn_eq_unsupported {payload m rest : List Byte}
    (h : parseTurn payload = .unsupported m rest) :
    payload = m ++ rest ∧ ∃ t, payload.head? = some t ∧ messageLength t = some m.length := by
  cases payload with
  | nil => cases h
  | cons s ms =>
    rw [parseTurn] at h
    cases hl : messageLength s with
    | none => simp [hl] at h
    | some messageLen =>
      cases ho : orderLength s with
      | none =>
        simp only [hl, ho] at h
        split_ifs at h with hshort
        cases h
        refine ⟨(List.take_append_drop _ _).symm, s, rfl, ?_⟩
        rw [hl, List.length_take, Nat.min_eq_left (by omega)]
      | some len =>
        simp only [hl, ho] at h
        split_ifs at h
        rw [parseOrderTurn] at h
        split at h <;> cases h

theorem parseTurn_eq_stop {payload : List Byte} (h : parseTurn payload = .stop) :
    Truncated payload := by
  cases payload with
  | nil => exact truncated_nil
  | cons s ms =>
    rw [parseTurn] at h
    cases hl : messageLength s with
    | none => simp [hl] at h
    | some messageLen =>
      simp only [hl] at h
      split_ifs at h with hshort
      · exact Or.inr ⟨s, messageLen, rfl, hl, hshort⟩
      · cases ho : orderLength s with
        | none => simp [ho] at h
        | some len =>
          simp only [ho, parseOrderTurn] at h
          split at h <;> cases h

/-- Bytes that start with a type byte and have its length are a message, or nothing at all. -/
theorem complete_of_head {payload m rest : List Byte} {t : Byte} (hs : payload = m ++ rest)
    (ht : payload.head? = some t) (hl : messageLength t = some m.length) : m = [] ∨ Complete m := by
  cases m with
  | nil => exact Or.inl rfl
  | cons s ms =>
    rw [hs] at ht
    exact Or.inr ⟨t, ht, hl⟩

def addCancelBlock : Block where
  messages := [65#8 :: List.replicate 18 0#8 ++ 66#8 :: List.replicate 16 0#8,
    83#8 :: List.replicate 11 0#8, 88#8 :: List.replicate 22 0#8]
  tail := [65#8]
  complete := by
    intro m hm
    simp only [List.mem_cons, List.not_mem_nil, or_false] at hm
    obtain rfl | rfl | rfl := hm
    · exact ⟨65#8, rfl, by decide⟩
    · exact ⟨83#8, rfl, by decide⟩
    · exact ⟨88#8, rfl, by decide⟩
  truncated := Or.inr ⟨65#8, 36, rfl, by decide, by decide⟩

end MarketDataBook
