import Cirradio.ByteWords
import Cirradio.WireFraming

/-!
# Well-formed messages

A message is well formed when as many bytes follow its header as the header states. A
receiver finds a sequence of such messages again, and what it finds in any bytes are such
messages at the front.
-/

namespace Cirradio.Node
open Security ByteWords

/-- Four bytes are read as a number with the high byte first. -/
theorem decodeU32_toNat (a b c d : UInt8) (rest : Bytes) :
    (decodeU32 (a :: b :: c :: d :: rest)).toNat = bigEndian [a, b, c, d] := by
  have ha := a.toNat_lt
  have hb := b.toNat_lt
  have hc := c.toNat_lt
  have hd := d.toNat_lt
  have hab : a.toNat <<< 24 ||| b.toNat <<< 16 = (a.toNat <<< 8 + b.toNat) <<< 16 := by
    rw [Nat.shiftLeft_add_eq_or_of_lt hb, Nat.shiftLeft_or_distrib, ← Nat.shiftLeft_add]
  have habc : (a.toNat <<< 8 + b.toNat) <<< 16 ||| c.toNat <<< 8 =
      ((a.toNat <<< 8 + b.toNat) <<< 8 + c.toNat) <<< 8 := by
    rw [Nat.shiftLeft_add_eq_or_of_lt hc, Nat.shiftLeft_or_distrib, ← Nat.shiftLeft_add]
  have hvalue : (decodeU32 (a :: b :: c :: d :: rest)).toNat =
      a.toNat <<< 24 ||| b.toNat <<< 16 ||| c.toNat <<< 8 ||| d.toNat := by
    have hone : a.toNat <<< 24 % 2 ^ 32 = a.toNat <<< 24 := by
      rw [Nat.shiftLeft_eq]
      omega
    have htwo : b.toNat <<< 16 % 2 ^ 32 = b.toNat <<< 16 := by
      rw [Nat.shiftLeft_eq]
      omega
    have hthree : c.toNat <<< 8 % 2 ^ 32 = c.toNat <<< 8 := by
      rw [Nat.shiftLeft_eq]
      omega
    rw [← hone, ← htwo, ← hthree]
    rfl
  rw [hvalue, hab, habc, ← Nat.shiftLeft_add_eq_or_of_lt hd]
  simp [bigEndian, littleEndian, Nat.shiftLeft_eq]
  omega

theorem bigEndian_encodeU32 (val : UInt32) : bigEndian (encodeU32 val) = val.toNat := by
  have hval := val.toNat_lt
  simp [bigEndian, littleEndian, encodeU32, Nat.shiftRight_eq_div_pow]
  omega

theorem decodeU32_encodeU32 (val : UInt32) (rest : Bytes) :
    decodeU32 (encodeU32 val ++ rest) = val := by
  apply UInt32.toNat_inj.mp
  exact (decodeU32_toNat _ _ _ _ rest).trans (bigEndian_encodeU32 val)

theorem encodeU32_decodeU32 {buf : Bytes} (h : 4 ≤ buf.length) :
    encodeU32 (decodeU32 buf) = buf.take 4 := by
  match buf, h with
  | a :: b :: c :: d :: rest, _ =>
    have hvalue := decodeU32_toNat a b c d rest
    have ha := a.toNat_lt
    have hb := b.toNat_lt
    have hc := c.toNat_lt
    have hd := d.toNat_lt
    simp only [bigEndian, List.reverse_cons, List.reverse_nil, List.nil_append,
      List.cons_append, littleEndian_cons, littleEndian_nil] at hvalue
    simp only [encodeU32, List.take_succ_cons, List.take_zero, List.cons.injEq,
      ← UInt8.toNat_inj, and_true]
    simp [Nat.shiftRight_eq_div_pow, hvalue]
    omega

@[simp] theorem length_serializeHeader (hdr : MessageHeader) :
    (serializeHeader hdr).length = 13 := rfl

theorem deserializeHeader_serializeHeader (hdr : MessageHeader) :
    deserializeHeader (serializeHeader hdr) = some hdr := by
  have hsrc : (serializeHeader hdr).drop 1 =
      encodeU32 hdr.srcNode ++ (encodeU32 hdr.dstNode ++ encodeU32 hdr.payloadLen) := rfl
  have hdst : (serializeHeader hdr).drop 5 =
      encodeU32 hdr.dstNode ++ encodeU32 hdr.payloadLen := rfl
  have hlen : (serializeHeader hdr).drop 9 = encodeU32 hdr.payloadLen ++ [] := rfl
  have hlong : ¬ (serializeHeader hdr).length < 13 := by
    rw [length_serializeHeader]
    exact Nat.lt_irrefl 13
  rw [deserializeHeader, if_neg hlong, hsrc, hdst, hlen, decodeU32_encodeU32,
    decodeU32_encodeU32, decodeU32_encodeU32]
  rfl

/-- The bytes of a header that was read. -/
theorem serializeHeader_of_deserializeHeader {data : Bytes} {hdr : MessageHeader}
    (h : deserializeHeader data = some hdr) : serializeHeader hdr = data.take 13 := by
  unfold deserializeHeader at h
  split at h
  · cases h
  · next hlong =>
    cases h
    have hfirst : data.take 1 = [data.getD 0 0] := by
      cases data with
      | nil => exact absurd (by decide) hlong
      | cons b rest => rfl
    have hsplit : data.take 13 = data.take 1 ++ ((data.drop 1).take 4 ++
        (data.drop 5).take 4 ++ (data.drop 9).take 4) := by
      change data.take (1 + (4 + (4 + 4))) = _
      rw [List.take_add, List.take_add, List.take_add, List.drop_drop, List.drop_drop,
        List.append_assoc]
    rw [hsplit, hfirst, serializeHeader, encodeU32_decodeU32, encodeU32_decodeU32,
      encodeU32_decodeU32]
    · rfl
    all_goals
      rw [List.length_drop]
      omega

structure WireMessage where
  header : MessageHeader
  payload : Bytes
  length_payload : payload.length = header.payloadLen.toNat

namespace WireMessage

def bytes (m : WireMessage) : Bytes := serializeHeader m.header ++ m.payload

/-- What a receiver gets of the message. -/
def parsed (m : WireMessage) : MessageHeader × Bytes := (m.header, m.payload)

theorem length_bytes (m : WireMessage) :
    m.bytes.length = 13 + m.header.payloadLen.toNat := by
  rw [bytes, List.length_append, length_serializeHeader, m.length_payload]

theorem parsed_injective : Function.Injective parsed := by
  rintro ⟨header, payload, _⟩ ⟨header', payload', _⟩ h
  cases h
  rfl

/-- A message in front is the first that is found. -/
theorem messages_append (m : WireMessage) (rest : Bytes) :
    messages (m.bytes ++ rest) = m.parsed :: messages rest := by
  have htake : (m.bytes ++ rest).take 13 = serializeHeader m.header := by
    rw [bytes, List.append_assoc]
    exact List.take_left' rfl
  have hdrop : (m.bytes ++ rest).drop 13 = m.payload ++ rest := by
    rw [bytes, List.append_assoc]
    exact List.drop_left' rfl
  have hlong : ¬ (m.bytes ++ rest).length < 13 := by
    rw [List.length_append, length_bytes]
    omega
  have hwhole : ¬ (m.payload ++ rest).length < m.header.payloadLen.toNat := by
    rw [List.length_append, m.length_payload]
    omega
  rw [messages, dif_neg hlong]
  simp only [htake, deserializeHeader_serializeHeader, hdrop, hwhole, if_false]
  rw [← m.length_payload, List.take_left, List.drop_left]
  rfl

/-- Nothing is found in a part of a message. -/
theorem messages_take (m : WireMessage) {k : ℕ} (hk : k < m.bytes.length) :
    messages (m.bytes.take k) = [] := by
  rw [length_bytes] at hk
  cases hfound : messages (m.bytes.take k) with
  | nil => rfl
  | cons first later =>
    obtain ⟨hdr, payload⟩ := first
    obtain ⟨hlen, hhdr, -, -⟩ := messages_eq_cons hfound
    rw [List.length_take, length_bytes] at hlen
    have hstart : (m.bytes.take k).take 13 = serializeHeader m.header := by
      rw [List.take_take, Nat.min_eq_left (by omega), bytes]
      exact List.take_left' rfl
    rw [hstart, deserializeHeader_serializeHeader] at hhdr
    cases hhdr
    omega

/-- The bytes of messages one after the other. -/
def stream (ms : List WireMessage) : Bytes := ms.flatMap bytes

theorem stream_append (ms later : List WireMessage) :
    stream (ms ++ later) = stream ms ++ stream later := List.flatMap_append

theorem stream_eq_nil {ms : List WireMessage} (h : stream ms = []) : ms = [] := by
  cases ms with
  | nil => rfl
  | cons m ms =>
    have hlen : (m.bytes ++ stream ms).length = 0 := congrArg List.length h
    rw [List.length_append, length_bytes] at hlen
    omega

theorem messages_stream_append (ms : List WireMessage) (rest : Bytes) :
    messages (stream ms ++ rest) = ms.map parsed ++ messages rest := by
  induction ms with
  | nil => rfl
  | cons m ms ih =>
    have hcons : stream (m :: ms) ++ rest = m.bytes ++ (stream ms ++ rest) := by
      rw [stream, List.flatMap_cons, List.append_assoc]
      rfl
    rw [hcons, messages_append, ih]
    rfl

theorem messages_stream (ms : List WireMessage) : messages (stream ms) = ms.map parsed := by
  have h := messages_stream_append ms []
  rwa [List.append_nil, messages_nil, List.append_nil] at h

/-- What is found in any bytes are well-formed messages in front of the rest. -/
theorem exists_messages (data : Bytes) :
    ∃ ms rest, data = stream ms ++ rest ∧ messages data = ms.map parsed := by
  generalize hfound : messages data = found
  induction found generalizing data with
  | nil => exact ⟨[], data, rfl, rfl⟩
  | cons first later ih =>
    obtain ⟨hdr, payload⟩ := first
    obtain ⟨hlen, hhdr, hpayload, hlater⟩ := messages_eq_cons hfound
    obtain ⟨ms, rest, hrest, hms⟩ := ih _ hlater
    have hsize : payload.length = hdr.payloadLen.toNat := by
      rw [hpayload, List.length_take, List.length_drop]
      omega
    refine ⟨⟨hdr, payload, hsize⟩ :: ms, rest, ?_, by rw [hms]; rfl⟩
    have hheader : serializeHeader hdr = data.take 13 := by
      have h := serializeHeader_of_deserializeHeader hhdr
      rwa [List.take_take, Nat.min_self] at h
    calc data = data.take 13 ++ (data.drop 13).take hdr.payloadLen.toNat ++
          data.drop (13 + hdr.payloadLen.toNat) := by
          rw [List.append_assoc, ← List.drop_drop, List.take_append_drop, List.take_append_drop]
      _ = serializeHeader hdr ++ payload ++ (stream ms ++ rest) := by
          rw [hheader, hpayload, hrest]
      _ = _ := by
          rw [← List.append_assoc]
          rfl

theorem eq_append_of_stream {ms sent : List WireMessage} {rest : Bytes}
    (h : stream sent = stream ms ++ rest) :
    ∃ later, sent = ms ++ later ∧ rest = stream later := by
  have hfound : sent.map parsed = ms.map parsed ++ messages rest := by
    rw [← messages_stream, h, messages_stream_append]
  obtain ⟨ms', later, hsent, hms', -⟩ := List.map_eq_append_iff.mp hfound
  have heq : ms' = ms := List.map_injective_iff.mpr parsed_injective hms'
  subst heq
  refine ⟨later, hsent, ?_⟩
  rw [hsent, stream_append] at h
  exact (List.append_cancel_left h).symm

end WireMessage
end Cirradio.Node
