import Cirradio.HsmEngine
import Cirradio.WhileLoops

/-!
# Message framing

On the air a message is a header of thirteen bytes and a payload of the length in the
header. A receiver visits the complete messages at the front of what it has read and
stops at the first incomplete one, or where the visit of a message throws.
-/

namespace Cirradio.Node
open Security WhileLoops

structure MessageHeader where
  msgType : UInt8
  srcNode : UInt32
  dstNode : UInt32
  payloadLen : UInt32
  deriving DecidableEq, Repr

/-- High byte first. -/
def encodeU32 (val : UInt32) : Bytes :=
  [(val >>> 24).toUInt8, (val >>> 16).toUInt8, (val >>> 8).toUInt8, val.toUInt8]

def decodeU32 (buf : Bytes) : UInt32 :=
  (buf.getD 0 0).toUInt32 <<< 24 ||| (buf.getD 1 0).toUInt32 <<< 16 |||
    (buf.getD 2 0).toUInt32 <<< 8 ||| (buf.getD 3 0).toUInt32

def serializeHeader (hdr : MessageHeader) : Bytes :=
  hdr.msgType :: (encodeU32 hdr.srcNode ++ encodeU32 hdr.dstNode ++ encodeU32 hdr.payloadLen)

def deserializeHeader (data : Bytes) : Option MessageHeader :=
  if data.length < 13 then none
  else
    some ⟨data.getD 0 0, decodeU32 (data.drop 1), decodeU32 (data.drop 5),
      decodeU32 (data.drop 9)⟩

section Loop
variable {ν : Type}

/-- What a receiver does with a message: its new state, and whether it throws. -/
abbrev OnMessage (ν : Type) := MessageHeader → Bytes → ν → Option (ν × Throws Unit)

/-- What is read of a message behind its header. Where the end of the message has wrapped
around, a beacon is still read from there on. -/
def payloadAt (rxData : Bytes) (offset msgEnd : ℕ) : Bytes :=
  if msgEnd < offset + 13 then rxData.drop (offset + 13)
  else (rxData.drop (offset + 13)).take (msgEnd - (offset + 13))

theorem payloadAt_add (rxData : Bytes) (offset n : ℕ) :
    payloadAt rxData offset (offset + 13 + n) = (rxData.drop (offset + 13)).take n := by
  rw [payloadAt, if_neg (by omega), Nat.add_sub_cancel_left]

/-- A turn of the loop over the bytes read, from an offset. `size_t` has `w` bits. -/
def parseTurn (w : ℕ) (onMessage : OnMessage ν) (rxData : Bytes) (s : ℕ × ν) :
    Option ((ℕ × ν) ⊕ (ν × Throws Unit)) :=
  let (offset, node) := s
  if rxData.length < (offset + 13) % 2 ^ w then some (.inr (node, .ok ()))
  else
    match deserializeHeader ((rxData.drop offset).take 13) with
    | none => some (.inr (node, .ok ()))
    | some parsedHdr =>
      let msgEnd := (offset + 13 + parsedHdr.payloadLen.toNat) % 2 ^ w
      if rxData.length < msgEnd then some (.inr (node, .ok ()))
      else
        match onMessage parsedHdr (payloadAt rxData offset msgEnd) node with
        | none => none
        | some (node, .error e) => some (.inr (node, .error e))
        | some (node, .ok ()) => some (.inl (msgEnd, node))

def parseMessages (w : ℕ) (limit : ℕ) (onMessage : OnMessage ν) (rxData : Bytes) (node : ν) :
    Option (ν × Throws Unit) :=
  if rxData.isEmpty then some (node, .ok ())
  else loop (parseTurn w onMessage rxData) limit (0, node)

end Loop

/-- The complete messages at the front. -/
def messages (data : Bytes) : List (MessageHeader × Bytes) :=
  if _h : data.length < 13 then []
  else
    match deserializeHeader (data.take 13) with
    | none => []
    | some hdr =>
      if (data.drop 13).length < hdr.payloadLen.toNat then []
      else
        (hdr, (data.drop 13).take hdr.payloadLen.toNat) ::
          messages ((data.drop 13).drop hdr.payloadLen.toNat)
termination_by data.length
decreasing_by
  rw [List.length_drop, List.length_drop]
  omega

theorem messages_of_short {data : Bytes} (h : data.length < 13) : messages data = [] := by
  rw [messages, dif_pos h]

@[simp] theorem messages_nil : messages [] = [] := messages_of_short (Nat.succ_pos 12)

theorem messages_eq_nil {data : Bytes} (h : messages data = []) :
    data.length < 13 ∨ deserializeHeader (data.take 13) = none ∨
      ∃ hdr, deserializeHeader (data.take 13) = some hdr ∧
        data.length < 13 + hdr.payloadLen.toNat := by
  unfold messages at h
  split at h
  · next hshort => exact .inl hshort
  · next hlong =>
    cases hhdr : deserializeHeader (data.take 13) with
    | none => exact .inr (.inl rfl)
    | some hdr =>
      simp only [hhdr] at h
      split at h
      · next hcut =>
        rw [List.length_drop] at hcut
        exact .inr (.inr ⟨hdr, rfl, by omega⟩)
      · cases h

theorem messages_eq_cons {data payload : Bytes} {hdr : MessageHeader}
    {later : List (MessageHeader × Bytes)} (h : messages data = (hdr, payload) :: later) :
    13 + hdr.payloadLen.toNat ≤ data.length ∧ deserializeHeader (data.take 13) = some hdr ∧
      payload = (data.drop 13).take hdr.payloadLen.toNat ∧
      messages (data.drop (13 + hdr.payloadLen.toNat)) = later := by
  unfold messages at h
  split at h
  · cases h
  · next hlong =>
    cases hhdr : deserializeHeader (data.take 13) with
    | none =>
      simp only [hhdr] at h
      cases h
    | some hdr' =>
      simp only [hhdr] at h
      split at h
      · cases h
      · next hwhole =>
        rw [List.length_drop] at hwhole
        obtain ⟨hfirst, hrest⟩ := List.cons.inj h
        obtain ⟨rfl, hpayload⟩ := Prod.mk.inj hfirst
        rw [List.drop_drop] at hrest
        exact ⟨by omega, rfl, hpayload.symm, hrest⟩

theorem mem_messages_front {data : Bytes} (hdr : MessageHeader)
    (hhdr : deserializeHeader (data.take 13) = some hdr)
    (hlen : 13 + hdr.payloadLen.toNat ≤ data.length) :
    (hdr, (data.drop 13).take hdr.payloadLen.toNat) ∈ messages data := by
  have hwhole : ¬ (data.drop 13).length < hdr.payloadLen.toNat := by
    rw [List.length_drop]
    omega
  have hlong : ¬ data.length < 13 := by omega
  unfold messages
  rw [dif_neg hlong]
  simp only [hhdr, hwhole, if_false]
  exact List.mem_cons_self

section Visits
variable {ν : Type}

section Turn
variable {w : ℕ} {rxData : Bytes} {offset : ℕ} (node : ν) (onMessage : OnMessage ν)

theorem parseTurn_of_nil (hsize : rxData.length + 13 + 2 ^ 32 ≤ 2 ^ w)
    (hoffset : offset ≤ rxData.length) (h : messages (rxData.drop offset) = []) :
    parseTurn w onMessage rxData (offset, node) = some (.inr (node, .ok ())) := by
  have hstart : (offset + 13) % 2 ^ w = offset + 13 := Nat.mod_eq_of_lt (by omega)
  unfold parseTurn
  simp only [hstart]
  split
  · rfl
  · next hlong =>
    rcases messages_eq_nil h with hshort | hnone | ⟨hdr, hhdr, hcut⟩
    · rw [List.length_drop] at hshort
      omega
    · simp only [hnone]
    · have hlen : hdr.payloadLen.toNat < 2 ^ 32 := hdr.payloadLen.toNat_lt
      have hend : (offset + 13 + hdr.payloadLen.toNat) % 2 ^ w =
          offset + 13 + hdr.payloadLen.toNat := Nat.mod_eq_of_lt (by omega)
      rw [List.length_drop] at hcut
      have hover : rxData.length < offset + 13 + hdr.payloadLen.toNat := by omega
      simp only [hhdr, hend, hover, if_true]

theorem parseTurn_of_cons (hsize : rxData.length < 2 ^ w)
    {hdr : MessageHeader} {payload : Bytes} {later : List (MessageHeader × Bytes)}
    (h : messages (rxData.drop offset) = (hdr, payload) :: later) :
    parseTurn w onMessage rxData (offset, node) =
      match onMessage hdr payload node with
      | none => none
      | some (node, .error e) => some (.inr (node, .error e))
      | some (node, .ok ()) => some (.inl (offset + 13 + hdr.payloadLen.toNat, node)) := by
  obtain ⟨hlen, hhdr, rfl, -⟩ := messages_eq_cons h
  rw [List.length_drop] at hlen
  have hstart : (offset + 13) % 2 ^ w = offset + 13 := Nat.mod_eq_of_lt (by omega)
  have hend : (offset + 13 + hdr.payloadLen.toNat) % 2 ^ w =
      offset + 13 + hdr.payloadLen.toNat := Nat.mod_eq_of_lt (by omega)
  have hlong : ¬ rxData.length < offset + 13 := by omega
  have hwhole : ¬ rxData.length < offset + 13 + hdr.payloadLen.toNat := by omega
  unfold parseTurn
  simp only [hstart, hend, hhdr, hlong, hwhole, if_false]
  rw [payloadAt_add, List.drop_drop]

theorem messages_behind {hdr : MessageHeader} {payload : Bytes}
    {later : List (MessageHeader × Bytes)}
    (h : messages (rxData.drop offset) = (hdr, payload) :: later) :
    offset + 13 + hdr.payloadLen.toNat ≤ rxData.length ∧
      messages (rxData.drop (offset + 13 + hdr.payloadLen.toNat)) = later := by
  obtain ⟨hlen, -, -, hlater⟩ := messages_eq_cons h
  rw [List.length_drop] at hlen
  rw [List.drop_drop, ← Nat.add_assoc] at hlater
  exact ⟨by omega, hlater⟩

theorem loop_parseTurn_of_nil (limit : ℕ) (hsize : rxData.length + 13 + 2 ^ 32 ≤ 2 ^ w)
    (hoffset : offset ≤ rxData.length) (h : messages (rxData.drop offset) = []) :
    loop (parseTurn w onMessage rxData) (limit + 1) (offset, node) = some (node, .ok ()) := by
  rw [loop, parseTurn_of_nil node onMessage hsize hoffset h]

theorem loop_parseTurn_of_cons (limit : ℕ) (hsize : rxData.length < 2 ^ w)
    {hdr : MessageHeader} {payload : Bytes} {later : List (MessageHeader × Bytes)}
    (h : messages (rxData.drop offset) = (hdr, payload) :: later) :
    loop (parseTurn w onMessage rxData) (limit + 1) (offset, node) =
      (onMessage hdr payload node).bind fun
        | (node, .error e) => some (node, .error e)
        | (node, .ok ()) => loop (parseTurn w onMessage rxData) limit
            (offset + 13 + hdr.payloadLen.toNat, node) := by
  rw [loop, parseTurn_of_cons node onMessage hsize h]
  rcases onMessage hdr payload node with _ | ⟨node₁, e | u⟩ <;> rfl

end Turn

variable {onMessage : ℕ → OnMessage ν}

/-- The messages are visited in order until one throws. -/
inductive Visits (onMessage : ℕ → OnMessage ν) :
    List (MessageHeader × Bytes) → ν → ν × Throws Unit → Prop
  | done (node : ν) : Visits onMessage [] node (node, .ok ())
  | throws {hdr : MessageHeader} {payload : Bytes} {node node' : ν} {e : String}
      (later : List (MessageHeader × Bytes)) :
      Returns (fun limit => onMessage limit hdr payload node) (node', .error e) →
      Visits onMessage ((hdr, payload) :: later) node (node', .error e)
  | next {hdr : MessageHeader} {payload : Bytes} {node node' : ν} {result : ν × Throws Unit}
      {later : List (MessageHeader × Bytes)} :
      Returns (fun limit => onMessage limit hdr payload node) (node', .ok ()) →
      Visits onMessage later node' result → Visits onMessage ((hdr, payload) :: later) node result

/-- Where `size_t` does not wrap, the loop visits the messages from its offset on. -/
theorem Visits.ends {w : ℕ} {rxData : Bytes} (hsize : rxData.length + 13 + 2 ^ 32 ≤ 2 ^ w)
    {found : List (MessageHeader × Bytes)} {node : ν} {result : ν × Throws Unit}
    (h : Visits onMessage found node result) {offset : ℕ} (hoffset : offset ≤ rxData.length)
    (hfound : messages (rxData.drop offset) = found) :
    Ends (fun limit => parseTurn w (onMessage limit) rxData) (offset, node) result := by
  induction h generalizing offset with
  | done node =>
    apply Ends.of_inr
    refine ⟨0, fun limit _ => ?_⟩
    exact parseTurn_of_nil node (onMessage limit) hsize hoffset hfound
  | @throws hdr payload node node' e later hvisit =>
    obtain ⟨n, hn⟩ := hvisit
    apply Ends.of_inr
    refine ⟨n, fun limit hlimit => ?_⟩
    have hlimit' : onMessage limit hdr payload node = some (node', .error e) := hn limit hlimit
    change parseTurn w (onMessage limit) rxData (offset, node) = _
    rw [parseTurn_of_cons node (onMessage limit) (by omega) hfound, hlimit']
  | @next hdr payload node node' result later hvisit _ ih =>
    obtain ⟨n, hn⟩ := hvisit
    obtain ⟨hend, hlater⟩ := messages_behind hfound
    refine Ends.of_inl ⟨n, fun limit hlimit => ?_⟩ (ih hend hlater)
    have hlimit' : onMessage limit hdr payload node = some (node', .ok ()) := hn limit hlimit
    change parseTurn w (onMessage limit) rxData (offset, node) = _
    rw [parseTurn_of_cons node (onMessage limit) (by omega) hfound, hlimit']

theorem Visits.returns {w : ℕ} {rxData : Bytes} (hsize : rxData.length + 13 + 2 ^ 32 ≤ 2 ^ w)
    {node : ν} {result : ν × Throws Unit} (h : Visits onMessage (messages rxData) node result) :
    Returns (fun limit => parseMessages w limit (onMessage limit) rxData node) result := by
  unfold parseMessages
  cases rxData with
  | nil =>
    rw [messages_nil] at h
    cases h
    exact .pure _
  | cons b rest =>
    simp only [List.isEmpty_cons, Bool.false_eq_true, if_false]
    exact (h.ends hsize (Nat.zero_le _) rfl).returns

/-- Induction along the loop. The invariant relates the messages still to be visited to the
state, and a throw ends the loop with what it leaves. -/
theorem parseMessages_induction {w limit : ℕ} {onMessage : OnMessage ν} {rxData : Bytes}
    (hsize : rxData.length + 13 + 2 ^ 32 ≤ 2 ^ w)
    (Inv : List (MessageHeader × Bytes) → ν → Prop) (Thrown : ν → Prop)
    (hnext : ∀ m later node node', Inv (m :: later) node →
      onMessage m.1 m.2 node = some (node', .ok ()) → Inv later node')
    (hthrow : ∀ m later node node' e, Inv (m :: later) node →
      onMessage m.1 m.2 node = some (node', .error e) → Thrown node')
    {node node' : ν} {result : Throws Unit} (hnode : Inv (messages rxData) node)
    (h : parseMessages w limit onMessage rxData node = some (node', result)) :
    match result with
    | .ok () => Inv [] node'
    | .error _ => Thrown node' := by
  have hloop : ∀ limit offset node, offset ≤ rxData.length →
      Inv (messages (rxData.drop offset)) node →
      loop (parseTurn w onMessage rxData) limit (offset, node) = some (node', result) →
      match result with
      | .ok () => Inv [] node'
      | .error _ => Thrown node' := by
    intro limit
    induction limit with
    | zero =>
      intro offset node _ _ h
      cases h
    | succ limit ih =>
      intro offset node hoffset hnode h
      cases hfound : messages (rxData.drop offset) with
      | nil =>
        rw [loop_parseTurn_of_nil node onMessage limit hsize hoffset hfound] at h
        cases h
        rwa [hfound] at hnode
      | cons m later =>
        obtain ⟨hdr, payload⟩ := m
        obtain ⟨hend, hlater⟩ := messages_behind hfound
        rw [hfound] at hnode
        rw [loop_parseTurn_of_cons node onMessage limit (by omega) hfound] at h
        obtain ⟨⟨node₁, result₁⟩, hresult, hrest⟩ := Option.bind_eq_some_iff.mp h
        cases result₁ with
        | error e =>
          cases hrest
          exact hthrow (hdr, payload) later node _ e hnode hresult
        | ok u =>
          have hnode₁ := hnext (hdr, payload) later node node₁ hnode hresult
          exact ih _ node₁ hend (by rwa [hlater]) hrest
  unfold parseMessages at h
  split at h
  · next hempty =>
    cases h
    rw [List.isEmpty_iff] at hempty
    rwa [hempty, messages_nil] at hnode
  · exact hloop limit 0 node (Nat.zero_le _) hnode h

/-- A map of the states that commutes with the visits, as long as an invariant holds,
commutes with the loop. -/
theorem parseMessages_map {w limit : ℕ} {onMessage : OnMessage ν} {rxData : Bytes}
    (hsize : rxData.length + 13 + 2 ^ 32 ≤ 2 ^ w) (f : ν → ν) (Inv : ν → Prop)
    (hvisit : ∀ m ∈ messages rxData, ∀ node r, Inv node →
      onMessage m.1 m.2 node = some r →
      Inv r.1 ∧ onMessage m.1 m.2 (f node) = some (f r.1, r.2))
    {node node' : ν} {result : Throws Unit} (hnode : Inv node)
    (h : parseMessages w limit onMessage rxData node = some (node', result)) :
    Inv node' ∧
      parseMessages w limit onMessage rxData (f node) = some (f node', result) := by
  have hloop : ∀ limit offset node, offset ≤ rxData.length →
      (∀ m ∈ messages (rxData.drop offset), m ∈ messages rxData) → Inv node →
      loop (parseTurn w onMessage rxData) limit (offset, node) = some (node', result) →
      Inv node' ∧
        loop (parseTurn w onMessage rxData) limit (offset, f node) = some (f node', result) := by
    intro limit
    induction limit with
    | zero =>
      intro offset node _ _ _ h
      cases h
    | succ limit ih =>
      intro offset node hoffset hlater hnode h
      cases hfound : messages (rxData.drop offset) with
      | nil =>
        rw [loop_parseTurn_of_nil node onMessage limit hsize hoffset hfound] at h
        rw [loop_parseTurn_of_nil (f node) onMessage limit hsize hoffset hfound]
        cases h
        exact ⟨hnode, rfl⟩
      | cons m later =>
        obtain ⟨hdr, payload⟩ := m
        obtain ⟨hend, hbehind⟩ := messages_behind hfound
        rw [hfound] at hlater
        rw [loop_parseTurn_of_cons node onMessage limit (by omega) hfound] at h
        rw [loop_parseTurn_of_cons (f node) onMessage limit (by omega) hfound]
        obtain ⟨⟨node₁, result₁⟩, hresult, hrest⟩ := Option.bind_eq_some_iff.mp h
        obtain ⟨hnode₁, hmapped⟩ :=
          hvisit (hdr, payload) (hlater _ List.mem_cons_self) node _ hnode hresult
        rw [hmapped]
        cases result₁ with
        | error e =>
          cases hrest
          exact ⟨hnode₁, rfl⟩
        | ok u =>
          refine ih _ node₁ hend (fun m hm => ?_) hnode₁ hrest
          rw [hbehind] at hm
          exact hlater m (List.mem_cons_of_mem _ hm)
  unfold parseMessages at h ⊢
  split at h
  · next hempty =>
    cases h
    rw [if_pos hempty]
    exact ⟨hnode, rfl⟩
  · next hsome =>
    rw [if_neg hsome]
    exact hloop limit 0 node (Nat.zero_le _) (fun _ hm => hm) hnode h

end Visits
end Cirradio.Node
