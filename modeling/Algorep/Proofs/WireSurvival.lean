import Algorep.Program.Wire
import Algorep.Proofs.JsonRoundTrip
import Mathlib.Algebra.GroupWithZero.Nat

namespace Algorep.Proofs
open Program Program.Json Program.Wire

theorem fits_fields (message : Message) : ∀ m ∈ fields message, Fits m.2 := by
  have hint : ∀ i : Int32, Fits (.integer i.toInt) := by
    intro i
    have hlow := i.le_toInt
    have hhigh := i.toInt_lt
    simp only [Fits]
    omega
  intro m hm
  simp only [fields, List.mem_cons, List.not_mem_nil, or_false] at hm
  rcases hm with rfl | rfl | rfl
  · exact hint _
  · trivial
  · exact hint _

/-- The text of a message, read by `deserializeMessage`. -/
theorem deserialize_serialize (floats : Floats) (m : Message) :
    deserializeMessage floats (serializeMessage m) m.tag =
      .message m.tag m.code m.id m.data.bytes := by
  have hobject : readBack (fields m) = .object [(codeKey.bytes,.integer m.code.toInt),
      (dataKey.bytes,.string m.data.bytes),(idKey.bytes,.integer m.id.toInt)] := rfl
  unfold deserializeMessage serializeMessage
  rw [parse_dumpObject floats (fits_fields m), hobject]
  have hcode : atKey codeKey (.object [(codeKey.bytes,.integer m.code.toInt),
      (dataKey.bytes,.string m.data.bytes),(idKey.bytes,.integer m.id.toInt)]) =
      some (.integer m.code.toInt) := rfl
  have hid : atKey idKey (.object [(codeKey.bytes,.integer m.code.toInt),
      (dataKey.bytes,.string m.data.bytes),(idKey.bytes,.integer m.id.toInt)]) =
      some (.integer m.id.toInt) := rfl
  have hdata : atKey dataKey (.object [(codeKey.bytes,.integer m.code.toInt),
      (dataKey.bytes,.string m.data.bytes),(idKey.bytes,.integer m.id.toInt)]) =
      some (.string m.data.bytes) := rfl
  simp [hcode, hid, hdata, getInt, getString]

/-- The string that `receive` finds, when there is room for its NUL. -/
theorem received_text (h : text.length < maxMessageSize) (hnul : ∀ b ∈ text, b ≠ 0)
    (heap stack : Bytes) : (sendBuffer text heap ++ stack).takeWhile (· != 0) = text := by
  have hbuffer : sendBuffer text heap =
      text ++ 0::heap.take (maxMessageSize - text.length - 1) := by
    obtain ⟨k,hk⟩ : ∃ k, maxMessageSize - text.length = k + 1 :=
      ⟨maxMessageSize - text.length - 1,by omega⟩
    unfold sendBuffer
    rw [List.take_append, List.take_of_length_le (Nat.le_of_lt h), hk, List.take_succ_cons]
    simp
  rw [hbuffer, List.append_assoc, List.takeWhile_append_of_pos (by simpa using hnul)]
  simp

/-- Without room for its NUL, only the first bytes of a text travel. -/
theorem sendBuffer_full (h : maxMessageSize ≤ text.length) (heap : Bytes) :
    sendBuffer text heap = text.take maxMessageSize := by
  unfold sendBuffer
  rw [List.take_append_of_le_length h]

theorem received_cut (h : maxMessageSize ≤ text.length) (hnul : ∀ b ∈ text, b ≠ 0)
    (hstack : ∀ b ∈ stack, b ≠ 0) (heap : Bytes) :
    (sendBuffer text heap ++ stack).takeWhile (· != 0) = text.take maxMessageSize ++ stack := by
  have hall : ∀ b ∈ text.take maxMessageSize ++ stack, (b != 0) = true := by
    intro b hb
    rcases List.mem_append.mp hb with hb | hb
    · simpa using hnul b (List.mem_of_mem_take hb)
    · simpa using hstack b hb
  rw [sendBuffer_full h]
  have hwhole : (text.take maxMessageSize ++ stack ++ []).takeWhile (· != 0) = _ :=
    List.takeWhile_append_of_pos hall
  simpa using hwhole

/-- What is received is the message that was sent, whatever lies in memory behind the two
buffers. -/
def Survives (floats : Floats) (m : Message) : Prop :=
  ∀ heap stack, receive floats (sendBuffer (serializeMessage m) heap) stack m.tag =
    .message m.tag m.code m.id m.data.bytes

theorem serialize_nul (m : Message) : ∀ b ∈ serializeMessage m, b ≠ 0 := by
  intro b hb
  have hprintable := dumpObject_printable hb
  omega

/-- A text that is longer than the buffer is cut off, and no JSON any more. -/
theorem receive_cut (floats : Floats) (m : Message) (heap : Bytes)
    (h : maxMessageSize < (serializeMessage m).length) :
    receive floats (sendBuffer (serializeMessage m) heap) [] m.tag = .invalid := by
  unfold receive deserializeMessage
  rw [received_cut (Nat.le_of_lt h) (serialize_nul m) (by simp), List.append_nil]
  have hsplit : dumpObject (fields m) = (serializeMessage m).take maxMessageSize ++
      (serializeMessage m).drop maxMessageSize := (List.take_append_drop _ _).symm
  have hrest : (serializeMessage m).drop maxMessageSize ≠ [] := by
    intro hnil
    have hle := List.drop_eq_nil_iff.mp hnil
    omega
  rw [parse_cut floats (fits_fields m) hsplit hrest]

/-- A text that fills the buffer leaves its end to the memory behind it. -/
theorem receive_full (floats : Floats) (m : Message) (heap : Bytes)
    (h : (serializeMessage m).length = maxMessageSize) :
    receive floats (sendBuffer (serializeMessage m) heap) [0x78] m.tag = .invalid := by
  unfold receive deserializeMessage
  rw [received_cut (Nat.le_of_eq h.symm) (serialize_nul m) (by simp), ← h, List.take_length]
  unfold serializeMessage
  rw [parse_trailing floats (fits_fields m) (by decide)]

theorem Survives.valid (h : Survives floats m) (heap stack : Bytes) :
    receive floats (sendBuffer (serializeMessage m) heap) stack m.tag ≠ .invalid := by
  rw [h heap stack]
  simp

/-! How long the text of a message is. -/

/-- The bytes that `dump` writes for one. -/
def escapedWidth (b : Nat) : Nat :=
  if [0x08,0x09,0x0A,0x0C,0x0D,0x22,0x5C].contains b then 2 else if b ≤ 0x1F then 6 else 1

def decimalWidth (i : Int32) : Nat :=
  (if i.toInt < 0 then 1 else 0) + (Nat.toDigits 10 i.toInt.natAbs).length

def escapedLength (s : Bytes) : Nat := (s.map escapedWidth).sum

/-- What a message takes of the buffer: its code and id in decimal, its data with the escapes,
and the keys and punctuation around them. -/
def wireLength (m : Message) : Nat :=
  25 + decimalWidth m.code + decimalWidth m.id + escapedLength m.data.bytes

theorem length_escape (b : Nat) : (escape b).length = escapedWidth b := by
  unfold escape
  split
  case h_8 hb ht hn hf hr hq hs =>
    have hplain : ¬ [0x08,0x09,0x0A,0x0C,0x0D,0x22,0x5C].contains b := by
      simp only [List.contains_iff_mem, List.mem_cons, List.not_mem_nil, or_false]
      rintro (h | h | h | h | h | h | h)
      · exact hb h
      · exact ht h
      · exact hn h
      · exact hf h
      · exact hr h
      · exact hq h
      · exact hs h
    unfold escapedWidth
    rw [if_neg hplain]
    split <;> simp [ascii]
  all_goals rfl

theorem length_dumpString (s : Bytes) : (dumpString s).length = escapedLength s + 2 := by
  have hescaped : (s.flatMap escape).length = escapedLength s := by
    rw [List.length_flatMap]
    simp only [length_escape, escapedLength]
  simp only [dumpString, List.cons_append, List.length_cons, List.length_append, List.length_nil,
    hescaped]

theorem length_dumpInteger (i : Int32) : (dumpInteger i.toInt).length = decimalWidth i := by
  rw [dumpInteger_eq, List.length_append, decimal, List.length_map, decimalWidth]
  split <;> rfl

theorem length_serialize (m : Message) : (serializeMessage m).length = wireLength m := by
  have hcode := length_dumpInteger m.code
  have hid := length_dumpInteger m.id
  have hdata := length_dumpString m.data.bytes
  have hkeys : (dumpString codeKey.bytes).length = 6 ∧ (dumpString dataKey.bytes).length = 6 ∧
      (dumpString idKey.bytes).length = 4 := by decide
  simp only [serializeMessage, fields, dumpObject, dumpMembers, dumpMember, Scalar.dump,
    List.length_cons, List.length_append, List.length_nil, hkeys, hcode, hid, hdata, wireLength]
  omega

theorem length_le_escapedLength (s : Bytes) : s.length ≤ escapedLength s := by
  induction s with
  | nil => simp
  | cons b s ih =>
    have hb : 1 ≤ escapedWidth b := by
      unfold escapedWidth
      split
      · omega
      · split <;> omega
    simp only [escapedLength, List.map_cons, List.sum_cons, List.length_cons] at ih ⊢
    omega

/-- A STATE message is longer than the log in it. -/
theorem length_stateMessage (id : Int32) (logContents : Utf8) :
    logContents.bytes.length < (serializeMessage (stateMessage id logContents)).length := by
  have hdata := length_le_escapedLength (stateMessage id logContents).data.bytes
  have hlog := length_le_escapedLength logContents.bytes
  have hdump := length_dumpString logContents.bytes
  rw [length_serialize, wireLength]
  simp only [stateMessage, dumpUtf8, dumpObject, dumpMembers, dumpMember, Scalar.dump,
    List.length_cons, List.length_append] at hdata ⊢
  omega

/-- A message that leaves room for a NUL arrives as it is. -/
theorem survives_of_room (floats : Floats) (h : wireLength m < maxMessageSize) :
    Survives floats m := by
  intro heap stack
  rw [← length_serialize] at h
  unfold receive
  rw [received_text h (serialize_nul m) heap stack]
  exact deserialize_serialize floats m

/-- A message survives exactly when it leaves room for a NUL in the buffer. -/
theorem message_survives_iff (floats : Floats) (m : Message) :
    Survives floats m ↔ wireLength m < maxMessageSize := by
  constructor
  · intro hs
    by_contra hge
    rw [← length_serialize] at hge
    rcases Nat.lt_or_eq_of_le (Nat.le_of_not_lt hge) with hlt | heq
    · exact hs.valid [] [] (receive_cut floats m [] hlt)
    · exact hs.valid [] [0x78] (receive_full floats m [] heq.symm)
  · exact survives_of_room floats

/-- A log that fills the buffer never arrives. -/
theorem long_log_lost (floats : Floats) (id : Int32) (logContents : Utf8) (heap : Bytes)
    (h : maxMessageSize ≤ logContents.bytes.length) :
    receive floats (sendBuffer (serializeMessage (stateMessage id logContents)) heap) []
      .failureDetection = .invalid := by
  have hlength := length_stateMessage id logContents
  exact receive_cut floats (stateMessage id logContents) heap (by omega)

def longLog : Utf8 where
  bytes := List.replicate 1000 0x61
  valid := by
    apply wellFormed_ascii
    intro b hb
    rw [List.eq_of_mem_replicate hb]
    decide

def noFloats : Floats where
  isFinite _ := false
  toInt _ := 0

/-- The STATE message with a log of a thousand characters is not valid on arrival. -/
theorem state_message_lost : ¬ Survives noFloats (stateMessage 7 longLog) := by
  intro hs
  have hlength : maxMessageSize ≤ longLog.bytes.length := Nat.le_of_eq List.length_replicate.symm
  have hlost := long_log_lost noFloats 7 longLog [] hlength
  exact hs.valid [] [] hlost

end Algorep.Proofs
