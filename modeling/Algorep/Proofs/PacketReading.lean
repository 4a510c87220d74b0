import Algorep.Program.Packets
import Algorep.Proofs.SubmittedData
import Algorep.Proofs.WireSurvival

namespace Algorep.Proofs
open Program Program.Json Program.Wire Program.Packets

/-! Every message is read back from its text. -/

/-- What a text can carry: a number that is an `int`, and a value that takes one line of the
log file. -/
def Plain : Datum → Prop
  | .value value => '\n' ∉ value.toList
  | .number i => -2 ^ 31 ≤ i ∧ i < 2 ^ 31

def said : Heartbeat.Message n → List Datum
  | .ping => []
  | .server message => carried message

theorem toInt_ofInt (h : Plain (.number i)) : (Int32.ofInt i).toInt = i :=
  Int32.toInt_ofInt_of_le h.1 h.2

theorem fits_of_plain (h : Plain (.number i)) : Fits (.integer i) := by
  simp only [Plain] at h
  simp only [Fits]
  omega

theorem plain_node (hn : n ≤ 2 ^ 31) (i : Fin n) : Plain (.number i.val) := by
  have hi := i.isLt
  simp only [Plain]
  omega

theorem plain_unset : Plain (.number (-1)) := by
  simp [Plain]

section Fields
variable {json : Value} {key : Utf8} (floats : Floats)

theorem intAt_eq (h : Plain (.number i)) (hk : atKey key json = some (.integer i)) :
    intAt floats key json = some i := by
  simp [intAt, hk, getInt, toInt_ofInt h]

theorem intValue_eq (h : Plain (.number i)) (hk : atKey key json = some (.integer i)) :
    intValue floats key json = some (some i) := by
  simp [intValue, hk, getInt, toInt_ofInt h]

theorem intValue_missing (hk : atKey key json = none) : intValue floats key json = some none := by
  simp [intValue, hk]

theorem stringAt_eq (hk : atKey key json = some (.string text)) :
    stringAt key json = some text := by
  simp [stringAt, hk, getString]

theorem stringValue_eq (hk : atKey key json = some (.string text)) :
    stringValue key json = some text := by
  simp [stringValue, hk, getString]

theorem stringValue_missing (hk : atKey key json = none) : stringValue key json = some [] := by
  simp [stringValue, hk]

end Fields

section Handlers
variable (floats : Floats) (id : Int32)

/-- An object with one number. -/
theorem parse_number (key : Utf8) (h : Plain (.number i)) :
    ∃ json, parse floats (dumpUtf8 [(key,.integer i)]).bytes = some json ∧
      intAt floats key json = some i := by
  have hfits : ∀ m ∈ [(key,Scalar.integer i)], Fits m.2 := by simpa using fits_of_plain h
  have hkey : atKey key (readBack [(key,.integer i)]) = some (.integer i) := by
    simp [atKey, readBack, addMember, assign, scalarValue]
  exact ⟨_,parse_dumpObject floats hfits,intAt_eq floats h hkey⟩

theorem roundIdOf_dump (h : Plain (.number roundId)) :
    roundIdOf floats (dumpUtf8 [(roundIdKey,.integer roundId)]).bytes = roundId := by
  obtain ⟨json,hparse,hround⟩ := parse_number floats roundIdKey h
  simp [roundIdOf, hparse, hround]

/-- The fields of a PROPOSE and of an ACCEPTED. -/
theorem parse_proposal (h : Plain (.number roundId)) (value : String) :
    ∃ json, parse floats (dumpUtf8 [(roundIdKey,.integer roundId),
        (valueKey,.string (utf8Of value))]).bytes = some json ∧
      intAt floats roundIdKey json = some roundId ∧
      stringAt valueKey json = some (textOf value) := by
  have hfits : ∀ m ∈ [(roundIdKey,Scalar.integer roundId),(valueKey,.string (utf8Of value))],
      Fits m.2 := by
    simpa [Fits] using fits_of_plain h
  exact ⟨_,parse_dumpObject floats hfits,intAt_eq floats h rfl,stringAt_eq rfl⟩

theorem readPropose_dump (h : Plain (.number roundId)) (value : String) :
    readPropose floats id (consensusData (.propose x roundId value)).bytes =
      some (.propose id.toInt roundId value) := by
  obtain ⟨json,hparse,hround,hvalue⟩ := parse_proposal floats h value
  simp [readPropose, consensusData, hparse, hround, hvalue, stringOf_textOf]

theorem readAccepted_dump (h : Plain (.number roundId)) (value : String) :
    readAccepted floats id (consensusData (.accepted x roundId value)).bytes =
      some (.accepted id.toInt roundId value) := by
  obtain ⟨json,hparse,hround,hvalue⟩ := parse_proposal floats h value
  simp [readAccepted, consensusData, roundIdOf, hparse, hround, hvalue, stringOf_textOf]

theorem readPromise_empty (h : Plain (.number roundId)) :
    readPromise floats id (consensusData (.promise x roundId none)).bytes =
      some (.promise id.toInt roundId none) := by
  have hfits : ∀ m ∈ [(roundIdKey,Scalar.integer roundId)], Fits m.2 := by
    simpa using fits_of_plain h
  have hparse := parse_dumpObject floats hfits
  generalize hj : readBack _ = json at hparse
  have hround : intAt floats roundIdKey json = some roundId := intAt_eq floats h (hj ▸ rfl)
  have hid : intValue floats acceptedIdKey json = some none := intValue_missing floats (hj ▸ rfl)
  have hvalue : stringValue acceptedValueKey json = some [] := stringValue_missing (hj ▸ rfl)
  simp [readPromise, consensusData, dumpUtf8, hparse, hround, hid, hvalue]

/-- The accepted proposal comes along. -/
theorem readPromise_accepted (h : Plain (.number roundId)) (hacc : Plain (.number acceptedId))
    (acceptedValue : String) :
    readPromise floats id
        (consensusData (.promise x roundId (some (acceptedId,acceptedValue)))).bytes =
      some (.promise id.toInt roundId (some (acceptedId,acceptedValue))) := by
  have hfits : ∀ m ∈ [(acceptedIdKey,Scalar.integer acceptedId),
      (acceptedValueKey,.string (utf8Of acceptedValue)),(roundIdKey,.integer roundId)],
      Fits m.2 := by
    simpa [Fits] using ⟨fits_of_plain hacc,fits_of_plain h⟩
  have hparse := parse_dumpObject floats hfits
  generalize hj : readBack _ = json at hparse
  have hround : intAt floats roundIdKey json = some roundId := intAt_eq floats h (hj ▸ rfl)
  have hid : intValue floats acceptedIdKey json = some (some acceptedId) :=
    intValue_eq floats hacc (hj ▸ rfl)
  have hvalue : stringValue acceptedValueKey json = some (textOf acceptedValue) :=
    stringValue_eq (hj ▸ rfl)
  simp [readPromise, consensusData, dumpUtf8, hparse, hround, hid, hvalue, stringOf_textOf]

theorem readConsensus_packet (hm : ∀ d ∈ dataOf m, Plain d) (hid : id.toInt = consensusId m)
    (mark : Nat) : readConsensus (n := n) floats (consensusCode m) id (consensusData m).bytes mark =
      .message (.server (.consensus ⟨m,mark⟩)) := by
  cases m with
  | prepare x =>
    simp only [consensusId] at hid
    simp [readConsensus, consensusCode, hid]
  | promise x roundId accepted =>
    have hcode : ¬ promiseCode = prepareCode := by decide
    simp only [consensusId] at hid
    cases accepted with
    | none =>
      have hround : Plain (.number roundId) := hm _ (by simp [dataOf])
      simp [readConsensus, consensusCode, hcode, readPromise_empty floats id hround, hid,
        Reading.orThrows]
    | some p =>
      have hround : Plain (.number roundId) := hm _ (by simp [dataOf])
      have hacc : Plain (.number p.1) := hm _ (by simp [dataOf])
      simp [readConsensus, consensusCode, hcode, readPromise_accepted floats id hround hacc, hid,
        Reading.orThrows]
  | propose x roundId value =>
    have hcode : ¬ proposeCode = prepareCode ∧ ¬ proposeCode = promiseCode := by decide
    have hround : Plain (.number roundId) := hm _ (by simp [dataOf])
    simp only [consensusId] at hid
    simp [readConsensus, consensusCode, hcode, readPropose_dump floats id hround, hid,
      Reading.orThrows]
  | accept x roundId =>
    have hcode : ¬ acceptCode = prepareCode ∧ ¬ acceptCode = promiseCode ∧
        ¬ acceptCode = proposeCode := by decide
    have hround : Plain (.number roundId) := hm _ (by simp [dataOf])
    simp only [consensusId] at hid
    simp [readConsensus, consensusCode, hcode, consensusData, roundIdOf_dump floats hround, hid]
  | accepted x roundId value =>
    have hcode : ¬ acceptedCode = prepareCode ∧ ¬ acceptedCode = promiseCode ∧
        ¬ acceptedCode = proposeCode ∧ ¬ acceptedCode = acceptCode := by decide
    have hround : Plain (.number roundId) := hm _ (by simp [dataOf])
    simp only [consensusId] at hid
    simp [readConsensus, consensusCode, hcode, readAccepted_dump floats id hround, hid,
      Reading.orThrows]

theorem readState_dump (hstate : ∀ v ∈ state, Plain (.value v)) (mark : Nat) :
    readState (n := n) floats id (dumpUtf8 [(stateKey,.string (contentsUtf8 state))]).bytes mark =
      some (.server (.state id.toInt mark state)) := by
  have hfits : ∀ m ∈ [(stateKey,Scalar.string (contentsUtf8 state))], Fits m.2 := by simp [Fits]
  have hparse := parse_dumpObject floats hfits
  have hat : stringAt stateKey (readBack [(stateKey,.string (contentsUtf8 state))]) =
      some (contentsUtf8 state).bytes := stringAt_eq rfl
  have hback : entriesIn (contentsUtf8 state).bytes = state := entriesIn_contentsOf hstate
  simp [readState, dumpUtf8, hparse, hat, hback]

theorem readStateUpdated_dump (h : Plain (.number recoveryId)) (mark : Nat) :
    readStateUpdated (n := n) floats (dumpUtf8 [(recoveryIdKey,.integer recoveryId)]).bytes mark =
      some (.server (.stateUpdated recoveryId mark)) := by
  obtain ⟨json,hparse,hat⟩ := parse_number floats recoveryIdKey h
  simp [readStateUpdated, hparse, hat]

theorem readRecovered_dump (hn : n ≤ 2 ^ 31) (j : Fin n) :
    readRecovered floats (dumpUtf8 [(recoveredNodeIdKey,.integer j.val)]).bytes =
      some (.server (.recovered j)) := by
  obtain ⟨json,hparse,hat⟩ := parse_number floats recoveredNodeIdKey (plain_node hn j)
  simp [readRecovered, hparse, hat]

theorem code_ne_shutdown (m : Heartbeat.Message n) : code m ≠ shutdownCode := by
  cases m with
  | ping =>
    simp only [code]
    decide
  | server m =>
    cases m with
    | consensus packet =>
      obtain ⟨m,c⟩ := packet
      cases m <;> simp only [code, consensusCode] <;> decide
    | _ =>
      simp only [code]
      decide

/-- The handlers read a message back from its code, its id and its data. -/
theorem readText_data (hn : n ≤ 2 ^ 31) {m : Heartbeat.Message n}
    (hm : ∀ d ∈ said m, Plain d) (hid : ∀ i, givenId m = some i → id.toInt = i) :
    readText floats m.tag (code m) id (data m).bytes (mark m) = .message m := by
  have hcode := code_ne_shutdown m
  unfold readText
  rw [if_neg hcode]
  cases m with
  | ping => rfl
  | server m =>
    cases m with
    | consensus packet => exact readConsensus_packet floats id hm (hid _ rfl) packet.call
    | election | alive | victory => rfl
    | state i k state =>
      have hstate : ∀ v ∈ state, Plain (.value v) :=
        fun v hv => hm _ (List.mem_cons_of_mem _ (List.mem_map_of_mem hv))
      have hread := readState_dump (n := n) floats id hstate k
      rw [hid i rfl] at hread
      exact congrArg Reading.orThrows hread
    | stateUpdated i k =>
      have hread := readStateUpdated_dump (n := n) floats (hm _ List.mem_cons_self) k
      exact congrArg Reading.orThrows hread
    | recovered j => exact congrArg Reading.orThrows (readRecovered_dump floats hn j)

end Handlers

theorem givenId_said {m : Heartbeat.Message n} (h : givenId m = some i) :
    .number i ∈ said m := by
  cases m with
  | ping => contradiction
  | server m =>
    cases m with
    | consensus packet =>
      obtain ⟨m,c⟩ := packet
      cases m with
      | promise x roundId accepted =>
        cases h
        cases accepted <;> exact List.mem_cons_self
      | _ =>
        cases h
        exact List.mem_cons_self
    | state =>
      cases h
      exact List.mem_cons_self
    | _ => contradiction

theorem wireMessage_id {m : Heartbeat.Message n} (hm : ∀ d ∈ said m, Plain d)
    (h : givenId m = some i) (id : Int32) : (wireMessage id m).id.toInt = i := by
  simp only [wireMessage, h, Option.map_some, Option.getD_some]
  exact toInt_ofInt (hm _ (givenId_said h))

/-- The packet is the message, whatever the receiver finds behind its buffer. -/
structure Encodes (floats : Floats) (p : Packet) (m : Heartbeat.Message n) : Prop where
  tag : m.tag = p.tag
  received : ∃ code id data, receive floats p.buffer p.stack p.tag = .message p.tag code id data ∧
    readText floats p.tag code id data p.mark = .message m
  plain : ∀ d ∈ said m, Plain d

/-- A message whose text leaves room for a NUL is read back as it was sent. -/
theorem packet_encodes (floats : Floats) (hn : n ≤ 2 ^ 31) {id : Int32}
    {m : Heartbeat.Message n} (hm : ∀ d ∈ said m, Plain d)
    (hroom : wireLength (wireMessage id m) < maxMessageSize) (heap stack : Bytes) :
    Encodes floats (packet id heap stack m) m where
  tag := rfl
  received := ⟨_,_,_,survives_of_room floats hroom heap stack,
    readText_data floats _ hn hm (fun _ hi => wireMessage_id hm hi id)⟩
  plain := hm

end Algorep.Proofs
