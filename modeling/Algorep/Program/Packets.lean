import Algorep.Program.Heartbeat
import Algorep.Program.Text
import Algorep.Program.Wire

namespace Algorep.Program.Packets
open Kit Json Wire

/-! The servers with the texts they really exchange: every message is dumped, copied into the
buffer of an `MPI_Send`, and parsed again, by `receive` and then by its handler. -/

/-! What the senders put into a message. -/

def electionCode : Int32 := 1

def aliveCode : Int32 := 2

def victoryCode : Int32 := 3

def prepareCode : Int32 := 1

def promiseCode : Int32 := 2

def proposeCode : Int32 := 3

def acceptCode : Int32 := 4

def acceptedCode : Int32 := 5

def pingCode : Int32 := 1

def stateCode : Int32 := 2

def stateUpdatedCode : Int32 := 3

def recoveredCode : Int32 := 4

/-- Message code 0 is SHUTDOWN for all message tags. -/
def shutdownCode : Int32 := 0

def acceptedIdKey : Utf8 := ⟨ascii ['a','c','c','e','p','t','e','d','I','d'],by decide⟩

def acceptedValueKey : Utf8 :=
  ⟨ascii ['a','c','c','e','p','t','e','d','V','a','l','u','e'],by decide⟩

def roundIdKey : Utf8 := ⟨ascii ['r','o','u','n','d','I','d'],by decide⟩

def valueKey : Utf8 := ⟨ascii ['v','a','l','u','e'],by decide⟩

def recoveryIdKey : Utf8 := ⟨ascii ['r','e','c','o','v','e','r','y','I','d'],by decide⟩

def recoveredNodeIdKey : Utf8 :=
  ⟨ascii ['r','e','c','o','v','e','r','e','d','N','o','d','e','I','d'],by decide⟩

def noData : Utf8 := ⟨[],rfl⟩

def consensusCode : Consensus.Message → Int32
  | .prepare _ => prepareCode
  | .promise _ _ _ => promiseCode
  | .propose _ _ _ => proposeCode
  | .accept _ _ => acceptCode
  | .accepted _ _ _ => acceptedCode

def consensusId : Consensus.Message → Int
  | .prepare id | .promise id _ _ | .propose id _ _ | .accept id _ | .accepted id _ _ => id

def consensusData : Consensus.Message → Utf8
  | .prepare _ => noData
  | .promise _ roundId none | .accept _ roundId => dumpUtf8 [(roundIdKey,.integer roundId)]
  | .promise _ roundId (some (acceptedId,acceptedValue)) => dumpUtf8 [
      (acceptedIdKey,.integer acceptedId),(acceptedValueKey,.string (utf8Of acceptedValue)),
      (roundIdKey,.integer roundId)]
  | .propose _ roundId value | .accepted _ roundId value =>
    dumpUtf8 [(roundIdKey,.integer roundId),(valueKey,.string (utf8Of value))]

def code : Heartbeat.Message n → Int32
  | .ping => pingCode
  | .server (.consensus packet) => consensusCode packet.message
  | .server .election => electionCode
  | .server .alive => aliveCode
  | .server .victory => victoryCode
  | .server (.state _ _ _) => stateCode
  | .server (.stateUpdated _ _) => stateUpdatedCode
  | .server (.recovered _) => recoveredCode

def data : Heartbeat.Message n → Utf8
  | .server (.consensus packet) => consensusData packet.message
  | .server (.state _ _ state) => dumpUtf8 [(stateKey,.string (contentsUtf8 state))]
  | .server (.stateUpdated recoveryId _) => dumpUtf8 [(recoveryIdKey,.integer recoveryId)]
  | .server (.recovered recoveredNodeId) =>
    dumpUtf8 [(recoveredNodeIdKey,.integer recoveredNodeId.val)]
  | .ping | .server .election | .server .alive | .server .victory => noData

/-- The id a message has been given, if anybody reads it. -/
def givenId : Heartbeat.Message n → Option Int
  | .server (.consensus packet) => some (consensusId packet.message)
  | .server (.state id _ _) => some id
  | _ => none

/-- `id` is what `generateUniqueId` finds for a message whose id nobody reads. -/
def wireMessage (id : Int32) (message : Heartbeat.Message n) : Wire.Message where
  tag := message.tag
  code := code message
  id := ((givenId message).map Int32.ofInt).getD id
  data := data message

/-- The number that only names a call or a recovery in the history. -/
def mark : Heartbeat.Message n → Nat
  | .server (.consensus packet) => packet.call
  | .server (.state _ recovery _) | .server (.stateUpdated _ recovery) => recovery
  | _ => 0

/-- A message in flight. `stack` is what will lie behind the receiver's buffer. -/
structure Packet where
  tag : MessageTag
  buffer : Bytes
  stack : Bytes
  mark : Nat
deriving DecidableEq

/-- What the code of a message and its handler make of it. -/
inductive Reading (n : Nat)
  | shutdown
  | ignored
  | throws
  | message (message : Heartbeat.Message n)
deriving DecidableEq

def Reading.orThrows : Option (Heartbeat.Message n) → Reading n
  | some m => .message m
  | none => .throws

section Handlers
variable (floats : Floats)

/-- `json.at(key)` as an `int`. -/
def intAt (key : Utf8) (json : Value) : Option Int :=
  ((atKey key json).bind (getInt floats)).map Int32.toInt

def stringAt (key : Utf8) (json : Value) : Option Bytes := (atKey key json).bind getString

/-- `json.value(key,default)`, which throws on a value of another type. -/
def intValue (key : Utf8) (json : Value) : Option (Option Int) :=
  match atKey key json with
  | none => some none
  | some value => (getInt floats value).map (fun i => some i.toInt)

def stringValue (key : Utf8) (json : Value) : Option Bytes :=
  match atKey key json with
  | none => some []
  | some value => getString value

/-- Nobody reads the round id of an ACCEPT or an ACCEPTED. -/
def roundIdOf (data : Bytes) : Int :=
  ((parse floats data).bind (intAt floats roundIdKey)).getD (-1)

def readPromise (id : Int32) (data : Bytes) : Option Consensus.Message := do
  let json ← parse floats data
  let roundId ← intAt floats roundIdKey json
  let acceptedId ← intValue floats acceptedIdKey json
  let acceptedValue ← stringValue acceptedValueKey json
  return .promise id.toInt roundId (acceptedId.map (fun i => (i,stringOf acceptedValue)))

def readPropose (id : Int32) (data : Bytes) : Option Consensus.Message := do
  let json ← parse floats data
  let roundId ← intAt floats roundIdKey json
  let value ← stringAt valueKey json
  return .propose id.toInt roundId (stringOf value)

def readAccepted (id : Int32) (data : Bytes) : Option Consensus.Message := do
  let json ← parse floats data
  let value ← stringAt valueKey json
  return .accepted id.toInt (roundIdOf floats data) (stringOf value)

def readConsensus (code id : Int32) (data : Bytes) (mark : Nat) : Reading n :=
  let packet (message : Consensus.Message) : Heartbeat.Message n :=
    .server (.consensus ⟨message,mark⟩)
  if code = prepareCode then .message (packet (.prepare id.toInt))
  else if code = promiseCode then .orThrows ((readPromise floats id data).map packet)
  else if code = proposeCode then .orThrows ((readPropose floats id data).map packet)
  else if code = acceptCode then .message (packet (.accept id.toInt (roundIdOf floats data)))
  else if code = acceptedCode then .orThrows ((readAccepted floats id data).map packet)
  else .ignored

def readElection (code : Int32) : Reading n :=
  if code = electionCode then .message (.server .election)
  else if code = aliveCode then .message (.server .alive)
  else if code = victoryCode then .message (.server .victory)
  else .ignored

def readState (id : Int32) (data : Bytes) (mark : Nat) : Option (Heartbeat.Message n) := do
  let json ← parse floats data
  let state ← stringAt stateKey json
  return .server (.state id.toInt mark (entriesIn state))

def readStateUpdated (data : Bytes) (mark : Nat) : Option (Heartbeat.Message n) := do
  let json ← parse floats data
  let recoveryId ← intAt floats recoveryIdKey json
  return .server (.stateUpdated recoveryId mark)

/-- The id has to be that of a node: the tables are indexed with it. -/
def readRecovered (data : Bytes) : Option (Heartbeat.Message n) := do
  let json ← parse floats data
  let recoveredNodeId ← intAt floats recoveredNodeIdKey json
  if h : 0 ≤ recoveredNodeId ∧ recoveredNodeId.toNat < n then
    return .server (.recovered ⟨recoveredNodeId.toNat,h.2⟩)
  else none

def readFailure (code id : Int32) (data : Bytes) (mark : Nat) : Reading n :=
  if code = pingCode then .message .ping
  else if code = stateCode then .orThrows (readState floats id data mark)
  else if code = stateUpdatedCode then .orThrows (readStateUpdated floats data mark)
  else if code = recoveredCode then .orThrows (readRecovered floats data)
  else .ignored

/-- The tests of `startReceiver` and `handleMessage` for the code, and the parsing that the
handler begins with. -/
def readText (tag : MessageTag) (code id : Int32) (data : Bytes) (mark : Nat) : Reading n :=
  if code = shutdownCode then .shutdown
  else match tag with
    | .leaderElection => readElection code
    | .consensus => readConsensus floats code id data mark
    | .failureDetection => readFailure floats code id data mark
    | .repl | .client => .ignored

end Handlers

/-- A node is `down` once a receiver has met a text that is not valid JSON, whose fields are
not what it asks for, or a SHUTDOWN. -/
structure Node (n : Nat) where
  server : Heartbeat.Node n
  down : Bool := false

/-- `id`, `heap` and `stack` are for the message of the step, if it sends one. -/
structure Action (n : Nat) where
  call : Heartbeat.Action n
  id : Int32
  heap : Bytes
  stack : Bytes

/-- With nothing behind the text. -/
def Action.bare (call : Heartbeat.Action n) : Action n := ⟨call,0,[],[]⟩

def packet (id : Int32) (heap stack : Bytes) (message : Heartbeat.Message n) : Packet where
  tag := message.tag
  buffer := sendBuffer (serializeMessage (wireMessage id message)) heap
  stack := stack
  mark := mark message

def act (rank : Fin n) (node : Node n) (a : Action n) :
    Option (Outcome (Fin n) (Node n) Packet (Server.Event n)) :=
  if node.down then none
  else (Heartbeat.act rank node.server a.call).map (fun out => {
    state := { node with server := out.state }
    send := out.send.map (fun p => (p.1,packet a.id a.heap a.stack p.2))
    events := out.events })

/-- The receiver of the tag is in `receiveWithTagBlock`. -/
def waiting (node : Heartbeat.Node n) : MessageTag → Bool
  | .consensus => node.server.received.isNone && !node.server.consensus.resetting
  | .leaderElection => (node.server.threads .electionReceiver).isEmpty
  | .failureDetection => node.pinged.isNone && (node.server.threads .failureReceiver).isEmpty
  | .repl | .client => false

/-- The data of a message that is to be dropped is never parsed. -/
def take (rank : Fin n) (node : Node n) (tag : MessageTag) (srcNodeId : Fin n)
    (reading : Reading n) : Option (Node n) :=
  match reading with
  | .message message => (Heartbeat.accept rank node.server tag srcNodeId message).map
      (fun x => { node with server := x })
  | .ignored => some node
  | .shutdown | .throws =>
    some (if node.server.server.dropsFrom rank srcNodeId tag then node
      else { node with down := true })

/-- `receiveWithTagBlock`, and what its caller makes of the message. A text that is not valid
is handed on, as whatever the message object held before. -/
def accept (floats : Floats) (rank : Fin n) (node : Node n) (tag : MessageTag)
    (srcNodeId : Fin n) (packet : Packet) : Option (Node n) :=
  if node.down || !waiting node.server tag then none
  else match receive floats packet.buffer packet.stack packet.tag with
    | .message tag' code id data =>
      take rank node tag srcNodeId (readText floats tag' code id data packet.mark)
    | .invalid | .throws => some { node with down := true }

def process (floats : Floats) (elected : Option (Fin n)) :
    LaneProcess MessageTag (Fin n) (Node n) (Action n) Packet (Server.Event n) where
  start rank := { server := (Heartbeat.process elected).start rank }
  lane := Packet.tag
  act := act
  accept := accept floats

abbrev Cluster (n : Nat) := LaneNet MessageTag (Fin n) (Node n) Packet

abbrev Move (n : Nat) := LaneLabel MessageTag (Fin n) (Action n)

/-- A move of the servers, with nothing behind the text it may send. -/
def Move.served : Server.Move n → Move n
  | .act i a => .act i (.bare (.server a (fun _ => 0)))
  | .receive tag src dst => .receive tag src dst

end Algorep.Program.Packets
