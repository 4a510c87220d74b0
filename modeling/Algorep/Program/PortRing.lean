import Algorep.Program.Reception
import Algorep.Program.Shutdown

namespace Algorep.Program.PortRing
open Kit Json Reception

/-! `exchangePorts` at all nodes, over the buffers on the world communicator. -/

inductive Call
  | sendPort
  | receivePort
deriving DecidableEq, Repr

/-- Where a node is: its calls still to be made, or inside the `MPI_Send` of a `sendPort` with
the calls that follow. `failed` is an exception, or a null `data` that is read. -/
inductive Phase
  | calls (todo : List Call)
  | sending (todo : List Call)
  | failed
deriving DecidableEq, Repr

/-- The calls in `exchangePorts`. -/
def exchangePorts (rank : Fin n) : List Call :=
  if rank.val = 0 then [.sendPort,.receivePort] else [.receivePort,.sendPort]

def prevNodeId (nodeId : Fin n) : Fin n :=
  if nodeId.val = 0 then ⟨n - 1,Nat.sub_lt nodeId.pos Nat.one_pos⟩
  else ⟨nodeId.val - 1,Nat.lt_of_le_of_lt (Nat.sub_le _ _) nodeId.isLt⟩

def portKey : Utf8 := ⟨ascii ['p','o','r','t'],by decide⟩

/-- The message of `sendPort`. -/
def portMessage (rank : Fin n) (wtime : Nat) (port : Utf8) : Wire.Message where
  tag := .client
  code := codeInt .port
  id := .ofInt (generateUniqueId rank wtime)
  data := dumpUtf8 [(portKey,.string port)]

/-- A buffer under way. -/
structure Packet (n : Nat) where
  srcNodeId : Fin n
  buffer : Bytes
deriving DecidableEq

structure Ring (n : Nat) where
  nodes : Fin n → Phase
  inbox : Fin n → List (Packet n)
  nextNodePort : Fin n → Bytes

/-- A send puts its buffer under way and completes later. A receive takes any of the buffers
that are there. What lies in memory behind the strings, and in the message object, is
arbitrary. -/
inductive Move (n : Nat)
  | send (i : Fin n) (wtime : Nat) (heap : Bytes)
  | complete (i : Fin n)
  | receive (i : Fin n) (k : Nat) (stack : Bytes) (message : MessageObject)

def setPhase (s : Ring n) (i : Fin n) (phase : Phase) : Ring n :=
  { s with nodes := Function.update s.nodes i phase }

def setInbox (s : Ring n) (i : Fin n) (packets : List (Packet n)) : Ring n :=
  { s with inbox := Function.update s.inbox i packets }

def setNextNodePort (s : Ring n) (i : Fin n) (port : Bytes) : Ring n :=
  { s with nextNodePort := Function.update s.nextNodePort i port }

/-- What `receivePort` makes of the message it has received. -/
def readPort (floats : Floats) (message : MessageObject) : Option Bytes := do
  let messageString ← message.data
  let messageJson ← parse floats messageString
  let port ← Wire.atKey portKey messageJson
  Wire.getString port

section
variable (floats : Floats) (ports : Fin n → Utf8) (synchronous : Fin n → Bool)

/-- `synchronous i` says that node `i`'s send completes only when its buffer is received. -/
def step (s : Ring n) : Move n → Option (Ring n)
  | .send i wtime heap =>
    match s.nodes i with
    | .calls (.sendPort::todo) =>
      let dst := prevNodeId i
      if messageShouldDrop (noneDead i) i dst true .client then some (setPhase s i (.calls todo))
      else
        let text := Wire.serializeMessage (portMessage i wtime (ports i))
        some (setInbox (setPhase s i (.sending todo)) dst
          (s.inbox dst ++ [⟨i,Wire.sendBuffer text heap⟩]))
    | _ => none
  | .complete i =>
    match s.nodes i with
    | .sending todo =>
      let matched := (s.inbox (prevNodeId i)).all (fun p => p.srcNodeId != i)
      if !synchronous i || matched then some (setPhase s i (.calls todo)) else none
    | _ => none
  | .receive i k stack message =>
    match s.nodes i, (s.inbox i)[k]? with
    | .calls (.receivePort::todo), some packet =>
      let s := setInbox s i ((s.inbox i).eraseIdx k)
      match receiveWithTagBlock floats i .client true message
          [⟨packet.srcNodeId,packet.buffer,stack,noneDead i⟩] with
      | .returned _ receivedMessage _ =>
        match readPort floats receivedMessage with
        | some nextNodePort => some (setNextNodePort (setPhase s i (.calls todo)) i nextNodePort)
        | none => some (setPhase s i .failed)
      | .throws => some (setPhase s i .failed)
      | .waits => some s
    | _, _ => none

def portRing : Machine (Ring n) (Move n) (Move n) where
  start := {
    nodes := fun i => .calls (exchangePorts i)
    inbox := fun _ => []
    nextNodePort := fun _ => [] }
  step s move := (step floats ports synchronous s move).map (fun t => (t,[move]))

end

end Algorep.Program.PortRing
