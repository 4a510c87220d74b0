import Algorep.Program.Server

namespace Algorep.Program.Heartbeat
open Kit

/-! A server together with the heartbeats of its failure manager: PING messages, the time
stamps they leave, and the thread of `pingCheck`. Clock readings are in nanoseconds since
the failure manager's `init`, and may go back. -/

def timeoutDuration : Int := 1

/-- `duration_cast<std::chrono::seconds>`. -/
def seconds (duration : Int) : Int := duration.tdiv 1000000000

inductive Message (n : Nat)
  | ping
  | server (message : Server.Message n)
deriving DecidableEq, Repr

def Message.tag : Message n → MessageTag
  | .ping => .failureDetection
  | .server message => message.tag

/-- One step of the loop body of `pingCheck`. -/
inductive PingOp (n : Nat)
  | checkTimeStamp (nodeId : Fin n)
  | send (dstNodeId : Fin n)
deriving DecidableEq, Repr

/-- `pingThread` is what is left of the loop body, and `pinged` the sender of a PING that
the failure receiver has taken and not handled yet. -/
structure Node (n : Nat) where
  server : Server.Node n
  timeStamps : Fin n → Int := fun _ => 0
  pingThread : List (PingOp n) := []
  pinged : Option (Fin n) := none

abbrev Result (n : Nat) := Outcome (Fin n) (Node n) (Message n) (Server.Event n)

inductive Action (n : Nat)
  | pingCheck (cur : Int)
  | handlePing (now : Int)
  | server (a : Server.Action n) (now : Fin n → Int)

def elapsed (node : Node n) (nodeId : Fin n) (cur : Int) : Int :=
  seconds (cur - node.timeStamps nodeId)

/-- One round of the loop of `checkTimeStamps`. -/
def checkTimeStamp (rank : Fin n) (node : Node n) (nodeId : Fin n) (cur : Int) : Node n :=
  if node.server.isAlive nodeId = true ∧ elapsed node nodeId cur > timeoutDuration then
    { node with server := node.server.spawn (Server.handleNodeFailure nodeId) }
  else if node.server.isAlive nodeId = false ∧ elapsed node nodeId cur < timeoutDuration then
    if node.server.curRecoveryId = -1 ∧ node.server.leaderNodeId = some rank then
      { node with
        server := node.server.spawn (Server.handleNodeRecovery nodeId node.server.spawned) }
    else node
  else node

/-- A whole pass, with the clock reading of each round. -/
def checkTimeStamps (rank : Fin n) (node : Node n) (cur : Fin n → Int) : Node n :=
  (others rank).foldl (fun node nodeId => checkTimeStamp rank node nodeId (cur nodeId)) node

/-- The loop body of `pingCheck`: `checkTimeStamps` and `broadcastPing`. -/
def pingBody (rank : Fin n) : List (PingOp n) :=
  (others rank).map .checkTimeStamp ++ (others rank).map .send

def pingCheck (rank : Fin n) (node : Node n) (cur : Int) : Result n :=
  match node.pingThread with
  | [] => { state := { node with pingThread := pingBody rank } }
  | .checkTimeStamp nodeId::rest =>
    { state := { checkTimeStamp rank node nodeId cur with pingThread := rest } }
  | .send dstNodeId::rest =>
    { state := { node with pingThread := rest }
      send := some (dstNodeId,.ping) }

/-- `handlePing`, and with it the return of `FailureManager::handleMessage`. -/
def handlePing (node : Node n) (now : Int) : Option (Result n) :=
  node.pinged.map (fun srcNodeId => {
    state := { node with
      timeStamps := Function.update node.timeStamps srcNodeId now
      pinged := none } })

/-- The section is `handleRecovered` at the recovered node itself. -/
def resetsTimeStamps (rank : Fin n) (node : Server.Node n) : Server.Action n → Bool
  | .run t _ _ =>
    match node.threads t with
    | .handleMessage _ (.recovered recoveredNodeId)::_ => rank == recoveredNodeId
    | _ => false
  | _ => false

/-- What the server does besides its heartbeats. The detections are left to `checkTimeStamp`. -/
def serve (rank : Fin n) (node : Node n) (a : Server.Action n) (now : Fin n → Int) :
    Option (Result n) :=
  match a with
  | .detectFailure _ | .detectRecovery _ => none
  | a => (Server.act rank node.server a).map (fun out => {
      state := { node with
        server := out.state
        timeStamps := if resetsTimeStamps rank node.server a then now else node.timeStamps }
      send := out.send.map (fun p => (p.1,.server p.2))
      events := out.events })

def act (rank : Fin n) (node : Node n) : Action n → Option (Result n)
  | .pingCheck cur => some (pingCheck rank node cur)
  | .handlePing now => handlePing node now
  | .server a now => serve rank node a now

/-- The failure receiver takes one message at a time, a PING like any other. No message of
its tag is dropped. -/
def accept (rank : Fin n) (node : Node n) (tag : MessageTag) (srcNodeId : Fin n) :
    Message n → Option (Node n)
  | .ping =>
    if tag = .failureDetection ∧ node.pinged = none ∧ node.server.threads .failureReceiver = [] then
      some { node with pinged := some srcNodeId }
    else none
  | .server message =>
    if tag = .failureDetection ∧ node.pinged ≠ none then none
    else (Server.accept rank node.server tag srcNodeId message).map (fun x =>
      { node with server := x })

def process (elected : Option (Fin n)) :
    LaneProcess MessageTag (Fin n) (Node n) (Action n) (Message n) (Server.Event n) where
  start rank := { server := Server.initialNode elected rank }
  lane := Message.tag
  act := act
  accept := accept

abbrev Cluster (n : Nat) := LaneNet MessageTag (Fin n) (Node n) (Message n)

abbrev Move (n : Nat) := LaneLabel MessageTag (Fin n) (Action n)

abbrev Reach (elected : Option (Fin n)) : Cluster n → Server.History n → Prop :=
  (process elected).network.Reach Machine.free

/-! Moves for writing runs down. -/

/-- A whole round of `pingCheck`, with one clock reading. -/
def Move.round (i : Fin n) (cur : Int) : List (Move n) :=
  List.replicate (1 + 2 * (n - 1)) (.act i (.pingCheck cur))

def Move.ping (src dst : Fin n) (now : Int) : List (Move n) :=
  [.receive .failureDetection src dst,.act dst (.handlePing now)]

/-- `k` sections of a server's thread. -/
def Move.sections (i : Fin n) (t : Server.ThreadId) (k : Nat) : List (Move n) :=
  List.replicate k (.act i (.server (.run t true 0) (fun _ => 0)))

end Algorep.Program.Heartbeat
