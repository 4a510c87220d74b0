import Algorep.Program.Heartbeat
import Algorep.Program.Lifecycle

namespace Algorep.Program.Controlled
open Kit

/-! A server as `Node::init` runs it: the work of its managers, done by threads that the repl
starts, holds up and stops. -/

/-- `request` is the REPLICATE that the client receiver has read and not handled yet. -/
structure Node (n : Nat) where
  control : Lifecycle.Server := {}
  work : Heartbeat.Node n
  request : Option String := none

abbrev Result (n : Nat) := Outcome (Fin n) (Node n) (Heartbeat.Message n) (Server.Event n)

/-- `control` is a step of the threads, of the main thread or of the repl's; `read` is the
client receiver reading a REPLICATE. -/
inductive Action (n : Nat)
  | control (move : Lifecycle.Move)
  | read (value : String)
  | work (a : Heartbeat.Action n)

/-- The thread is at its work: it handles a message, or is in a round of `pingCheck`. -/
def Node.works (node : Node n) (t : Lifecycle.Thread) : Bool :=
  node.control.phase t == .handling

/-- The client receiver waits for a message, or for a connection. -/
def Node.listens (node : Node n) : Bool := node.control.phase (.receiver .client) == .receiving

/-- Which thread does a piece of work, and whether it may. The threads that a server detaches
do not call `ReplManager::sleep`. -/
def permits (node : Node n) : Heartbeat.Action n → Bool
  | .pingCheck _ => node.works .ping && !node.work.pingThread.isEmpty
  | .handlePing _ => node.works (.receiver .failureDetection)
  | .server a _ =>
    match a with
    | .run .electionReceiver _ _ => node.works (.receiver .leaderElection)
    | .run .failureReceiver _ _ => node.works (.receiver .failureDetection)
    | .run (.spawned _) _ _ => true
    | .handleConsensus _ | .resetContext => node.works (.receiver .consensus)
    | .connect | .disallowRecovery | .disconnect => node.listens
    | .replicate value _ => node.works (.receiver .client) && node.request == some value
    | .proceed _ | .reply => node.works (.receiver .client)
    | .startElection | .detectFailure _ | .detectRecovery _ => false

/-- The request that is left once the work has been done. -/
def requestAfter (node : Node n) : Heartbeat.Action n → Option String
  | .server (.replicate _ _) _ => none
  | _ => node.request

/-- The work of a server whose threads go on with `control`. -/
def onward (node : Node n) (control : Lifecycle.Server) (out : Heartbeat.Result n) : Result n :=
  { state := { node with control := control, work := out.state }
    send := out.send
    events := out.events }

def work (rank : Fin n) (node : Node n) (a : Heartbeat.Action n) : Option (Result n) :=
  if node.control.terminated = false ∧ permits node a then
    (Heartbeat.act rank node.work a).map
      (onward { node with request := requestAfter node a } node.control)
  else none

/-- The thread has nothing left to do of what it is at. -/
def done (node : Node n) : Lifecycle.Thread → Bool
  | .receiver .repl => true
  | .receiver .leaderElection => (node.work.server.threads .electionReceiver).isEmpty
  | .receiver .failureDetection =>
    (node.work.server.threads .failureReceiver).isEmpty && node.work.pinged.isNone
  | .receiver .consensus =>
    node.work.server.received.isNone && !node.work.server.consensus.resetting
  | .receiver .client => node.work.server.client == .session && node.request.isNone
  | .ping => node.work.pingThread.isEmpty

/-- A step of a thread that goes on with `control`, and the work it begins with: the election
of `ElectionManager::init`, or the loop body of `pingCheck`. -/
def move (rank : Fin n) (node : Node n) (control : Lifecycle.Server) :
    Lifecycle.Move → Option (Result n)
  | .proceed t =>
    if node.control.phase t = .initializing then
      if t = .receiver .leaderElection then
        (Heartbeat.act rank node.work (.server .startElection node.work.timeStamps)).map
          (onward node control)
      else some { state := { node with control := control } }
    else if done node t then some { state := { node with control := control } }
    else none
  | .test t =>
    if t = .ping ∧ control.phase .ping = .handling then
      some (onward node control (Heartbeat.pingCheck rank node.work 0))
    else some { state := { node with control := control } }
  | .receive _ shutdown =>
    if shutdown then some { state := { node with control := control } } else none
  | .main | .fetch _ | .stop | .wake _ => some { state := { node with control := control } }

/-- A REPLICATE comes over the connection of a client. -/
def read (node : Node n) (value : String) : Option (Result n) :=
  if node.work.server.client = .session then
    (Lifecycle.step node.control (.receive .client false)).map (fun control =>
      { state := { node with control := control, request := some value } })
  else none

def act (rank : Fin n) (node : Node n) : Action n → Option (Result n)
  | .control l => (Lifecycle.step node.control l).bind (fun control => move rank node control l)
  | .read value => read node value
  | .work a => work rank node a

/-- A receiver that waits for a message takes one. One that is to be dropped leaves it waiting. -/
def accept (rank : Fin n) (node : Node n) (tag : MessageTag) (srcNodeId : Fin n)
    (message : Heartbeat.Message n) : Option (Node n) :=
  (Lifecycle.step node.control (.receive tag false)).bind (fun control =>
    (Heartbeat.accept rank node.work tag srcNodeId message).map (fun x =>
      { node with
        control := if node.work.server.dropsFrom rank srcNodeId tag then node.control else control
        work := x }))

/-- Every server begins with `Node::init`, and nobody leads. -/
def process (n : Nat) :
    LaneProcess MessageTag (Fin n) (Node n) (Action n) (Heartbeat.Message n) (Server.Event n) where
  start rank := { work := (Heartbeat.process none).start rank }
  lane := Heartbeat.Message.tag
  act := act
  accept := accept

abbrev Cluster (n : Nat) := LaneNet MessageTag (Fin n) (Node n) (Heartbeat.Message n)

abbrev Move (n : Nat) := LaneLabel MessageTag (Fin n) (Action n)

end Algorep.Program.Controlled
