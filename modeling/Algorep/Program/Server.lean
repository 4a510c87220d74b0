import Algorep.Kit.Lanes
import Algorep.Program.Consensus

namespace Algorep.Program.Server
open Kit

/-! The state of one server: what its managers keep, and how far their threads
are. The time stamps and PING messages of the failure manager are not kept: a
node may find a peer silent, or heard from again, at any moment. -/

/-- A message between two servers. The number in STATE and STATE_UPDATED names
the recovery thread that caused the message; no handler reads it. -/
inductive Message (n : Nat)
  | consensus (packet : Consensus.Packet)
  | election
  | alive
  | victory
  | state (id : Int) (recovery : Nat) (state : List String)
  | stateUpdated (recoveryId : Int) (recovery : Nat)
  | recovered (recoveredNodeId : Fin n)
deriving DecidableEq, Repr

def Message.tag : Message n → MessageTag
  | .consensus _ => .consensus
  | .election | .alive | .victory => .leaderElection
  | .state _ _ _ | .stateUpdated _ _ | .recovered _ => .failureDetection

/-- One atomic section of a thread: a critical section, a test, or one send. -/
inductive Op (n : Nat)
  | handleMessage (srcNodeId : Fin n) (message : Message n)
  | send (dstNodeId : Fin n) (message : Message n)
  | restartElection
  | waitForVictory
  | declareIfNoLeader
  | enableClientConn
  | setLeaderNodeId (value : Fin n)
  | setAliveReceived (value : Bool)
  | broadcastIfNoLeader
  | setIsAlive (nodeId : Fin n) (value : Bool)
  | setNodeStatus (nodeId : Fin n) (value : Bool) (answers : Option Nat)
  | electIfLeader (failedNodeId : Fin n)
  | startRecovery (dstNodeId : Fin n) (recovery : Nat)
  | lockClientConn (recovery : Nat)
  | readState (dstNodeId : Fin n) (id : Int) (recovery : Nat)
  | clearRecoveryId
  | unlockClientConn
  | updateChecked (srcNodeId : Fin n) (correctRecoveryId : Bool) (recovery : Nat)
deriving DecidableEq, Repr

/-- The two receiver threads that run handlers, and the threads a server detaches,
numbered in the order they are spawned. -/
inductive ThreadId
  | electionReceiver
  | failureReceiver
  | spawned (k : Nat)
deriving DecidableEq, Repr

/-- Where the thread of `ClientManager::receivePendingMessages` is. -/
inductive Client
  | accepting
  | connected
  | session
  | replicating (value : String)
  | replying (value : String) (consensusReached : Bool)
deriving DecidableEq, Repr

inductive Holder
  | client
  | recovery (k : Nat)
deriving DecidableEq, Repr

inductive Event (n : Nat)
  | success (value : String)
  | replaced (srcNodeId : Fin n) (before after : List String)
deriving DecidableEq, Repr

/-- A thread is the list of the sections it still has to run. A receiver thread
with nothing left to run waits for a message; `received` is the message the
consensus receiver has taken and not handled yet. -/
structure Node (n : Nat) where
  consensus : Consensus.Node n := {}
  received : Option (Fin n × Consensus.Packet) := none
  client : Client := .accepting
  portPublished : Bool := false
  leaderNodeId : Option (Fin n) := none
  aliveReceived : Bool := false
  processIsAlive : Fin n → Bool := fun _ => true
  isAlive : Fin n → Bool := fun _ => true
  curRecoveryId : Int := -1
  clientConnMutex : Option Holder := none
  threads : ThreadId → List (Op n) := fun _ => []
  spawned : Nat := 0

abbrev Result (n : Nat) := Outcome (Fin n) (Node n) (Message n) (Event n)

namespace Node

def log (node : Node n) : List String := node.consensus.log

def setThread (node : Node n) (t : ThreadId) (ops : List (Op n)) : Node n :=
  { node with threads := Function.update node.threads t ops }

/-- A detached `std::thread` that runs the given sections. -/
def spawn (node : Node n) (ops : List (Op n)) : Node n :=
  { node.setThread (.spawned node.spawned) ops with spawned := node.spawned + 1 }

section Threads
variable (node : Node n) (t : ThreadId) (ops : List (Op n))

@[simp] theorem setThread_consensus : (node.setThread t ops).consensus = node.consensus := rfl

@[simp] theorem setThread_received : (node.setThread t ops).received = node.received := rfl

@[simp] theorem setThread_client : (node.setThread t ops).client = node.client := rfl

@[simp] theorem setThread_leaderNodeId : (node.setThread t ops).leaderNodeId = node.leaderNodeId := rfl

@[simp] theorem setThread_processIsAlive :
    (node.setThread t ops).processIsAlive = node.processIsAlive := rfl

@[simp] theorem setThread_clientConnMutex :
    (node.setThread t ops).clientConnMutex = node.clientConnMutex := rfl

@[simp] theorem setThread_spawned : (node.setThread t ops).spawned = node.spawned := rfl

@[simp] theorem setThread_log : (node.setThread t ops).log = node.log := rfl

@[simp] theorem setThread_self : (node.setThread t ops).threads t = ops := by
  simp [setThread]

theorem setThread_other (h : t' ≠ t) : (node.setThread t ops).threads t' = node.threads t' := by
  simp [setThread, h]

@[simp] theorem spawn_consensus : (node.spawn ops).consensus = node.consensus := rfl

@[simp] theorem spawn_client : (node.spawn ops).client = node.client := rfl

@[simp] theorem spawn_leaderNodeId : (node.spawn ops).leaderNodeId = node.leaderNodeId := rfl

@[simp] theorem spawn_log : (node.spawn ops).log = node.log := rfl

end Threads

def dropsFrom (rank : Fin n) (node : Node n) (otherNodeId : Fin n) (tag : MessageTag) : Bool :=
  messageShouldDrop node.processIsAlive rank otherNodeId true tag

/-- `Messenger::send` over the world communicator. -/
def send (rank : Fin n) (node : Node n) (dstNodeId : Fin n) (message : Message n) :
    Option (Fin n × Message n) :=
  if node.dropsFrom rank dstNodeId message.tag then none else some (dstNodeId,message)

end Node

/-! Election manager. -/

def gotLeader (node : Node n) : Bool := node.leaderNodeId.isSome

/-- The loop condition of `waitForVictory`. -/
def keepWaiting (node : Node n) (timedOut : Bool) : Bool :=
  node.aliveReceived || (!gotLeader node && !timedOut)

def broadcastElection (rank : Fin n) : List (Op n) :=
  .restartElection :: (broadcastTargets rank (rank.val + 1) n false).map (.send · .election)

def declareVictory (rank : Fin n) : List (Op n) :=
  (others rank).map (.send · .victory) ++ [.setLeaderNodeId rank]

/-- `waitForVictory` is its loop and the test after it. -/
def triggerElection (rank : Fin n) : List (Op n) :=
  broadcastElection rank ++ [.waitForVictory,.declareIfNoLeader]

def aliveWait : List (Op n) :=
  [.setAliveReceived true,.broadcastIfNoLeader,.setAliveReceived false]

/-! Failure manager. -/

def handleNodeFailure (nodeId : Fin n) : List (Op n) :=
  [.setIsAlive nodeId false,.setNodeStatus nodeId false none,.electIfLeader nodeId]

def handleNodeRecovery (nodeId : Fin n) (recovery : Nat) : List (Op n) :=
  [.startRecovery nodeId recovery]

/-- The rest of `handleNodeRecovery` once the STATE message has its id. -/
def pausedRecovery (nodeId : Fin n) (id : Int) (recovery : Nat) : List (Op n) :=
  [.lockClientConn recovery,.readState nodeId id recovery,.clearRecoveryId,.unlockClientConn]

def broadcastRecovered (rank recoveredNodeId : Fin n) : List (Op n) :=
  (others rank).map (.send · (.recovered recoveredNodeId))

/-- `answers` names the recovery whose STATE_UPDATED lead here, if one did. -/
def enableComm (recoveredNodeId : Fin n) (answers : Option Nat) : List (Op n) :=
  [.setNodeStatus recoveredNodeId true answers,.setIsAlive recoveredNodeId true]

/-- `handleState`. The outcome of an atomic section comes with the sections that
its thread runs next. -/
def handleState (node : Node n) (srcNodeId : Fin n) (id : Int) (recovery : Nat)
    (state : List String) : List (Op n) × Result n :=
  ([.send srcNodeId (.stateUpdated id recovery)],{
    state := { node with consensus := { node.consensus with log := state } }
    events := [.replaced srcNodeId node.log state] })

/-- The second half of `handleStateUpdate`. The VICTORY goes out in any case. -/
def updateChecked (rank : Fin n) (node : Node n) (srcNodeId : Fin n) (correctRecoveryId : Bool)
    (recovery : Nat) : List (Op n) :=
  (if correctRecoveryId && node.leaderNodeId == some rank then
    broadcastRecovered rank srcNodeId ++ enableComm srcNodeId (some recovery)
  else []) ++ [.send srcNodeId .victory]

/-- `handleMessage` of the election and failure managers, up to the end of its
first section. -/
def handleMessage (rank : Fin n) (node : Node n) (srcNodeId : Fin n) :
    Message n → Option (List (Op n) × Result n)
  | .consensus _ => none
  | .election => some (broadcastElection rank,{
      state := node
      send := node.send rank srcNodeId .alive })
  | .alive => some ([],{ state := if rank < srcNodeId then node.spawn aliveWait else node })
  | .victory => some ([],{ state := { node with leaderNodeId := some srcNodeId } })
  | .state id recovery state => some (handleState node srcNodeId id recovery state)
  | .stateUpdated recoveryId recovery =>
    some ([.updateChecked srcNodeId (node.curRecoveryId == recoveryId) recovery],{ state := node })
  | .recovered recoveredNodeId =>
    some (if rank = recoveredNodeId then [] else enableComm recoveredNodeId none,{ state := node })

/-- Runs one section. `timedOut` and `now` are what the section reads off the
clock. A section that has to wait does not run. -/
def exec (rank : Fin n) (node : Node n) (timedOut : Bool) (now : Nat) :
    Op n → Option (List (Op n) × Result n)
  | .handleMessage srcNodeId message => handleMessage rank node srcNodeId message
  | .send dstNodeId message => some ([],{ state := node, send := node.send rank dstNodeId message })
  | .restartElection =>
    some ([],{ state := { node with aliveReceived := false, leaderNodeId := none } })
  | .waitForVictory => if keepWaiting node timedOut then none else some ([],{ state := node })
  | .declareIfNoLeader =>
    some (if gotLeader node then [] else declareVictory rank ++ [.enableClientConn],
      { state := node })
  | .enableClientConn => some ([],{ state := { node with portPublished := true } })
  | .setLeaderNodeId value => some ([],{ state := { node with leaderNodeId := some value } })
  | .setAliveReceived value => some ([],{ state := { node with aliveReceived := value } })
  | .broadcastIfNoLeader =>
    some (if gotLeader node then [] else broadcastElection rank,{ state := node })
  | .setIsAlive nodeId value =>
    some ([],{ state := { node with isAlive := Function.update node.isAlive nodeId value } })
  | .setNodeStatus nodeId value _ =>
    some ([],{ state := { node with
      processIsAlive := Function.update node.processIsAlive nodeId value } })
  | .electIfLeader failedNodeId =>
    some ([],{ state :=
      if node.leaderNodeId = some failedNodeId then node.spawn (triggerElection rank) else node })
  | .startRecovery dstNodeId recovery =>
    let id := generateUniqueId rank now
    some (pausedRecovery dstNodeId id recovery,{ state := { node with curRecoveryId := id } })
  | .lockClientConn recovery =>
    match node.clientConnMutex with
    | none => some ([],{ state := { node with clientConnMutex := some (.recovery recovery) } })
    | some _ => none
  | .readState dstNodeId id recovery =>
    some ([.send dstNodeId (.state id recovery node.log)],{ state := node })
  | .clearRecoveryId => some ([],{ state := { node with curRecoveryId := -1 } })
  | .unlockClientConn => some ([],{ state := { node with clientConnMutex := none } })
  | .updateChecked srcNodeId correctRecoveryId recovery =>
    some (updateChecked rank node srcNodeId correctRecoveryId recovery,{ state := node })

/-- The next section of one thread. -/
def run (rank : Fin n) (node : Node n) (t : ThreadId) (timedOut : Bool) (now : Nat) :
    Option (Result n) :=
  match node.threads t with
  | [] => none
  | op::rest => (exec rank node timedOut now op).map (fun p =>
      { p.2 with state := p.2.state.setThread t (p.1 ++ rest) })

/-! Client manager, and the consensus manager it calls. -/

inductive Action (n : Nat)
  | connect
  | disallowRecovery
  | replicate (value : String) (now : Nat)
  | proceed (now : Nat)
  | reply
  | disconnect
  | handleConsensus (now : Nat)
  | resetContext
  | startElection
  | detectFailure (nodeId : Fin n)
  | detectRecovery (nodeId : Fin n)
  | run (t : ThreadId) (timedOut : Bool) (now : Nat)

/-- A step of the consensus manager inside the server. Its history is kept by the
messages and the log alone. -/
def ofConsensus (rank : Fin n) (node : Node n) (out : Consensus.Result n) : Result n :=
  { state := { node with consensus := out.state }
    send := out.send.bind (fun p => node.send rank p.1 (.consensus p.2)) }

def replicate (rank : Fin n) (node : Node n) (value : String) (now : Nat) : Option (Result n) :=
  match node.client with
  | .session => (Consensus.startConsensus rank node.consensus value now).map
      (ofConsensus rank { node with client := .replicating value })
  | _ => none

/-- The next section of `startConsensus`, which returns to `handleMessage` after
its last one. -/
def proceed (rank : Fin n) (node : Node n) (now : Nat) : Option (Result n) :=
  match node.client with
  | .replicating value =>
    let client := match node.consensus.thread with
      | .logWait consensusReached => .replying value consensusReached
      | _ => .replicating value
    (Consensus.proceed rank node.consensus now).map (ofConsensus rank { node with client := client })
  | _ => none

/-- The end of `ClientManager::handleMessage`. The client's connection is not the
world communicator, so SUCCESS is never dropped. -/
def reply (node : Node n) : Option (Result n) :=
  match node.client with
  | .replying value consensusReached => some {
      state := { node with client := .session }
      events := if consensusReached then [.success value] else [] }
  | _ => none

/-- `acceptConnection` up to the accepted connection. A client finds a server by
the port it has published. -/
def connect (node : Node n) : Option (Result n) :=
  if node.client = .accepting ∧ node.portPublished then
    some { state := { node with client := .connected } }
  else none

def disallowRecovery (node : Node n) : Option (Result n) :=
  if node.client = .connected ∧ node.clientConnMutex = none then
    some { state := { node with client := .session, clientConnMutex := some .client } }
  else none

/-- DISCONNECT, and `allowRecovery` before the next connection is accepted. -/
def disconnect (node : Node n) : Option (Result n) :=
  if node.client = .session then
    some { state := { node with client := .accepting, clientConnMutex := none } }
  else none

def handleConsensus (rank : Fin n) (node : Node n) (now : Nat) : Option (Result n) :=
  match node.received with
  | some (srcNodeId,packet) =>
    (Consensus.handleMessage rank node.consensus srcNodeId packet now).map
      (ofConsensus rank { node with received := none })
  | none => none

/-- `checkTimeStamps` for a peer that has been silent for too long. -/
def detectFailure (rank : Fin n) (node : Node n) (nodeId : Fin n) : Option (Result n) :=
  if nodeId ≠ rank ∧ node.isAlive nodeId = true then
    some { state := node.spawn (handleNodeFailure nodeId) }
  else none

/-- `checkTimeStamps` for a peer that is heard from again. -/
def detectRecovery (rank : Fin n) (node : Node n) (nodeId : Fin n) : Option (Result n) :=
  if nodeId ≠ rank ∧ node.isAlive nodeId = false ∧ node.curRecoveryId = -1 ∧
      node.leaderNodeId = some rank then
    some { state := node.spawn (handleNodeRecovery nodeId node.spawned) }
  else none

def act (rank : Fin n) (node : Node n) : Action n → Option (Result n)
  | .connect => connect node
  | .disallowRecovery => disallowRecovery node
  | .replicate value now => replicate rank node value now
  | .proceed now => proceed rank node now
  | .reply => reply node
  | .disconnect => disconnect node
  | .handleConsensus now => handleConsensus rank node now
  | .resetContext => (Consensus.act rank node.consensus .resetContext).map (ofConsensus rank node)
  | .startElection => some { state := node.spawn (triggerElection rank) }
  | .detectFailure nodeId => detectFailure rank node nodeId
  | .detectRecovery nodeId => detectRecovery rank node nodeId
  | .run t timedOut now => run rank node t timedOut now

/-- A receiver thread takes a message in `receiveWithTagBlock`, which goes on to
the next one when the message is to be dropped. What it keeps is handled after
`ReplManager::sleep`. -/
def accept (rank : Fin n) (node : Node n) (tag : MessageTag) (srcNodeId : Fin n)
    (message : Message n) : Option (Node n) :=
  let keep (waiting : Bool) (kept : Node n) : Option (Node n) :=
    if waiting then some (if node.dropsFrom rank srcNodeId tag then node else kept) else none
  match tag, message with
  | .consensus, .consensus packet =>
    keep (node.received.isNone && !node.consensus.resetting)
      { node with received := some (srcNodeId,packet) }
  | .leaderElection, message =>
    keep (node.threads .electionReceiver).isEmpty
      (node.setThread .electionReceiver [.handleMessage srcNodeId message])
  | .failureDetection, message =>
    keep (node.threads .failureReceiver).isEmpty
      (node.setThread .failureReceiver [.handleMessage srcNodeId message])
  | _, _ => none

/-! The cluster. -/

/-- A server once its managers are up. `elected` is the node the start-up election
has made leader everywhere, if it is over. -/
def initialNode (elected : Option (Fin n)) (rank : Fin n) : Node n :=
  { leaderNodeId := elected, portPublished := elected == some rank }

def process (elected : Option (Fin n)) :
    LaneProcess MessageTag (Fin n) (Node n) (Action n) (Message n) (Event n) where
  start := initialNode elected
  lane := Message.tag
  act := act
  accept := accept

abbrev Cluster (n : Nat) := LaneNet MessageTag (Fin n) (Node n) (Message n)

abbrev History (n : Nat) := List (Fin n × Event n)

abbrev Move (n : Nat) := LaneLabel MessageTag (Fin n) (Action n)

abbrev Guard (n : Nat) := History n → Cluster n → Move n → Prop

/-- Runs under a guard. -/
abbrev Reach (elected : Option (Fin n)) (ok : Guard n) : Cluster n → History n → Prop :=
  (process elected).network.Reach ok

def outcome (elected : Option (Fin n)) (test : History n → Cluster n → Move n → Bool)
    (moves : List (Move n)) (look : Cluster n × History n → β) : Option β :=
  ((process elected).network.follow test moves (process elected).network.start []).map look

/-! Moves for writing runs down. Every wait that can time out has. -/

/-- The next `k` sections of a thread. -/
def Move.sections (i : Fin n) (t : ThreadId) (k now : Nat) : List (Move n) :=
  List.replicate k (.act i (.run t true now))

/-- The next `k` sections of `startConsensus`. -/
def Move.proceeds (i : Fin n) (k now : Nat) : List (Move n) :=
  List.replicate k (.act i (.proceed now))

/-- A client connects and sends REPLICATE. -/
def Move.request (i : Fin n) (value : String) (now : Nat) : List (Move n) :=
  [.act i .connect,.act i .disallowRecovery,.act i (.replicate value now)]

/-- A message is taken by its receiver thread and handled. -/
def Move.consensus (src dst : Fin n) (now : Nat) : List (Move n) :=
  [.receive .consensus src dst,.act dst (.handleConsensus now)]

def Move.election (src dst : Fin n) : List (Move n) :=
  .receive .leaderElection src dst::Move.sections dst .electionReceiver 1 0

/-- `k` counts the sections of the handler. -/
def Move.failure (src dst : Fin n) (k : Nat) : List (Move n) :=
  .receive .failureDetection src dst::Move.sections dst .failureReceiver k 0

/-- A node marks a peer dead. `k` is the number of its next thread. -/
def Move.marksDead (i peer : Fin n) (k : Nat) : List (Move n) :=
  .act i (.detectFailure peer)::Move.sections i (.spawned k) 3 0

/-- A leader starts to recover a peer, up to the STATE. -/
def Move.sendsState (i peer : Fin n) (k now : Nat) : List (Move n) :=
  .act i (.detectRecovery peer)::Move.sections i (.spawned k) 4 now

end Algorep.Program.Server
