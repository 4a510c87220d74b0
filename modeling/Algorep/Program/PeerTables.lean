import Algorep.Kit.Cells
import Algorep.Program.Heartbeat

namespace Algorep.Program.PeerTables
open Kit
open Heartbeat (seconds timeoutDuration)

/-! The tables that the messenger and the failure manager of one server keep of its peers, as
the vectors that they are. A server has no entry of its own, so that ids and indices differ.
Both are `int`s. -/

/-- `indexToId`. -/
def indexToId (nodeId index : Int) : Int := if index < nodeId then index else index + 1

/-- `idToIndex`. -/
def idToIndex (nodeId1 nodeId2 : Int) : Int := if nodeId2 < nodeId1 then nodeId2 else nodeId2 - 1

/-- `nodeId` in `checkTimeStamps`, in both of its branches. -/
def checkedNodeId (rank i : Int) : Int := if i < rank then i else i + 1

/-- `nodeStatusIndex` in `messageShouldDrop`. -/
def dropStatusIndex (nodeId otherNodeId : Int) : Int :=
  if otherNodeId < nodeId then otherNodeId else otherNodeId - 1

/-- `nodeStatusIndex` in `Messenger::send`, which makes no use of it. -/
def sendStatusIndex (rank dstNodeId : Int) : Int :=
  if dstNodeId < rank then dstNodeId else dstNodeId - 1

structure Tables where
  timeStamps : List Int := []
  isAlive : List Bool := []
  processIsAlive : List Bool := []
deriving DecidableEq, Repr

/-- `messageShouldDrop`. The table is read only where the tests before it leave it open. -/
def messageShouldDrop (processIsAlive : List Bool) (nodeId otherNodeId : Int) (onWorld : Bool)
    (tag : MessageTag) : Option Bool :=
  let nodeStatusIndex := dropStatusIndex nodeId otherNodeId
  if otherNodeId = nodeId ∨ onWorld = false then some false
  else (readAt processIsAlive nodeStatusIndex).map
    (fun alive => !(alive || tag == .failureDetection))

/-- `Messenger::send`, as far as it decides whether the message goes out. -/
def send (processIsAlive : List Bool) (rank dstNodeId : Int) (onWorld : Bool) (tag : MessageTag) :
    Option Bool :=
  (messageShouldDrop processIsAlive rank dstNodeId onWorld tag).map (!·)

/-- `Messenger::start`. -/
def start (clusterSize : Nat) (tables : Tables) : Option Tables :=
  (assign (fun _ => true) (clusterSize - 1)
    (resize tables.processIsAlive (clusterSize - 1) false)).map
      (fun processIsAlive => { tables with processIsAlive := processIsAlive })

/-- `FailureManager::init`, with the clock readings of its loop. -/
def init (clusterSize : Nat) (now : Nat → Int) (tables : Tables) : Option Tables :=
  let n := clusterSize - 1
  (assign now n (resize tables.timeStamps n 0)).bind fun timeStamps =>
    (assign (fun _ => true) n (resize tables.isAlive n false)).map fun isAlive =>
      { tables with timeStamps := timeStamps, isAlive := isAlive }

/-- `Messenger::setNodeStatus`. -/
def setNodeStatus (tables : Tables) (nodeIndex : Int) (isAlive : Bool) : Option Tables :=
  (writeAt tables.processIsAlive nodeIndex isAlive).map
    (fun processIsAlive => { tables with processIsAlive := processIsAlive })

def setIsAlive (tables : Tables) (nodeIndex : Int) (value : Bool) : Option Tables :=
  (writeAt tables.isAlive nodeIndex value).map (fun isAlive => { tables with isAlive := isAlive })

def setTimeStamp (tables : Tables) (i now : Int) : Option Tables :=
  (writeAt tables.timeStamps i now).map
    (fun timeStamps => { tables with timeStamps := timeStamps })

/-- `handlePing`. -/
def handlePing (rank srcNodeId : Int) (tables : Tables) (now : Int) : Option Tables :=
  let i := idToIndex rank srcNodeId
  setTimeStamp tables i now

/-- What a round of `checkTimeStamps` finds: the index that it hands to the thread it detaches,
and the id that it prints. -/
inductive Detection
  | failure (nodeIndex nodeId : Int)
  | recovery (nodeIndex nodeId : Int)
deriving DecidableEq, Repr

/-- One round of the loop of `checkTimeStamps`. `mayRecover` says that the server leads and that
no recovery is under way. -/
def checkTimeStamp (rank i : Int) (tables : Tables) (cur : Int) (mayRecover : Bool) :
    Option (Option Detection) :=
  (readAt tables.timeStamps i).bind fun lastSeen =>
    let elapsed := seconds (cur - lastSeen)
    (readAt tables.isAlive i).bind fun isAlive =>
      if isAlive = true ∧ elapsed > timeoutDuration then
        some (some (.failure i (checkedNodeId rank i)))
      else (readAt tables.isAlive i).map fun isAlive =>
        if isAlive = false ∧ elapsed < timeoutDuration ∧ mayRecover = true then
          some (.recovery i (checkedNodeId rank i))
        else none

/-! The threads. -/

/-- A stretch of a thread in which nobody else gets at the tables. -/
inductive Section
  | send (dstNodeId : Int) (tag : MessageTag)
  | handlePing (srcNodeId : Int)
  | setNodeStatus (nodeIndex : Int) (isAlive : Bool)
  | setIsAlive (nodeIndex : Int) (value : Bool)
  | setTimeStamp (i : Int)
  | checkTimeStamp (i : Int)
deriving DecidableEq, Repr

/-- The indices of a loop over the peers. -/
def indices (clusterSize : Nat) : List Int := (List.range (clusterSize - 1)).map Int.ofNat

/-- `Messenger::broadcast` to everybody else. -/
def broadcast (rank : Fin n) (tag : MessageTag) : List Section :=
  (others rank).map (fun i => .send i.val tag)

def enableComm (rank recoveredNodeId : Int) : List Section :=
  let nodeIndex := idToIndex rank recoveredNodeId
  [.setNodeStatus nodeIndex true,.setIsAlive nodeIndex true]

/-- `handleStateUpdate`. `accepted` says that the recovery is the current one and the server
leads. -/
def handleStateUpdate (rank : Fin n) (srcNodeId : Int) (accepted : Bool) : List Section :=
  (if accepted then broadcast rank .failureDetection ++ enableComm rank.val srcNodeId else []) ++
    [.send srcNodeId .leaderElection]

def handleRecovered (rank : Fin n) (recoveredNodeId : Int) : List Section :=
  if (rank.val : Int) = recoveredNodeId then (indices n).map .setTimeStamp
  else enableComm rank.val recoveredNodeId

/-- `handleNodeFailure`. The election that it may start only sends. -/
def handleNodeFailure (nodeIndex : Int) : List Section :=
  [.setIsAlive nodeIndex false,.setNodeStatus nodeIndex false]

def handleNodeRecovery (rank nodeIndex : Int) : List Section :=
  [.send (indexToId rank nodeIndex) .failureDetection]

/-- The loop body of `pingCheck`. -/
def pingBody (rank : Fin n) : List Section :=
  (indices n).map .checkTimeStamp ++ broadcast rank .failureDetection

abbrev Peer (rank : Fin n) := { j : Fin n // j ≠ rank }

/-- A message to the failure manager. PING is sent to others only, and STATE_UPDATED answers a
STATE, which goes to a peer. -/
inductive Message (rank : Fin n)
  | ping (srcNodeId : Peer rank)
  | state (srcNodeId : Fin n)
  | stateUpdated (srcNodeId : Peer rank)
  | recovered (recoveredNodeId : Fin n)
deriving DecidableEq, Repr

/-- What a thread is in. -/
inductive Call (rank : Fin n)
  | handleMessage (message : Message rank)
  | pingCheck
  | handleNodeFailure (nodeIndex : Int)
  | handleNodeRecovery (nodeIndex : Int)
deriving DecidableEq, Repr

def Detection.call : Detection → Call rank
  | .failure nodeIndex _ => .handleNodeFailure nodeIndex
  | .recovery nodeIndex _ => .handleNodeRecovery nodeIndex

/-- What a call runs. `handleState` answers with STATE_UPDATED. -/
def Call.sections {rank : Fin n} (accepted : Bool) : Call rank → List Section
  | .handleMessage (.ping srcNodeId) => [.handlePing srcNodeId.val.val]
  | .handleMessage (.state srcNodeId) => [.send srcNodeId.val .failureDetection]
  | .handleMessage (.stateUpdated srcNodeId) => handleStateUpdate rank srcNodeId.val.val accepted
  | .handleMessage (.recovered recoveredNodeId) => handleRecovered rank recoveredNodeId.val
  | .pingCheck => pingBody rank
  | .handleNodeFailure nodeIndex => PeerTables.handleNodeFailure nodeIndex
  | .handleNodeRecovery nodeIndex => PeerTables.handleNodeRecovery rank.val nodeIndex

inductive Thread
  | failureReceiver
  | ping
  | detached (k : Nat)
deriving DecidableEq, Repr

inductive Stage
  | constructed
  | started
  | initialised
deriving DecidableEq, Repr

/-- A thread is what it still has to run, each section with the call that it is part of.
`outOfBounds` says that an access had no entry to go to. -/
structure State (rank : Fin n) where
  tables : Tables := {}
  stage : Stage := .constructed
  threads : Thread → List (Call rank × Section) := fun _ => []
  detached : Nat := 0
  outOfBounds : Bool := false

/-- `send` and `receive` are those of any thread, also of other managers. -/
inductive Move (rank : Fin n)
  | start
  | init (now : Nat → Int)
  | send (dstNodeId : Fin n) (onWorld : Bool) (tag : MessageTag)
  | receive (srcNodeId : Fin n) (onWorld : Bool) (tag : MessageTag)
  | handleMessage (message : Message rank) (accepted : Bool)
  | pingCheck
  | run (t : Thread) (now : Int) (mayRecover : Bool)

/-- Runs one section. -/
def exec (rank : Int) (tables : Tables) (now : Int) (mayRecover : Bool) :
    Section → Option (Tables × Option Detection)
  | .send dstNodeId tag =>
    (send tables.processIsAlive rank dstNodeId true tag).map (fun _ => (tables,none))
  | .handlePing srcNodeId => (handlePing rank srcNodeId tables now).map (·,none)
  | .setNodeStatus nodeIndex isAlive => (setNodeStatus tables nodeIndex isAlive).map (·,none)
  | .setIsAlive nodeIndex value => (setIsAlive tables nodeIndex value).map (·,none)
  | .setTimeStamp i => (setTimeStamp tables i now).map (·,none)
  | .checkTimeStamp i => (checkTimeStamp rank i tables now mayRecover).map (tables,·)

section
variable {rank : Fin n}

def State.setThread (s : State rank) (t : Thread) (ops : List (Call rank × Section)) : State rank :=
  { s with threads := Function.update s.threads t ops }

/-- A thread enters a call. -/
def State.enter (s : State rank) (t : Thread) (call : Call rank) (accepted : Bool) : State rank :=
  s.setThread t ((call.sections accepted).map (call,·))

/-- What has been detected gets a thread of its own. -/
def State.detach (s : State rank) : Option Detection → State rank
  | some detection =>
    { s.enter (.detached s.detached) detection.call false with detached := s.detached + 1 }
  | none => s

def State.checked (s : State rank) (result : Option α) (next : α → State rank × List Detection) :
    State rank × List Detection :=
  match result with
  | some a => next a
  | none => ({ s with outOfBounds := true },[])

def step (s : State rank) (move : Move rank) : Option (State rank × List Detection) :=
  if s.outOfBounds then none
  else match move with
    | .start =>
      if s.stage = .constructed then some (s.checked (start n s.tables)
        fun tables => ({ s with tables := tables, stage := .started },[]))
      else none
    | .init now =>
      if s.stage = .started then some (s.checked (init n now s.tables)
        fun tables => ({ s with tables := tables, stage := .initialised },[]))
      else none
    | .send dstNodeId onWorld tag =>
      if s.stage = .constructed then none
      else some (s.checked (send s.tables.processIsAlive rank.val dstNodeId.val onWorld tag)
        fun _ => (s,[]))
    | .receive srcNodeId onWorld tag =>
      if s.stage = .constructed then none
      else some (s.checked
        (messageShouldDrop s.tables.processIsAlive rank.val srcNodeId.val onWorld tag)
        fun _ => (s,[]))
    | .handleMessage message accepted =>
      if s.stage = .initialised ∧ s.threads .failureReceiver = [] then
        some (s.enter .failureReceiver (.handleMessage message) accepted,[])
      else none
    | .pingCheck =>
      if s.stage = .initialised ∧ s.threads .ping = [] then
        some (s.enter .ping .pingCheck false,[])
      else none
    | .run t now mayRecover =>
      match s.threads t with
      | [] => none
      | (_,sec)::rest => some (s.checked (exec rank.val s.tables now mayRecover sec)
        fun p => (({ s with tables := p.1 }.setThread t rest).detach p.2,p.2.toList))

end

def peerTables (rank : Fin n) : Machine (State rank) (Move rank) Detection where
  start := {}
  step := step

end Algorep.Program.PeerTables
