import Algorep.Program.Messenger

namespace Algorep.Program.Consensus
open Kit

/-- `ConsensusManager::Context`, shared by the proposer, acceptor and learner roles. -/
structure Context where
  roundId : Int := -1
  maxAcceptedId : Int := -1
  valueAccepted : Bool := false
  acceptedId : Int := -1
  acceptedValue : String := ""
  promiseCount : Nat := 0
  acceptCount : Nat := 0
deriving DecidableEq, Repr

/-- A CONSENSUS message: its code, its id, and the fields of its JSON data. A
PROMISE has the fields `acceptedId` and `acceptedValue` both or not at all. -/
inductive Message
  | prepare (id : Int)
  | promise (id roundId : Int) (accepted : Option (Int × String))
  | propose (id roundId : Int) (value : String)
  | accept (id roundId : Int)
  | accepted (id roundId : Int) (value : String)
deriving DecidableEq, Repr

/-- `PROMISE_WAIT_DURATION`, in seconds. -/
def promiseWaitDuration : Nat := 5

/-- `LOG_WRITE_DURATION`, in seconds. -/
def logWriteDuration : Nat := 3

/-! Proposer. -/

/-- The test of `receiveAccepts`. -/
def receiveAccepts (clusterSize : Nat) (context : Context) : Bool :=
  decide (context.acceptCount ≥ (clusterSize - 1) / 2)

/-- The test of `receivePromises`. -/
def receivePromises (clusterSize : Nat) (context : Context) : Bool :=
  decide (context.promiseCount ≥ (clusterSize - 1) / 2)

def broadcastPrepare (rank : Fin n) (now : Nat) (context : Context) : Message × Context :=
  let id := generateUniqueId rank now
  (.prepare id,{ context with roundId := id })

def proposeValue (value : String) (context : Context) : String :=
  if context.maxAcceptedId = -1 then value else context.acceptedValue

def broadcastPropose (rank : Fin n) (now : Nat) (value : String) (context : Context) : Message :=
  .propose (generateUniqueId rank now) context.roundId (proposeValue value context)

def broadcastAccepted (rank : Fin n) (now : Nat) (value : String) (context : Context) : Message :=
  .accepted (generateUniqueId rank now) context.roundId value

/-! Acceptor and learner. A handler returns what it writes back, and the message
it sends to the node it serves, if any. -/

def handlePrepareMessage (rank : Fin n) (now : Nat) (id maxRoundId : Int) (context : Context) :
    Int × Option Message :=
  if id > maxRoundId then
    if context.valueAccepted then
      (id,some (.promise (generateUniqueId rank now) id
        (some (context.acceptedId,context.acceptedValue))))
    else (id,some (.promise (generateUniqueId rank now) id none))
  else (maxRoundId,none)

/-- The ACCEPT carries the id of the PROPOSE message, not the round id. -/
def handleProposeMessage (rank : Fin n) (now : Nat) (id roundId : Int) (value : String)
    (maxRoundId : Int) (context : Context) : Context × Option Message :=
  if roundId = maxRoundId then
    ({ context with valueAccepted := true, acceptedId := roundId, acceptedValue := value },
      some (.accept (generateUniqueId rank now) id))
  else (context,none)

def handlePromiseMessage (roundId : Int) (accepted : Option (Int × String)) (context : Context) :
    Context :=
  if roundId = context.roundId then
    let acceptedId := (accepted.map Prod.fst).getD (-1)
    let context :=
      if acceptedId > context.maxAcceptedId then
        { context with
          acceptedValue := (accepted.map Prod.snd).getD ""
          maxAcceptedId := acceptedId }
      else context
    { context with promiseCount := context.promiseCount + 1 }
  else context

def handleAcceptMessage (context : Context) : Context :=
  { context with acceptCount := context.acceptCount + 1 }

/-! The node: its managers' state and how far its two threads are. -/

/-- Where the client thread is inside `startConsensus(value)`. In the three
broadcasts the list holds the nodes still to be sent to; an empty list is the
wait that follows, which may end at any moment. -/
inductive Thread (n : Nat)
  | idle
  | prepare (value : String) (message : Message) (rest : List (Fin n))
  | majorityPromised (value : String)
  | propose (value : String) (message : Message) (rest : List (Fin n))
  | majorityAccepted (value : String)
  | logWritten (value : String)
  | accepted (value : String) (message : Message) (rest : List (Fin n))
  | logWait (consensusReached : Bool)
deriving DecidableEq, Repr

/-- `calls` counts the calls of `startConsensus`. It only serves to name a call
in the history, like the number each packet carries; no handler reads either. -/
structure Node (n : Nat) where
  context : Context := {}
  maxRoundId : Int := -1
  log : List String := []
  thread : Thread n := .idle
  /-- the receiver has appended an ACCEPTED value and not yet reset the context -/
  resetting : Bool := false
  calls : Nat := 0
deriving DecidableEq, Repr

structure Packet where
  message : Message
  call : Nat
deriving DecidableEq, Repr

inductive Event (n : Nat)
  | called (call : Nat) (value : String) (id : Int)
  | promisesSampled (call : Nat) (majorityPromised : Bool)
  | proposed (call : Nat) (context : Context) (value : String)
  | acceptsSampled (call : Nat) (value : String) (majorityAccepted : Bool)
  | appended (src : Fin n) (call : Nat) (value : String)
  | announced (call : Nat) (value : String)
  | returned (call : Nat) (consensusReached : Bool)
  | promised (src : Fin n) (call : Nat) (roundId : Int)
  | accepted (src : Fin n) (call : Nat) (roundId : Int) (value : String)
deriving DecidableEq, Repr

inductive Action
  | startConsensus (value : String) (now : Nat)
  | proceed (now : Nat)
  | resetContext

abbrev Result (n : Nat) := Outcome (Fin n) (Node n) Packet (Event n)

/-- Entry of `startConsensus`, up to the critical section of `broadcastPrepare`. -/
def startConsensus (rank : Fin n) (node : Node n) (value : String) (now : Nat) :
    Option (Result n) :=
  match node.thread with
  | .idle =>
    let (message,context) := broadcastPrepare rank now node.context
    some {
      state := { node with
        context := context
        calls := node.calls + 1
        thread := .prepare value message (others rank) }
      events := [.called (node.calls + 1) value context.roundId] }
  | _ => none

/-- The next atomic step of a `startConsensus` in progress. -/
def proceed (rank : Fin n) (node : Node n) (now : Nat) : Option (Result n) :=
  match node.thread with
  | .idle => none
  | .prepare value message (dst::rest) =>
    some {
      state := { node with thread := .prepare value message rest }
      send := some (dst,⟨message,node.calls⟩) }
  | .prepare value _ [] =>
    let majorityPromised := receivePromises n node.context
    some {
      state := { node with
        thread := if majorityPromised then .majorityPromised value else .logWait false }
      events := [.promisesSampled node.calls majorityPromised] }
  | .majorityPromised value =>
    some {
      state := { node with
        thread := .propose value (broadcastPropose rank now value node.context) (others rank) }
      events := [.proposed node.calls node.context (proposeValue value node.context)] }
  | .propose value message (dst::rest) =>
    some {
      state := { node with thread := .propose value message rest }
      send := some (dst,⟨message,node.calls⟩) }
  | .propose value _ [] =>
    let majorityAccepted := receiveAccepts n node.context
    some {
      state := { node with
        thread := if majorityAccepted then .majorityAccepted value else .logWait false }
      events := [.acceptsSampled node.calls value majorityAccepted] }
  | .majorityAccepted value =>
    some {
      state := { node with log := node.log ++ [value], thread := .logWritten value }
      events := [.appended rank node.calls value] }
  | .logWritten value =>
    some {
      state := { node with
        thread := .accepted value (broadcastAccepted rank now value node.context) (others rank) }
      events := [.announced node.calls value] }
  | .accepted value message (dst::rest) =>
    some {
      state := { node with thread := .accepted value message rest }
      send := some (dst,⟨message,node.calls⟩) }
  | .accepted _ _ [] => some { state := { node with thread := .logWait true } }
  | .logWait consensusReached =>
    some {
      state := { node with context := {}, thread := .idle }
      events := [.returned node.calls consensusReached] }

def act (rank : Fin n) (node : Node n) : Action → Option (Result n)
  | .startConsensus value now => startConsensus rank node value now
  | .proceed now => proceed rank node now
  | .resetContext =>
    if node.resetting then
      some { state := { node with context := {}, resetting := false } }
    else none

/-- `ConsensusManager::handleMessage`. The receiver takes no message while it is
inside `handleAcceptedMessage`, whose append and reset are separate sections. -/
def handleMessage (rank : Fin n) (node : Node n) (srcNodeId : Fin n) (packet : Packet)
    (now : Nat) : Option (Result n) :=
  if node.resetting then none
  else match packet.message with
  | .prepare id =>
    let (maxRoundId,reply) := handlePrepareMessage rank now id node.maxRoundId node.context
    some {
      state := { node with maxRoundId := maxRoundId }
      send := reply.map (fun m => (srcNodeId,⟨m,packet.call⟩))
      events := (reply.map (fun _ => Event.promised srcNodeId packet.call id)).toList }
  | .promise _ roundId accepted =>
    some { state := { node with
      context := handlePromiseMessage roundId accepted node.context } }
  | .propose id roundId value =>
    let (context,reply) :=
      handleProposeMessage rank now id roundId value node.maxRoundId node.context
    some {
      state := { node with context := context }
      send := reply.map (fun m => (srcNodeId,⟨m,packet.call⟩))
      events := (reply.map (fun _ =>
        Event.accepted srcNodeId packet.call roundId value)).toList }
  | .accept _ _ => some { state := { node with context := handleAcceptMessage node.context } }
  | .accepted _ _ value =>
    some {
      state := { node with log := node.log ++ [value], resetting := true }
      events := [.appended srcNodeId packet.call value] }

/-- The CONSENSUS side of a cluster of `n` nodes. -/
def process (n : Nat) : Process (Fin n) (Node n) Action Nat Packet (Event n) where
  start _ := {}
  act := act
  handle := handleMessage

abbrev Cluster (n : Nat) := Net (Fin n) (Node n) Packet

abbrev History (n : Nat) := List (Fin n × Obs (Fin n) Packet (Event n))

abbrev Move (n : Nat) := Links (Fin n) × Label (Fin n) Action Nat

abbrev Guard (n : Nat) := History n → Cluster n → Move n → Prop

/-- Runs under a guard: any nodes call `startConsensus` at any time. -/
abbrev Reach (ok : Guard n) : Cluster n → History n → Prop := (process n).network.Reach ok

/-- The guard that a test decides. -/
def holding (test : History n → Cluster n → Move n → Bool) : Guard n :=
  fun es s l => test es s l = true

/-- The links of the step are those of tables in which nobody is dead. -/
def NoneDead (l : Move n) : Prop := ∀ a b, l.1 a b = links noneDead .consensus a b

instance (l : Move n) : Decidable (NoneDead l) :=
  inferInstanceAs (Decidable (∀ a b, l.1 a b = links noneDead .consensus a b))

theorem NoneDead.links {l : Move n} (h : NoneDead l) : l.1 = allUp := by
  funext a b
  rw [h a b, links_noneDead]

/-- Runs in which nobody is marked dead, under no other condition. -/
def nobodyDead (_ : History n) (_ : Cluster n) (l : Move n) : Bool := decide (NoneDead l)

/-! Moves while no node is marked dead, for writing runs down. -/

def Move.act (i : Fin n) (a : Action) : Move n := (links noneDead .consensus,.act i a)

def Move.call (i : Fin n) (value : String) (now : Nat) : Move n :=
  .act i (.startConsensus value now)

def Move.proceed (i : Fin n) (now : Nat) : Move n := .act i (.proceed now)

def Move.deliver (src dst : Fin n) (now : Nat) : Move n :=
  (links noneDead .consensus,.deliver src dst now)

/-- The test of a run without conditions. -/
def anyMove (_ : History n) (_ : Cluster n) (_ : Move n) : Bool := true

/-- Executes moves from the start, testing each, and looks at where they lead. -/
def outcome (test : History n → Cluster n → Move n → Bool) (moves : List (Move n))
    (look : Cluster n × History n → β) : Option β :=
  ((process n).network.follow test moves (process n).network.start []).map look

end Algorep.Program.Consensus
