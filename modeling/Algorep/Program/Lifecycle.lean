import Algorep.Kit.Machine
import Algorep.Program.Messenger
import Algorep.Program.Repl

namespace Algorep.Program.Lifecycle
open Kit
open Repl (ReplCode)

/-! One server from `Node::init` on: the threads of its receivers, the ping thread, and who
tells whom to stop. -/

/-- In `ReplManager::sleep`: about to test `m_shouldBlock`, or on the condition variable. How
long a thread sleeps at some speed is left out, since any time may pass before its next step. -/
inductive Sleep
  | testing
  | waiting
deriving DecidableEq, Repr

/-- What the REPL thread has to do once its loop is over. -/
inductive StopCall
  | stopReceiver (tag : MessageTag)
  | sendShutdown (tag : MessageTag)
  | lowerPingThreadIsUp
  | joinPingThread
  | setInactive (tag : MessageTag)
deriving DecidableEq, Repr

/-- Where a thread is. `starting` and `pausing` are its calls of `ReplManager::sleep`, before
`init` and in its loop; `handling` is the rest of the loop's body. -/
inductive Phase
  | unstarted
  | starting (sleep : Sleep)
  | initializing
  | receiving
  | pausing (sleep : Sleep)
  | handling
  | stopping (calls : List StopCall)
  | finished
deriving DecidableEq, Repr

inductive Thread
  | receiver (tag : MessageTag)
  | ping
deriving DecidableEq, Repr

/-- What the main thread has to do. -/
inductive MainCall
  | startThread (tag : MessageTag)
  | setActive (tag : MessageTag)
  | waitForReceiver (tag : MessageTag)
  | join (tag : MessageTag)
deriving DecidableEq, Repr

/-- `ReceiverManager::startReceiver`. -/
def startReceiver (tag : MessageTag) : List MainCall := [.startThread tag,.setActive tag]

/-- `Node::init`, with its managers constructed. -/
def init : List MainCall :=
  [.repl,.leaderElection,.consensus,.failureDetection,.client].flatMap startReceiver ++
    [.repl,.leaderElection,.consensus,.client,.failureDetection].map .waitForReceiver

/-- The receivers that the REPL thread stops. -/
def stopped : List MessageTag := [.leaderElection,.consensus,.failureDetection]

/-- `MessageReceiver::stopReceiver`, as the managers override it. -/
def stopReceiver : MessageTag → List StopCall
  | .failureDetection =>
    [.sendShutdown .failureDetection,.lowerPingThreadIsUp,.joinPingThread]
  | .leaderElection => [.sendShutdown .leaderElection]
  | .consensus => [.sendShutdown .consensus]
  | .repl | .client => []

/-- `terminated` says that an exception has left a thread's function. -/
structure Server where
  main : List MainCall := init
  phase : Thread → Phase := fun _ => .unstarted
  isActive : MessageTag → Bool := fun _ => false
  shutdownSent : MessageTag → Bool := fun _ => false
  pingThreadIsUp : Bool := true
  shouldBlock : Bool := true
  speed : ReplCode := .speedHigh
  terminated : Bool := false

/-- `fetch` is a round of the REPL thread's loop, with the command for this node that it has
read, if any. A thread may come back from the condition variable on its own (`wake`).
`proceed` is the end of `init`, of `handleMessage`, or of a round of `pingCheck`. -/
inductive Move
  | main
  | fetch (command : Option ReplCode)
  | stop
  | receive (tag : MessageTag) (shutdown : Bool)
  | test (t : Thread)
  | wake (t : Thread)
  | proceed (t : Thread)
deriving DecidableEq, Repr

namespace Server

def setPhase (s : Server) (t : Thread) (phase : Phase) : Server :=
  { s with phase := Function.update s.phase t phase }

def setActive (s : Server) (tag : MessageTag) (value : Bool) : Server :=
  { s with isActive := Function.update s.isActive tag value }

def setShutdownSent (s : Server) (tag : MessageTag) (value : Bool) : Server :=
  { s with shutdownSent := Function.update s.shutdownSent tag value }

end Server

/-- Where the thread of `startReceiver` begins. Two managers override it. -/
def firstPhase : MessageTag → Phase
  | .repl | .client => .receiving
  | .leaderElection | .consensus | .failureDetection => .starting .testing

/-- What `notify_all` does to a thread. -/
def Phase.notified : Phase → Phase
  | .starting .waiting => .starting .testing
  | .pausing .waiting => .pausing .testing
  | phase => phase

/-- The test of `m_shouldBlock`, and what follows `ReplManager::sleep`. -/
def Phase.tested (shouldBlock : Bool) : Phase → Option Phase
  | .starting .testing => some (if shouldBlock then .starting .waiting else .initializing)
  | .pausing .testing => some (if shouldBlock then .pausing .waiting else .handling)
  | _ => none

/-- `ReplManager::handleMessage`. SHUTDOWN has no case. -/
def handleMessage (s : Server) : ReplCode → Server
  | .start | .recover =>
    { s with shouldBlock := false, phase := fun t => (s.phase t).notified }
  | .speedLow => { s with speed := .speedLow }
  | .speedMedium => { s with speed := .speedMedium }
  | .speedHigh => { s with speed := .speedHigh }
  | .crash => { s with shouldBlock := true }
  | .shutdown => s

/-- The next call of the main thread. -/
def mainStep (s : Server) : Option Server :=
  match s.main with
  | [] => none
  | .startThread tag::rest =>
    some (Server.setPhase { s with main := rest } (.receiver tag) (firstPhase tag))
  | .setActive tag::rest => some (Server.setActive { s with main := rest } tag true)
  | .waitForReceiver tag::rest =>
    some { s with main := if s.isActive tag then .join tag::rest else rest }
  | .join tag::rest =>
    if s.phase (.receiver tag) = .finished then some { s with main := rest } else none

/-- A round of the loop in `ReplManager::startReceiver`. -/
def fetch (s : Server) (command : Option ReplCode) : Option Server :=
  if s.phase (.receiver .repl) = .receiving then
    match command with
    | none => some s
    | some code =>
      let s := handleMessage s code
      some (if code.toInt = 0 then
        s.setPhase (.receiver .repl) (.stopping (stopped.map .stopReceiver)) else s)
  else none

/-- The next call of the REPL thread after its loop. To join a thread that has not been started
is an error. -/
def stop (s : Server) : Option Server :=
  match s.phase (.receiver .repl) with
  | .stopping [] => some (s.setPhase (.receiver .repl) .finished)
  | .stopping (call::rest) =>
    let after (s : Server) (calls : List StopCall) := s.setPhase (.receiver .repl) (.stopping calls)
    match call with
    | .stopReceiver tag =>
      some (after s (if s.isActive tag then stopReceiver tag ++ .setInactive tag::rest else rest))
    | .sendShutdown tag => some (after (s.setShutdownSent tag true) rest)
    | .lowerPingThreadIsUp => some (after { s with pingThreadIsUp := false } rest)
    | .joinPingThread =>
      match s.phase .ping with
      | .unstarted => some { s with terminated := true }
      | .finished => some (after s rest)
      | _ => none
    | .setInactive tag => some (after (s.setActive tag false) rest)
  | _ => none

/-- A receiver takes a message. Those to the client manager, SHUTDOWN among them, come from
outside. -/
def receive (s : Server) (tag : MessageTag) (shutdown : Bool) : Option Server :=
  if tag ≠ .repl ∧ s.phase (.receiver tag) = .receiving then
    if shutdown then
      if tag = .client then some (s.setPhase (.receiver tag) .finished)
      else if s.shutdownSent tag then
        some ((s.setShutdownSent tag false).setPhase (.receiver tag) .finished)
      else none
    else some (s.setPhase (.receiver tag) (.pausing .testing))
  else none

/-- The failure manager's `init` starts the ping thread. -/
def proceed (s : Server) (t : Thread) : Option Server :=
  match t, s.phase t with
  | .receiver tag, .initializing =>
    let s := s.setPhase t .receiving
    some (if tag = .failureDetection then s.setPhase .ping (.pausing .testing) else s)
  | .receiver _, .handling => some (s.setPhase t .receiving)
  | .ping, .handling =>
    some (s.setPhase .ping (if s.pingThreadIsUp then .pausing .testing else .finished))
  | _, _ => none

def step (s : Server) (move : Move) : Option Server :=
  if s.terminated then none
  else match move with
    | .main => mainStep s
    | .fetch command => fetch s command
    | .stop => stop s
    | .receive tag shutdown => receive s tag shutdown
    | .test t => ((s.phase t).tested s.shouldBlock).map (s.setPhase t)
    | .wake t => if (s.phase t).notified = s.phase t then none
      else some (s.setPhase t (s.phase t).notified)
    | .proceed t => proceed s t

/-- The server from some state on. -/
def lifecycleFrom (s : Server) : Machine Server Move Move where
  start := s
  step s move := (step s move).map (fun t => (t,[move]))

def lifecycle : Machine Server Move Move := lifecycleFrom {}

end Algorep.Program.Lifecycle
