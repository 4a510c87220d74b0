import Algorep.Program.Client
import Algorep.Program.Messenger

namespace Algorep.Program.Shutdown
open Kit

/-! The shutdown of a cluster: the client managers, and the client that starts it. -/

/-- A call on somebody's port. All messages are sent before the disconnect. -/
inductive PortCall
  | connecting
  | connected (sent : Nat)
  | finished
deriving DecidableEq, Repr

/-- A server, or the shutdown client. -/
abbrev Caller (n : Nat) := Option (Fin n)

/-- Where `ClientManager::startReceiver` is. It starts out in `acceptConnBlock`, its port
open and its successor's port known. -/
inductive Phase (n : Nat)
  | accepting
  | locking (caller : Caller n)
  | session (caller : Caller n)
  | disconnecting (caller : Caller n)
  | closingPort
  | testingLeader
  | calling (call : PortCall)
deriving DecidableEq, Repr

/-- The node has come to the `MPI_Comm_disconnect` of the connection it accepted. -/
def Phase.leaves : Phase n → Bool
  | .accepting | .locking _ | .session _ => false
  | _ => true

/-- `inbox i` is what has been sent on the connection that node `i` has accepted. -/
structure Wave (n : Nat) where
  nodes : Fin n → Phase n
  portOpen : Fin n → Bool
  inbox : Fin n → List ClientCode
  client : PortCall

inductive Move (n : Nat)
  | connect (caller : Caller n)
  | send (caller : Caller n)
  | hangUp (caller : Caller n)
  | disallowRecovery (i : Fin n)
  | receive (i : Fin n)
  | disconnect (i : Fin n)
  | closePort (i : Fin n)
  | testLeader (i : Fin n)
deriving DecidableEq, Repr

/-- The node whose port `m_nextNodePort` is. -/
def next (i : Fin n) : Fin n := ⟨(i.val + 1) % n,Nat.mod_lt _ i.pos⟩

section
variable (leader : Fin n)

/-- The port a caller has. The shutdown client looks the leader's up. -/
def target : Caller n → Fin n
  | none => leader
  | some i => next i

/-- `shutdownServer` disconnects like any client, with a DISCONNECT message. -/
def messages : Caller n → List ClientCode
  | none => [.shutdown,.disconnect]
  | some _ => [.shutdown]

def call (s : Wave n) : Caller n → Option PortCall
  | none => some s.client
  | some i => match s.nodes i with
    | .calling call => some call
    | _ => none

def setCall (s : Wave n) : Caller n → PortCall → Wave n
  | none, call => { s with client := call }
  | some i, call => { s with nodes := Function.update s.nodes i (.calling call) }

def setPhase (s : Wave n) (i : Fin n) (phase : Phase n) : Wave n :=
  { s with nodes := Function.update s.nodes i phase }

def setInbox (s : Wave n) (i : Fin n) (codes : List ClientCode) : Wave n :=
  { s with inbox := Function.update s.inbox i codes }

def closePort (s : Wave n) (i : Fin n) : Wave n :=
  { s with portOpen := Function.update s.portOpen i false }

/-- The caller has come to its `MPI_Comm_disconnect`. -/
def callerLeaves (s : Wave n) (caller : Caller n) : Bool :=
  match call s caller with
  | some (.connected sent) => (messages caller)[sent]?.isNone
  | some .finished => true
  | _ => false

/-- One round of the loop in `receivePendingMessages`. -/
def receive (s : Wave n) (i : Fin n) (caller : Caller n) :
    Option (Wave n × List (Fin n)) :=
  match s.inbox i with
  | [] => none
  | .shutdown::rest =>
    some (setInbox (setPhase s i (.disconnecting caller)) i rest,[i])
  | .disconnect::_ => some (setInbox (setPhase s i .accepting) i [],[])
  | _::rest => some (setInbox s i rest,[])

/-- A connect and an accept meet. `MPI_Comm_disconnect` is collective; `barrier` says
whether either side has to wait for the other there. -/
def step (barrier : Bool) (s : Wave n) : Move n → Option (Wave n × List (Fin n))
  | .connect caller =>
    let callee := target leader caller
    if call s caller = some .connecting ∧ s.portOpen callee ∧ s.nodes callee = .accepting then
      some (setCall (setPhase s callee (.locking caller)) caller (.connected 0),[])
    else none
  | .send caller =>
    match call s caller with
    | some (.connected sent) =>
      let callee := target leader caller
      (messages caller)[sent]?.map (fun code =>
        (setInbox (setCall s caller (.connected (sent + 1))) callee (s.inbox callee ++ [code]),[]))
    | _ => none
  | .hangUp caller =>
    match call s caller with
    | some (.connected sent) =>
      if (messages caller)[sent]?.isNone ∧
          (!barrier || (s.nodes (target leader caller)).leaves) then
        some (setCall s caller .finished,[])
      else none
    | _ => none
  | .disallowRecovery i =>
    match s.nodes i with
    | .locking caller => some (setPhase s i (.session caller),[])
    | _ => none
  | .receive i =>
    match s.nodes i with
    | .session caller => receive s i caller
    | _ => none
  | .disconnect i =>
    match s.nodes i with
    | .disconnecting caller =>
      if !barrier || callerLeaves s caller then some (setPhase s i .closingPort,[]) else none
    | _ => none
  | .closePort i =>
    if s.nodes i = .closingPort then
      some (closePort (setPhase s i .testingLeader) i,[])
    else none
  | .testLeader i =>
    if s.nodes i = .testingLeader then
      some (setPhase s i (.calling (if leader ≠ next i then .connecting else .finished)),[])
    else none

/-- Every node waits for a client, and takes `leader` for the leader throughout. The
history names the nodes that receive SHUTDOWN. -/
def wave (barrier : Bool) : Machine (Wave n) (Move n) (Fin n) where
  start := {
    nodes := fun _ => .accepting
    portOpen := fun _ => true
    inbox := fun _ => []
    client := .connecting }
  step := step leader barrier

/-- A node that has been connected to receives SHUTDOWN and comes to pass it on. -/
def Move.receives (i : Fin n) : List (Move n) :=
  [.disallowRecovery i,.receive i,.disconnect i,.closePort i,.testLeader i]

end

end Algorep.Program.Shutdown
