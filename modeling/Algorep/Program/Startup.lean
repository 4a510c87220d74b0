import Algorep.Program.Server

namespace Algorep.Program.Startup
open Kit

/-! A server from the moment its managers run. `ClientManager::startReceiver` calls
`allowRecovery` once before its first `acceptConnBlock`; the sessions come after. -/

structure Node (n : Nat) where
  server : Server.Node n
  accepts : Bool := false

inductive Action (n : Nat)
  | allowRecovery
  | server (a : Server.Action n)

abbrev Result (n : Nat) := Outcome (Fin n) (Node n) (Server.Message n) (Server.Event n)

/-- `clientConnMutex.unlock()`, whoever holds the lock. -/
def allowRecovery (node : Node n) : Option (Result n) :=
  if node.accepts then none
  else some { state := {
    server := { node.server with clientConnMutex := none }
    accepts := true } }

/-- Nobody can connect before the port is waited on. -/
def allows (node : Node n) : Server.Action n → Bool
  | .connect => node.accepts
  | _ => true

def serve (rank : Fin n) (node : Node n) (a : Server.Action n) : Option (Result n) :=
  if allows node a then
    (Server.act rank node.server a).map (fun out => {
      state := { node with server := out.state }
      send := out.send
      events := out.events })
  else none

def act (rank : Fin n) (node : Node n) : Action n → Option (Result n)
  | .allowRecovery => allowRecovery node
  | .server a => serve rank node a

def process (elected : Option (Fin n)) :
    LaneProcess MessageTag (Fin n) (Node n) (Action n) (Server.Message n) (Server.Event n) where
  start rank := { server := Server.initialNode elected rank }
  lane := Server.Message.tag
  act := act
  accept rank node tag srcNodeId message :=
    (Server.accept rank node.server tag srcNodeId message).map (fun x => { node with server := x })

abbrev Cluster (n : Nat) := LaneNet MessageTag (Fin n) (Node n) (Server.Message n)

abbrev Move (n : Nat) := LaneLabel MessageTag (Fin n) (Action n)

end Algorep.Program.Startup
