import Algorep.Program.Client
import Algorep.Program.Server

namespace Algorep.Program
open Kit

namespace Service

/-- What a client sends a server: a REPLICATE with its value, or a DISCONNECT. -/
inductive Request
  | replicate (value : String)
  | disconnect
deriving DecidableEq, Repr

/-- A `Messenger::Connection`: what is on its way in either direction. -/
structure Connection where
  toServer : List Request := []
  toClient : List ClientCode := []
deriving DecidableEq, Repr

end Service

/-- The clients of one command session and the servers of one cluster. A connection is
named by its client and its number among that client's connections. -/
structure Service (m n : Nat) where
  session : Client.Session m
  cluster : Server.Cluster n
  connections : Fin m × Nat → Service.Connection := fun _ => {}
  /-- the number of connections a client has made; the last one is its `m_serverConnection` -/
  made : Fin m → Nat := fun _ => 0
  /-- `m_clientConnection` -/
  clientConnection : Fin n → Option (Fin m × Nat) := fun _ => none

namespace Service

inductive Move (m n : Nat)
  | connect (c : Fin m) (i : Fin n)
  | client (c : Fin m) (a : Client.Action)
  | server (l : Server.Move n)
  | shutdown

/-- `appended` says that server `i` has appended the value to its log in the
`startConsensus` it runs for client `c`. -/
inductive Event (m n : Nat)
  | client (c : Fin m) (e : Client.Event)
  | server (i : Fin n) (e : Server.Event n)
  | appended (c : Fin m) (i : Fin n) (value : String)
  | gaveUp (c : Fin m)
deriving DecidableEq, Repr

/-- The connection of a client after the client's action. A client does not wait in
`disconnect` for the server to disconnect too. -/
def clientSide (value : String) (connection : Connection) : Client.Action → Option Connection
  | .connect => none
  | .send => some { connection with toServer := connection.toServer ++ [.replicate value] }
  | .receive code =>
    match connection.toClient with
    | received::rest => if received = code then some { connection with toClient := rest } else none
    | [] => none
  | .disconnect => some { connection with toServer := connection.toServer ++ [.disconnect] }
  | _ => some connection

/-- The server takes the request if it is the next one. -/
def take (request : Request) (connection : Connection) : Option Connection :=
  match connection.toServer with
  | next::rest => if next = request then some { connection with toServer := rest } else none
  | [] => none

/-- The connection of a server after the server's action. -/
def serverSide (node : Server.Node n) (connection : Connection) :
    Server.Action n → Option Connection
  | .connect => none
  | .replicate value _ => take (.replicate value) connection
  | .disconnect => take .disconnect connection
  | .reply =>
    match node.client with
    | .replying _ true => some { connection with toClient := connection.toClient ++ [.success] }
    | _ => some connection
  | _ => some connection

def usesConnection : Server.Action n → Bool
  | .connect | .replicate _ _ | .reply | .disconnect => true
  | _ => false

/-- All connections after a step of the cluster. -/
def serve (s : Service m n) : Server.Move n → Option (Fin m × Nat → Connection)
  | .act i a =>
    match s.clientConnection i with
    | some name => (serverSide (s.cluster.nodes i) (s.connections name) a).map
        (Function.update s.connections name)
    | none => if usesConnection a then none else some s.connections
  | .receive _ _ _ => some s.connections

/-- The value `startConsensus` appends to the log in this step. -/
def appends (node : Server.Node n) : Server.Action n → Option String
  | .proceed _ =>
    match node.consensus.thread with
    | .majorityAccepted value => some value
    | _ => none
  | _ => none

def appended (s : Service m n) : Server.Move n → List (Event m n)
  | .act i a =>
    match s.clientConnection i, appends (s.cluster.nodes i) a with
    | some (c,_), some value => [.appended c i value]
    | _, _ => []
  | .receive _ _ _ => []

def gaveUp (c : Fin m) : Client.Action → List (Event m n)
  | .giveUp _ => [.gaveUp c]
  | _ => []

/-- A client and a server connect in one step. -/
def step (elected : Option (Fin n)) (s : Service m n) :
    Move m n → Option (Service m n × List (Event m n))
  | .connect c i =>
    match Client.step s.session (.act c .connect),
      (Server.process elected).network.step s.cluster (.act i .connect) with
    | some (session,_), some (cluster,_) => some ({
        session := session
        cluster := cluster
        connections := Function.update s.connections (c,s.made c + 1) {}
        made := Function.update s.made c (s.made c + 1)
        clientConnection := Function.update s.clientConnection i (some (c,s.made c + 1)) },[])
    | _, _ => none
  | .client c a =>
    let value := String.ofList (s.session.clients c).line
    match Client.step s.session (.act c a),
      clientSide value (s.connections (c,s.made c)) a with
    | some (session,es), some connection => some ({ s with
        session := session
        connections := Function.update s.connections (c,s.made c) connection },
        es.map (fun p => .client p.1 p.2) ++ gaveUp c a)
    | _, _ => none
  | .server l =>
    match (Server.process elected).network.step s.cluster l, serve s l with
    | some (cluster,es), some connections => some ({ s with
        cluster := cluster
        connections := connections },es.map (fun p => .server p.1 p.2) ++ appended s l)
    | _, _ => none
  | .shutdown => (Client.step s.session .shutdown).map (fun p => ({ s with session := p.1 },[]))

def service (elected : Option (Fin n)) (files : Fin m → List Char) :
    Machine (Service m n) (Move m n) (Event m n) where
  start := {
    session := (Client.session files).start
    cluster := (Server.process elected).network.start }
  step := step elected

abbrev History (m n : Nat) := List (Event m n)

abbrev Guard (m n : Nat) := History m n → Service m n → Move m n → Prop

def outcome (elected : Option (Fin n)) (files : Fin m → List Char)
    (test : History m n → Service m n → Move m n → Bool) (moves : List (Move m n))
    (look : Service m n × History m n → β) : Option β :=
  ((service elected files).follow test moves (service elected files).start []).map look

/-! Moves for writing runs down. -/

def Move.clients (c : Fin m) (as : List Client.Action) : List (Move m n) := as.map (.client c)

def Move.servers (i : Fin n) (as : List (Server.Action n)) : List (Move m n) :=
  as.map (fun a => .server (.act i a))

/-- A client connects to a server and sends it a command. -/
def Move.asks (c : Fin m) (i : Fin n) : List (Move m n) := [.connect c i,.client c .send]

/-- A server takes a REPLICATE and goes `k` sections into `startConsensus`. -/
def Move.runs (i : Fin n) (value : String) (k now : Nat) : List (Move m n) :=
  Move.servers i (.disallowRecovery :: .replicate value now :: List.replicate k (.proceed now))

end Service

end Algorep.Program
