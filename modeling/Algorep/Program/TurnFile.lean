import Algorep.Kit.Tail
import Algorep.Program.Client
import Algorep.Program.Repl

namespace Algorep.Program.TurnFile
open Kit Json Repl

/-! The clients of one command session again, over the bytes of `etc/turn.txt`. -/

/-- `turnIfs` is the client's place in the turn file. The stream on its commands, and where it
is, are those of a `client`. -/
structure State where
  client : Client.State
  turnIfs : Nat := 0
  terminated : Bool := false
deriving DecidableEq

inductive Event
  | read (line : Bytes)
  | entered
  | threw
deriving DecidableEq, Repr

/-- A turn of the loop in `waitForTurn`: whether the loop goes on, the line, and the place
behind it. -/
def waitForTurn (clientId : Nat) (turnFile : Bytes) (place : Nat) :
    Except Repl.Exception (Bool × Bytes × Nat) :=
  let (line,place) := nextLine 0x0A turnFile place
  if line.isEmpty ∨ line = shutdownLine then .ok (line.isEmpty,line,place)
  else (stoi line).map (fun turn => (turn != (clientId : Int),line,place))

def poll (clientId : Nat) (turnFile : Bytes) (c : State) : State × List Event :=
  match waitForTurn clientId turnFile c.turnIfs with
  | .error _ => ({ c with terminated := true },[.threw])
  | .ok (isUp,line,place) => ({ c with
      client := { c.client with phase := if isUp then .waiting else .admitted }
      turnIfs := place },if line.isEmpty then [] else [.read line])

/-- A line of the turn file, as `setTurn` and `client-repl.sh` write it. -/
def text : Client.TurnLine → Bytes
  | .turn clientId => dumpInteger clientId
  | .shutdown => shutdownLine

def Event.ofLine : Client.Event → Event
  | .read line => .read (text line)
  | .entered => .entered

/-- `setTurn`. -/
def setTurn (clientId clientCount : Nat) : Bytes :=
  dumpInteger ((clientId + 1) % clientCount : Nat) ++ [0x0A]

/-- A step of one client: the client after it, what it appends to the turn file, and what it
leaves in the history. -/
def act (clientId clientCount : Nat) (turnFile : Bytes) (c : State) (a : Client.Action) :
    Option (State × Bytes × List Event) :=
  if c.terminated then none
  else match a, c.client.phase with
    | .poll, .waiting =>
      let polled := poll clientId turnFile c
      some (polled.1,[],polled.2)
    | .setTurn, .settingTurn =>
      some ({ c with client := { c.client with phase := .sleeping } },setTurn clientId clientCount,[])
    | .poll, _ | .setTurn, _ => none
    | a, _ => (Client.act clientId clientCount [] c.client a).map (fun p =>
        ({ c with client := p.1 },[],p.2.2.map Event.ofLine))

structure Session (m : Nat) where
  clients : Fin m → State
  turnFile : Bytes

def step (s : Session m) : Client.Move m → Option (Session m × List (Fin m × Event))
  | .act i a => (act i.val m s.turnFile (s.clients i) a).map (fun p =>
      ({ clients := Function.update s.clients i p.1
         turnFile := s.turnFile ++ p.2.1 },p.2.2.map (fun e => (i,e))))
  | .shutdown => some ({ s with turnFile := s.turnFile ++ shutdownLine ++ [0x0A] },[])

/-- Every client has opened its command file; the turn file holds the line 0. -/
def session (files : Fin m → List Char) : Machine (Session m) (Client.Move m) (Fin m × Event) where
  start := {
    clients := fun i => { client := { commandIfs := { unread := files i } } }
    turnFile := [0x30,0x0A] }
  step := step

end Algorep.Program.TurnFile
