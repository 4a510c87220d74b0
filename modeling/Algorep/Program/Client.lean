import Algorep.Kit.Machine
import Mathlib.Logic.Function.Basic

namespace Algorep.Program
open Kit

inductive ClientCode
  | shutdown
  | port
  | disconnect
  | replicate
  | success
deriving DecidableEq, Repr

namespace Client

/-! The client program: `replicateCommands`, the turn file, and `replicate`. -/

/-- One line of the turn file. -/
inductive TurnLine
  | turn (clientId : Nat)
  | shutdown
deriving DecidableEq, Repr

/-- A `std::ifstream`. It stops being good once it has met the end of the file. -/
structure InputFile where
  unread : List Char
  good : Bool := true
deriving DecidableEq, Repr

/-- `std::getline` into a line that already has a value. A stream that is not good
leaves the line alone. -/
def getline (line : List Char) (file : InputFile) : List Char × InputFile :=
  if file.good then
    (file.unread.takeWhile (· != '\n'),{
      unread := (file.unread.dropWhile (· != '\n')).tail
      good := file.unread.contains '\n' })
  else (line,file)

/-- Where `replicateCommands` is. From `connecting` to `hangingUp` it is inside
`replicate`. -/
inductive Phase
  | reading
  | waiting
  | admitted
  | connecting
  | sending
  | awaiting
  | hangingUp (replicated : Bool)
  | settingTurn
  | sleeping
  | returned
deriving DecidableEq, Repr

/-- `turnCursor` counts the lines the client's own stream on the turn file has given. -/
structure State where
  line : List Char := []
  commandIfs : InputFile
  turnCursor : Nat := 0
  phase : Phase := .reading
deriving DecidableEq, Repr

/-- The code of a response that never came is whatever the uninitialised message
holds, so `giveUp` comes with it. -/
inductive Action
  | readCommand
  | poll
  | returnFromWait
  | connect
  | send
  | receive (code : ClientCode)
  | giveUp (code : ClientCode)
  | disconnect
  | setTurn
  | wake
deriving DecidableEq, Repr

inductive Event
  | read (line : TurnLine)
  | entered
deriving DecidableEq, Repr

/-- The condition of the loop in `waitForTurn`, after it has read a line. -/
def isUp (clientId : Nat) (line : TurnLine) : Bool :=
  line != .shutdown && line != .turn clientId

def readCommand (client : State) : State :=
  let next := getline client.line client.commandIfs
  { client with
    line := next.1
    commandIfs := next.2
    phase := if next.1.isEmpty then .returned else .waiting }

/-- One turn of the loop in `waitForTurn`. At the end of the file it reads an empty
line and goes on. -/
def poll (clientId : Nat) (turnFile : List TurnLine) (client : State) : State × List Event :=
  match turnFile[client.turnCursor]? with
  | none => (client,[])
  | some line => ({ client with
      turnCursor := client.turnCursor + 1
      phase := if isUp clientId line then .waiting else .admitted },[.read line])

/-- The line `setTurn` appends. -/
def nextTurn (clientId clientCount : Nat) : TurnLine :=
  .turn ((clientId + 1) % clientCount)

/-- A step of one client: the client after it, the lines it appends to the turn
file, and what it leaves in the history. -/
def act (clientId clientCount : Nat) (turnFile : List TurnLine) (client : State)
    (a : Action) : Option (State × List TurnLine × List Event) :=
  match a, client.phase with
  | .readCommand, .reading => some (readCommand client,[],[])
  | .poll, .waiting =>
    let polled := poll clientId turnFile client
    some (polled.1,[],polled.2)
  | .returnFromWait, .admitted => some ({ client with phase := .connecting },[],[.entered])
  | .connect, .connecting => some ({ client with phase := .sending },[],[])
  | .send, .sending => some ({ client with phase := .awaiting },[],[])
  | .receive code, .awaiting
  | .giveUp code, .awaiting =>
    some ({ client with phase := .hangingUp (code == .success) },[],[])
  | .disconnect, .hangingUp replicated =>
    some ({ client with phase := if replicated then .settingTurn else .connecting },[],[])
  | .setTurn, .settingTurn =>
    some ({ client with phase := .sleeping },[nextTurn clientId clientCount],[])
  | .wake, .sleeping => some ({ client with phase := .reading },[],[])
  | _, _ => none

/-! The clients of one command session. -/

structure Session (m : Nat) where
  clients : Fin m → State
  turnFile : List TurnLine

/-- `shutdown` is the last command of the script `client-repl.sh`. -/
inductive Move (m : Nat)
  | act (i : Fin m) (a : Action)
  | shutdown
deriving DecidableEq, Repr

def step (s : Session m) : Move m → Option (Session m × List (Fin m × Event))
  | .act i a => (act i.val m s.turnFile (s.clients i) a).map (fun p =>
      ({ clients := Function.update s.clients i p.1
         turnFile := s.turnFile ++ p.2.1 },p.2.2.map (fun e => (i,e))))
  | .shutdown => some ({ s with turnFile := s.turnFile ++ [.shutdown] },[])

/-- Every client has opened its command file; the turn file holds the line 0. -/
def session (files : Fin m → List Char) : Machine (Session m) (Move m) (Fin m × Event) where
  start := {
    clients := fun i => { commandIfs := { unread := files i } }
    turnFile := [.turn 0] }
  step := step

def outcome (files : Fin m → List Char)
    (test : List (Fin m × Event) → Session m → Move m → Bool) (moves : List (Move m))
    (look : Session m × List (Fin m × Event) → β) : Option β :=
  ((session files).follow test moves (session files).start []).map look

/-- A client with the turn sends its command once, and passes the turn on. -/
def Move.turn (i : Fin m) : List (Move m) :=
  [.returnFromWait,.connect,.send,.receive .success,.disconnect,.setTurn].map (.act i)

abbrev History (m : Nat) := List (Fin m × Event)

abbrev Guard (m : Nat) := History m → Session m → Move m → Prop

end Client

end Algorep.Program
