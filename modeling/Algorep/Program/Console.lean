import Algorep.Kit.Tail
import Algorep.Program.Controlled

namespace Algorep.Program.Console
open Kit Json Reception Repl

/-! `server-repl.sh`, the file it appends to, and the REPL threads of the servers, which read it
each on its own. -/

/-- What bash's `echo` takes for options. -/
def isOption (line : Bytes) : Bool :=
  match line with
  | 0x2D::flags => !flags.isEmpty && flags.all (fun b => b == 0x6E || b == 0x65 || b == 0x45)
  | _ => false

/-- The lines that `echo "$line"` prints. With the option `n` the line does not end. -/
def echoed (line : Bytes) : List Bytes :=
  if isOption line then (if line.contains 0x6E then [] else [[]]) else [line]

def echo (line : Bytes) : Bytes := lined 0x0A (echoed line)

/-- A server's stream on the file is at its `position`. -/
structure Session (n : Nat) where
  isUp : Bool := true
  file : Bytes
  position : Fin n → Nat := fun _ => 0
  cluster : Controlled.Cluster n

/-- `enter` is a round of the loop in `server-repl.sh`, and `fetch` one of that in
`ReplManager::startReceiver`, with what its uninitialised variables hold. -/
inductive Move (n : Nat)
  | enter (line : Bytes)
  | fetch (i : Fin n) (wtime : Nat) (receivedMessage : MessageObject) (dstNodeId : Int)
  | cluster (l : Controlled.Move n)

inductive Event (n : Nat)
  | entered (line : Bytes)
  | obeyed (i : Fin n) (code : ReplCode)
  | threw (i : Fin n)
  | served (i : Fin n) (e : Server.Event n)
deriving DecidableEq

/-- `read` ends at the newline. -/
def enter (s : Session n) (line : Bytes) : Option (Session n × List (Event n)) :=
  if s.isUp = true ∧ 0x0A ∉ line then
    some ({ s with isUp := line != shutdownLine, file := s.file ++ echo line },[.entered line])
  else none

/-- `std::getline`, and `clear`. -/
def getTrailingLine (file : Bytes) (position : Nat) : Bytes × Nat := nextLine 0x0A file position

def replCodes : List ReplCode :=
  [.shutdown,.start,.speedLow,.speedMedium,.speedHigh,.crash,.recover]

/-- `Message::getCode`. -/
def getCode (receivedMessage : MessageObject) : Option ReplCode :=
  replCodes.find? (·.toInt == receivedMessage.code)

/-- The command that the thread has read, if it is one to its own node. -/
def commandTo (rank : Fin n) (output : Output) : Option ReplCode :=
  if output.messageReceived = true ∧ output.dstNodeId = rank then getCode output.receivedMessage
  else none

def obeys (i : Fin n) (command : Option ReplCode) : List (Event n) :=
  (command.map (.obeyed i)).toList

/-- An exception that leaves the function of a thread ends the server. -/
def terminate (cluster : Controlled.Cluster n) (i : Fin n) : Controlled.Cluster n :=
  let node := cluster.nodes i
  let node := { node with control := { node.control with terminated := true } }
  { cluster with nodes := Function.update cluster.nodes i node }

def fetch (s : Session n) (i : Fin n) (wtime : Nat) (receivedMessage : MessageObject)
    (dstNodeId : Int) : Option (Session n × List (Event n)) :=
  let control := (s.cluster.nodes i).control
  if control.terminated = false ∧ control.phase (.receiver .repl) = .receiving then
    let (line,position) := getTrailingLine s.file (s.position i)
    let s := { s with position := Function.update s.position i position }
    match fetchMessage i wtime line { receivedMessage, messageReceived := false, dstNodeId } with
    | .error _ => some ({ s with cluster := terminate s.cluster i },[.threw i])
    | .ok output =>
      let command := commandTo i output
      ((Controlled.process n).network.step s.cluster (.act i (.control (.fetch command)))).map
        (fun p => ({ s with cluster := p.1 },obeys i command ++ p.2.map (fun e => .served e.1 e.2)))
  else none

/-- The REPL threads read their commands in the file. -/
def ownMove : Controlled.Move n → Bool
  | .act _ (.control (.fetch _)) => false
  | _ => true

def step (s : Session n) : Move n → Option (Session n × List (Event n))
  | .enter line => enter s line
  | .fetch i wtime receivedMessage dstNodeId => fetch s i wtime receivedMessage dstNodeId
  | .cluster l =>
    if ownMove l then
      ((Controlled.process n).network.step s.cluster l).map (fun p =>
        ({ s with cluster := p.1 },p.2.map (fun e => .served e.1 e.2)))
    else none

/-- The file holds whole lines when the servers open it, none if it has just been cleared. -/
def session (old : List Bytes) : Machine (Session n) (Move n) (Event n) where
  start := { file := lined 0x0A old, cluster := (Controlled.process n).network.start }
  step := step

abbrev History (n : Nat) := List (Event n)

end Algorep.Program.Console
