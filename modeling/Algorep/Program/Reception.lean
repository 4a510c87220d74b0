import Algorep.Program.Client
import Algorep.Program.Wire

namespace Algorep.Program.Reception
open Json

/-! The receiving side of the messenger, over the buffers that arrive, and the loop of
`replicate` that waits for a response. -/

def tagInt : MessageTag → Int32
  | .leaderElection => 0
  | .consensus => 1
  | .repl => 2
  | .failureDetection => 3
  | .client => 4

def codeInt : ClientCode → Int32
  | .shutdown => 0
  | .port => 1
  | .disconnect => 2
  | .replicate => 3
  | .success => 4

/-- The object behind a `Message&`. The numbers in a default-constructed one are
indeterminate. -/
structure MessageObject where
  tag : Int32
  code : Int32
  id : Int32
  data : Option Bytes := none
  isValid : Bool := false
deriving DecidableEq

/-- A buffer that `MPI_Recv` hands over: what lies behind it in memory, and the liveness table
at the time it is tested. -/
structure Arrival (n : Nat) where
  srcNodeId : Fin n
  buffer : Bytes
  stack : Bytes
  processIsAlive : Fin n → Bool

/-- What becomes of a call that receives. `rest` has not been taken; a call that `waits` is
inside `MPI_Recv`. -/
inductive Result (n : Nat)
  | returned (srcNodeId : Fin n) (message : MessageObject) (rest : List (Arrival n))
  | throws
  | waits

section
variable (floats : Floats) (rank : Fin n) (tag : MessageTag) (onWorld : Bool)

/-- The assignment to `message` in `deserializeMessage`. -/
def overwrite (received : Wire.Received) (message : MessageObject) : MessageObject :=
  match received with
  | .message tag code id data =>
    { tag := tagInt tag, code := code, id := id, data := some data, isValid := true }
  | _ => message

def shouldDrop (a : Arrival n) : Bool :=
  messageShouldDrop a.processIsAlive rank a.srcNodeId onWorld tag

/-- `Messenger::receiveWithTagBlock`. -/
def receiveWithTagBlock (message : MessageObject) : List (Arrival n) → Result n
  | [] => .waits
  | a::rest =>
    let received := Wire.receive floats a.buffer a.stack tag
    if received = .throws then .throws
    else
      let isValid := received != .invalid
      let message := overwrite received message
      let messageReceived := shouldDrop rank tag onWorld a == false || isValid == false
      if messageReceived then .returned a.srcNodeId message rest
      else receiveWithTagBlock message rest

/-- What `Messenger::receiveWithTag` finds: nothing pending that it would keep, or what
`receiveWithTagBlock` makes of it. -/
def receiveWithTag (message : MessageObject) (pending : List (Arrival n)) : Option (Result n) :=
  match pending with
  | [] => none
  | a::_ =>
    if shouldDrop rank tag onWorld a then none
    else some (receiveWithTagBlock floats rank tag onWorld message pending)

end

/-! `replicate`. -/

/-- `RESPONSE_WAIT_DURATION`, in seconds. -/
def responseWaitDuration : Int := 40

/-- One turn of the inner loop: what has arrived on the connection since the last turn, and
the seconds that have passed at its end. -/
structure Poll (n : Nat) where
  arrived : List (Arrival n)
  elapsed : Int

/-- One turn of the outer loop: what its `responseMessage` starts out with, and the turns of
its inner loop. -/
structure Attempt (n : Nat) where
  tag : Int32
  code : Int32
  id : Int32
  polls : List (Poll n)

def Attempt.responseMessage (attempt : Attempt n) : MessageObject :=
  { tag := attempt.tag, code := attempt.code, id := attempt.id }

/-- What has become of the inner loop. -/
inductive Response
  | finished (responseMessage : MessageObject)
  | throws
  | waits

section
variable (floats : Floats) (rank : Fin n)

/-- The inner loop. The connection is the client's own, not the world. -/
def awaitResponse (message : MessageObject) (pending : List (Arrival n)) :
    List (Poll n) → Response
  | [] => .waits
  | poll::polls =>
    match receiveWithTag floats rank .client false message (pending ++ poll.arrived) with
    | some (.returned _ message _) => .finished message
    | some .throws => .throws
    | some .waits => .waits
    | none =>
      if poll.elapsed < responseWaitDuration then
        awaitResponse message (pending ++ poll.arrived) polls
      else .finished message

/-- What has become of a `replicate`; `last` is the attempt in which it left its loop. -/
inductive Replication (n : Nat)
  | returned (last : Attempt n)
  | throws
  | waits

def replicate : List (Attempt n) → Replication n
  | [] => .waits
  | attempt::attempts =>
    match awaitResponse floats rank attempt.responseMessage [] attempt.polls with
    | .finished responseMessage =>
      let replicated := responseMessage.code == codeInt .success
      if replicated then .returned attempt else replicate attempts
    | .throws => .throws
    | .waits => .waits

end

end Algorep.Program.Reception
