import Algorep.Program.Json
import Algorep.Program.Messenger

namespace Algorep.Program.Wire
open Json

/-! A message between `Messenger::send` and `receive`. The tag travels beside the buffer. -/

def maxMessageSize : Nat := 1000

structure Message where
  tag : MessageTag
  code : Int32
  id : Int32
  data : Utf8

def codeKey : Utf8 := ⟨ascii ['c','o','d','e'],by decide⟩

def idKey : Utf8 := ⟨ascii ['i','d'],by decide⟩

def dataKey : Utf8 := ⟨ascii ['d','a','t','a'],by decide⟩

/-- The members in the order of their keys, as the `std::map` has them. -/
def fields (message : Message) : List (Utf8 × Scalar) :=
  [(codeKey,.integer message.code.toInt),(dataKey,.string message.data),
    (idKey,.integer message.id.toInt)]

def serializeMessage (message : Message) : Bytes := dumpObject (fields message)

/-- The bytes that `MPI_Send` reads from `c_str()`. `heap` is what lies behind the string. -/
def sendBuffer (text heap : Bytes) : Bytes := (text ++ 0::heap).take maxMessageSize

/-- What `receive` makes of a buffer. -/
inductive Received
  | invalid
  | throws
  | message (tag : MessageTag) (code id : Int32) (data : Bytes)
deriving DecidableEq

/-- `at`, which throws where this is `none`. -/
def atKey (key : Utf8) : Value → Option Value
  | .object members => members.lookup key.bytes
  | _ => none

/-- `get_to` for an `int`. -/
def getInt (floats : Floats) : Value → Option Int32
  | .integer i => some (Int32.ofInt i)
  | .boolean value => some (if value then 1 else 0)
  | .float literal => some (floats.toInt literal)
  | _ => none

/-- `get_to` for a string. -/
def getString : Value → Option Bytes
  | .string s => some s
  | _ => none

def deserializeMessage (floats : Floats) (text : Bytes) (tag : MessageTag) : Received :=
  match parse floats text with
  | none => .invalid
  | some messageJson =>
    match (atKey codeKey messageJson).bind (getInt floats),
        (atKey idKey messageJson).bind (getInt floats),
        (atKey dataKey messageJson).bind getString with
    | some code, some id, some data => .message tag code id data
    | _, _, _ => .throws

/-- `std::string(messageChar)` reads on behind the buffer as long as it finds no NUL. `stack`
is what lies there. -/
def receive (floats : Floats) (buffer stack : Bytes) (tag : MessageTag) : Received :=
  deserializeMessage floats ((buffer ++ stack).takeWhile (· != 0)) tag

def stateKey : Utf8 := ⟨ascii ['s','t','a','t','e'],by decide⟩

/-- The STATE message of `handleNodeRecovery`. -/
def stateMessage (id : Int32) (logContents : Utf8) : Message where
  tag := .failureDetection
  code := 2
  id := id
  data := dumpUtf8 [(stateKey,.string logContents)]

end Algorep.Program.Wire
