import Algorep.Kit.Machine
import Algorep.Program.Json
import Mathlib.Logic.Function.Basic

namespace Algorep.Program.LogFile
open Kit
open Json (Bytes)

/-! `LogFileManager`, one step for each access to the file and to the mutex. -/

/-- The calls that write, with their arguments. -/
inductive Edit
  | append (entry : Bytes)
  | replace (contents : Bytes)
deriving DecidableEq, Repr

/-- Where a thread is. From `opening` to `closing` it has the mutex. The position of a
reading stream is the length of what it has read. -/
inductive Phase
  | idle
  | locking (edit : Edit)
  | opening (edit : Edit)
  | writing (edit : Edit)
  | closing
  | reading (contents : Bytes)
deriving DecidableEq, Repr

/-- `file` is `none` while there is no such file. -/
structure State (ι : Type) where
  file : Option Bytes
  mutex : Option ι
  threads : ι → Phase

def State.contents (s : State ι) : Bytes := s.file.getD []

inductive Move (ι : Type)
  | call (t : ι) (edit : Edit)
  | lock (t : ι)
  | openForWriting (t : ι)
  | write (t : ι)
  | unlock (t : ι)
  | openForReading (t : ι)
  | readSome (t : ι) (count : Nat)
deriving DecidableEq, Repr

/-- The order in which the writing calls take the mutex, and in which they write; and what
the reading ones return. -/
inductive Event (ι : Type)
  | took (edit : Edit)
  | wrote (edit : Edit)
  | read (t : ι) (contents : Bytes)
deriving DecidableEq, Repr

/-- What an `std::ofstream` does to the file when it is opened. -/
def openMode (edit : Edit) (contents : Bytes) : Bytes :=
  match edit with
  | .append _ => contents
  | .replace _ => []

/-- Its one write: at the end of the file, or at the beginning, over what is there. -/
def writeWithMode (edit : Edit) (contents : Bytes) : Bytes :=
  match edit with
  | .append entry => contents ++ (entry ++ [0x0A])
  | .replace str => str ++ contents.drop str.length

section
variable [DecidableEq ι]

def setThread (s : State ι) (t : ι) (phase : Phase) : State ι :=
  { s with threads := Function.update s.threads t phase }

/-- A thread may begin any call whenever it is in none. A read that finds no file leaves the
caller's string, which is empty, as it is. -/
def step (s : State ι) : Move ι → Option (State ι × List (Event ι))
  | .call t edit => if s.threads t = .idle then some (setThread s t (.locking edit),[]) else none
  | .lock t =>
    match s.threads t, s.mutex with
    | .locking edit, none => some (setThread { s with mutex := some t } t (.opening edit),[.took edit])
    | _, _ => none
  | .openForWriting t =>
    match s.threads t with
    | .opening edit =>
      some (setThread { s with file := some (openMode edit s.contents) } t (.writing edit),[])
    | _ => none
  | .write t =>
    match s.threads t with
    | .writing edit =>
      some (setThread { s with file := some (writeWithMode edit s.contents) } t .closing,
        [.wrote edit])
    | _ => none
  | .unlock t =>
    if s.threads t = .closing then some (setThread { s with mutex := none } t .idle,[]) else none
  | .openForReading t =>
    if s.threads t = .idle then
      if s.file.isSome then some (setThread s t (.reading []),[]) else some (s,[.read t []])
    else none
  | .readSome t count =>
    match s.threads t with
    | .reading contents =>
      if 0 < count then
        let chunk := (s.contents.drop contents.length).take count
        if chunk = [] then some (setThread s t .idle,[.read t contents])
        else some (setThread s t (.reading (contents ++ chunk)),[])
      else none
    | _ => none

end

def logFile (ι : Type) [DecidableEq ι] (initial : Option Bytes) :
    Machine (State ι) (Move ι) (Event ι) where
  start := { file := initial, mutex := none, threads := fun _ => .idle }
  step := step

end Algorep.Program.LogFile
