import Algorep.Program.Reception

namespace Algorep.Program.Repl
open Json Reception

/-! `repl-manager.cc`, the lines of the shared repl file. -/

inductive ReplCode
  | shutdown
  | start
  | speedLow
  | speedMedium
  | speedHigh
  | crash
  | recover
deriving DecidableEq, Repr

def ReplCode.toInt : ReplCode → Int32
  | .shutdown => 0
  | .start => 1
  | .speedLow => 2
  | .speedMedium => 3
  | .speedHigh => 4
  | .crash => 5
  | .recover => 6

def shutdownLine : Bytes := ascii ['s','h','u','t','d','o','w','n']

def startLine : Bytes := ascii ['s','t','a','r','t']

def replParseMap : List (Bytes × ReplCode) :=
  [(shutdownLine,.shutdown),
   (startLine,.start),
   (ascii ['s','p','e','e','d','-','l','o','w'],.speedLow),
   (ascii ['s','p','e','e','d','-','m','e','d','i','u','m'],.speedMedium),
   (ascii ['s','p','e','e','d','-','h','i','g','h'],.speedHigh),
   (ascii ['c','r','a','s','h'],.crash),
   (ascii ['r','e','c','o','v','e','r'],.recover)]

/-- `replParseMap.find`. -/
def find (codeStr : Bytes) : Option ReplCode := replParseMap.lookup codeStr

/-! `std::stoi` in base ten. -/

def isSpace (b : Nat) : Bool := b == 0x20 || (decide (0x09 ≤ b) && decide (b ≤ 0x0D))

def isSign (b : Nat) : Bool := b == 0x2D || b == 0x2B

/-- A number with its sign, if it has one. -/
def signedValue (numeral : Bytes) : Int :=
  match numeral with
  | 0x2D::digits => -naturalOf digits
  | 0x2B::digits => naturalOf digits
  | digits => naturalOf digits

inductive Exception
  | invalidArgument
  | outOfRange
deriving DecidableEq, Repr

def fitsInt (value : Int) : Bool := decide (-2 ^ 31 ≤ value) && decide (value < 2 ^ 31)

/-- What `strtol` reads as a number: a sign, if there is one, and the digits from there on. -/
def numeralAt (text : Bytes) : Bytes × Bytes :=
  match text with
  | b::bs => if isSign b then ([b],bs.takeWhile isDigit) else ([],text.takeWhile isDigit)
  | [] => ([],[])

def stoi (str : Bytes) : Except Exception Int :=
  let (sign,digits) := numeralAt (str.dropWhile isSpace)
  if digits = [] then .error .invalidArgument
  else
    let value := signedValue (sign ++ digits)
    if fitsInt value then .ok value else .error .outOfRange

/-! `parseLine`. -/

/-- `Messenger::setMessage` without data. -/
def setMessage (rank : Fin n) (wtime : Nat) (code : ReplCode) : MessageObject :=
  { tag := tagInt .repl, code := code.toInt, id := .ofInt (generateUniqueId rank wtime),
    data := some [], isValid := true }

/-- What `parseLine` has references to. -/
structure Output where
  receivedMessage : MessageObject
  messageReceived : Bool
  dstNodeId : Int
deriving DecidableEq

/-- The text before the first comma and the one after it. -/
def splitAtComma (line : Bytes) : Option (Bytes × Bytes) :=
  match line.dropWhile (· != 0x2C) with
  | [] => none
  | _::after => some (line.takeWhile (· != 0x2C),after)

/-- What follows once `dstNodeId` and `codeStr` are known. -/
def parseCode (rank : Fin n) (wtime : Nat) (codeStr : Bytes) (output : Output) : Output :=
  if 0 ≤ output.dstNodeId ∧ output.dstNodeId < n then
    match find codeStr with
    | some code =>
      { output with receivedMessage := setMessage rank wtime code, messageReceived := true }
    | none => output
  else output

def parseLine (rank : Fin n) (wtime : Nat) (line : Bytes) (output : Output) :
    Except Exception Output :=
  match splitAtComma line with
  | some (dstNodeIdStr,codeStr) => do
    let dstNodeId ← stoi dstNodeIdStr
    return parseCode rank wtime codeStr { output with dstNodeId := dstNodeId }
  | none =>
    if line = shutdownLine ∨ line = startLine then
      .ok (parseCode rank wtime line { output with dstNodeId := rank })
    else .ok output

/-- `fetchMessageFromFile` on the line that `getTrailingLine` has read. -/
def fetchMessage (rank : Fin n) (wtime : Nat) (line : Bytes) (output : Output) :
    Except Exception Output :=
  if line.isEmpty then .ok output else parseLine rank wtime line output

end Algorep.Program.Repl
