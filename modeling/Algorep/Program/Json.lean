import Mathlib.Algebra.Group.Int.Defs
import Mathlib.Data.List.Basic
import Mathlib.Tactic.SplitIfs

namespace Algorep.Program.Json

/-! `nlohmann::json` as far as messages need it: the compact dump of flat objects, and the
parser. A text is a list of bytes, each a number. -/

abbrev Bytes := List Nat

def ascii (characters : List Char) : Bytes := characters.map Char.toNat

/-- The ranges of the bytes that follow a lead byte, as in the switch of `scan_string`. -/
def continuation (b : Nat) : Option (List (Nat × Nat)) :=
  if b ≤ 0x7F then some []
  else if 0xC2 ≤ b ∧ b ≤ 0xDF then some [(0x80,0xBF)]
  else if b = 0xE0 then some [(0xA0,0xBF),(0x80,0xBF)]
  else if b = 0xED then some [(0x80,0x9F),(0x80,0xBF)]
  else if 0xE1 ≤ b ∧ b ≤ 0xEF then some [(0x80,0xBF),(0x80,0xBF)]
  else if b = 0xF0 then some [(0x90,0xBF),(0x80,0xBF),(0x80,0xBF)]
  else if 0xF1 ≤ b ∧ b ≤ 0xF3 then some [(0x80,0xBF),(0x80,0xBF),(0x80,0xBF)]
  else if b = 0xF4 then some [(0x80,0x8F),(0x80,0xBF),(0x80,0xBF)]
  else none

/-- What follows a sequence that still needs bytes in the pending ranges is UTF-8. -/
def wellFormed : List (Nat × Nat) → Bytes → Bool
  | [], [] => true
  | _::_, [] => false
  | [], b::bs =>
    match continuation b with
    | some pending => wellFormed pending bs
    | none => false
  | (low,high)::pending, b::bs => decide (low ≤ b) && decide (b ≤ high) && wellFormed pending bs

/-- A string that `dump` does not throw on. -/
structure Utf8 where
  bytes : Bytes
  valid : wellFormed [] bytes = true

/-! `serializer::dump`. -/

def hexDigit (digit : Nat) : Nat := if digit < 10 then 0x30 + digit else 0x57 + digit

/-- One byte of `dump_escaped`. The bytes of longer sequences are copied. -/
def escape (b : Nat) : Bytes :=
  match b with
  | 0x08 => ascii ['\\','b']
  | 0x09 => ascii ['\\','t']
  | 0x0A => ascii ['\\','n']
  | 0x0C => ascii ['\\','f']
  | 0x0D => ascii ['\\','r']
  | 0x22 => [0x5C,0x22]
  | 0x5C => [0x5C,0x5C]
  | b =>
    if b ≤ 0x1F then ascii ['\\','u','0','0'] ++ [hexDigit (b / 16),hexDigit (b % 16)] else [b]

def dumpString (s : Bytes) : Bytes := 0x22::s.flatMap escape ++ [0x22]

def dumpInteger (i : Int) : Bytes :=
  (if i < 0 then [0x2D] else []) ++ (Nat.toDigits 10 i.natAbs).map Char.toNat

inductive Scalar
  | integer (i : Int)
  | string (s : Utf8)

def Scalar.dump : Scalar → Bytes
  | .integer i => dumpInteger i
  | .string s => dumpString s.bytes

def dumpMember (member : Utf8 × Scalar) : Bytes :=
  dumpString member.1.bytes ++ 0x3A::member.2.dump

def dumpMembers : List (Utf8 × Scalar) → Bytes
  | [] => [0x7D]
  | [member] => dumpMember member ++ [0x7D]
  | member::members => dumpMember member ++ 0x2C::dumpMembers members

/-- `dump` of an object, whose members come in the order of their keys. -/
def dumpObject (members : List (Utf8 × Scalar)) : Bytes := 0x7B::dumpMembers members

/-! A dump is UTF-8 again. -/

theorem wellFormed_append (h : wellFormed pending a = true) (h' : wellFormed [] b = true) :
    wellFormed pending (a ++ b) = true := by
  induction a generalizing pending with
  | nil =>
    cases pending with
    | nil => exact h'
    | cons r pending => simp [wellFormed] at h
  | cons x a ih =>
    cases pending with
    | nil =>
      simp only [List.cons_append, wellFormed] at h ⊢
      split at h
      · exact ih h
      · contradiction
    | cons r pending =>
      obtain ⟨low,high⟩ := r
      simp only [List.cons_append, wellFormed, Bool.and_eq_true] at h ⊢
      exact ⟨h.1,ih h.2⟩

theorem wellFormed_ascii (h : ∀ b ∈ a, b ≤ 0x7F) : wellFormed [] a = true := by
  induction a with
  | nil => rfl
  | cons x a ih =>
    have hx : continuation x = some [] := by simp [continuation, h x List.mem_cons_self]
    simp only [wellFormed, hx]
    exact ih (fun b hb => h b (List.mem_cons_of_mem _ hb))

theorem hexDigit_ascii (h : d < 16) : hexDigit d ≤ 0x7F := by
  unfold hexDigit
  split <;> omega

theorem escape_ascii (hb : b ≤ 0x7F) (hc : c ∈ escape b) : c ≤ 0x7F := by
  unfold escape at hc
  split at hc
  case h_8 =>
    split at hc
    · simp only [ascii, List.map_cons, List.map_nil, List.cons_append, List.nil_append,
        List.mem_cons, List.not_mem_nil, or_false] at hc
      rcases hc with rfl | rfl | rfl | rfl | rfl | rfl
      · decide
      · decide
      · decide
      · decide
      · exact hexDigit_ascii (by omega)
      · exact hexDigit_ascii (by omega)
    · rwa [List.mem_singleton.mp hc]
  all_goals
    simp only [ascii, List.map_cons, List.map_nil, List.mem_cons, List.not_mem_nil, or_false] at hc
    rcases hc with rfl | rfl <;> decide

theorem escape_high (h : 0x80 ≤ b) : escape b = [b] := by
  unfold escape
  split
  all_goals first | omega | skip
  rw [if_neg (by omega)]

/-- The bytes that continue a sequence are not those of ASCII. -/
theorem continuation_high (h : continuation b = some pending) : ∀ r ∈ pending, 0x80 ≤ r.1 := by
  unfold continuation at h
  intro r hr
  split_ifs at h <;> cases h <;> simp at hr
  all_goals rcases hr with rfl | rfl | rfl <;> decide

theorem wellFormed_escaped (hp : ∀ r ∈ pending, 0x80 ≤ r.1) (h : wellFormed pending s = true) :
    wellFormed pending (s.flatMap escape) = true := by
  induction s generalizing pending with
  | nil => exact h
  | cons b s ih =>
    rw [List.flatMap_cons]
    cases pending with
    | nil =>
      unfold wellFormed at h
      split at h
      · rename_i pending hb
        by_cases hlow : b ≤ 0x7F
        · have hnone : pending = [] := by simpa [continuation, hlow] using hb.symm
          subst hnone
          exact wellFormed_append (wellFormed_ascii (fun c hc => escape_ascii hlow hc))
            (ih (by simp) h)
        · rw [escape_high (by omega), List.singleton_append, wellFormed, hb]
          exact ih (continuation_high hb) h
      · contradiction
    | cons r pending =>
      obtain ⟨low,high⟩ := r
      simp only [wellFormed, Bool.and_eq_true, decide_eq_true_eq] at h
      obtain ⟨hrange,h⟩ := h
      have hb : 0x80 ≤ b := Nat.le_trans (hp _ List.mem_cons_self) hrange.1
      rw [escape_high hb, List.singleton_append]
      simp only [wellFormed, Bool.and_eq_true, decide_eq_true_eq]
      exact ⟨hrange,ih (fun r hr => hp r (List.mem_cons_of_mem _ hr)) h⟩

theorem dumpString_wellFormed (s : Utf8) : wellFormed [] (dumpString s.bytes) = true := by
  unfold dumpString
  have hquote : wellFormed [] [0x22] = true := by decide
  exact wellFormed_append (wellFormed_append hquote (wellFormed_escaped (by simp) s.valid)) hquote

/-- The digits of a number, as characters. -/
theorem toDigits_range (hc : c ∈ Nat.toDigits 10 n) : 0x30 ≤ c.toNat ∧ c.toNat ≤ 0x39 := by
  have hdigit := Nat.isDigit_of_mem_toDigits (by omega) (Nat.le_refl 10) hc
  simp only [Char.isDigit, ge_iff_le, Bool.and_eq_true, decide_eq_true_eq,
    UInt32.le_iff_toNat_le] at hdigit
  exact hdigit

theorem dumpInteger_wellFormed (i : Int) : wellFormed [] (dumpInteger i) = true := by
  apply wellFormed_ascii
  intro b hb
  rcases List.mem_append.mp hb with hb | hb
  · split at hb
    · rw [List.mem_singleton.mp hb]
      decide
    · contradiction
  · obtain ⟨c,hc,rfl⟩ := List.mem_map.mp hb
    have hrange := toDigits_range hc
    omega

theorem dumpMember_wellFormed (m : Utf8 × Scalar) : wellFormed [] (dumpMember m) = true := by
  have hcolon : wellFormed [] [0x3A] = true := by decide
  refine wellFormed_append (dumpString_wellFormed m.1) (wellFormed_append hcolon ?_)
  cases m.2 with
  | integer i => exact dumpInteger_wellFormed i
  | string s => exact dumpString_wellFormed s

theorem dumpMembers_wellFormed (members : List (Utf8 × Scalar)) :
    wellFormed [] (dumpMembers members) = true := by
  have hcomma : wellFormed [] [0x2C] = true := by decide
  have hbrace : wellFormed [] [0x7D] = true := by decide
  induction members with
  | nil => exact hbrace
  | cons m ms ih =>
    cases ms with
    | nil => exact wellFormed_append (dumpMember_wellFormed m) hbrace
    | cons m' ms => exact wellFormed_append (dumpMember_wellFormed m) (wellFormed_append hcomma ih)

/-- The text of an object, as a string that can be dumped again. -/
def dumpUtf8 (members : List (Utf8 × Scalar)) : Utf8 where
  bytes := dumpObject members
  valid := by
    have hbrace : wellFormed [] [0x7B] = true := by decide
    exact wellFormed_append hbrace (dumpMembers_wellFormed members)

/-! The values that `parse` makes. A float keeps its literal. -/

inductive Value
  | null
  | boolean (value : Bool)
  | integer (value : Int)
  | float (literal : Bytes)
  | string (value : Bytes)
  | array (items : List Value)
  | object (members : List (Bytes × Value))

/-- `operator[]` of the `std::map` behind an object, and the assignment to what it finds. -/
def assign (key : Bytes) (value : α) : List (Bytes × α) → List (Bytes × α)
  | [] => [(key,value)]
  | (key',value')::members =>
    if key < key' then (key,value)::(key',value')::members
    else if key = key' then (key,value)::members
    else (key',value')::assign key value members

/-- What `strtod` makes of a literal, and the conversion of the double to an `int`. -/
structure Floats where
  isFinite : Bytes → Bool
  toInt : Bytes → Int32

/-! The lexer. -/

/-- The labels of `scan_number`. -/
inductive NumberScan
  | minus
  | zero
  | any1
  | decimal1
  | decimal2
  | exponent
  | sign
  | any2
deriving DecidableEq, Repr

def isDigit (b : Nat) : Bool := decide (0x30 ≤ b) && decide (b ≤ 0x39)

namespace NumberScan

def point (b : Nat) : Option NumberScan := if b = 0x2E then some .decimal1 else none

def power (b : Nat) : Option NumberScan := if b = 0x65 ∨ b = 0x45 then some .exponent else none

/-- The byte that opens a number. -/
def first (b : Nat) : Option NumberScan :=
  if b = 0x2D then some .minus
  else if b = 0x30 then some .zero
  else if isDigit b then some .any1 else none

/-- The label a further byte of the number leads to. -/
def next : NumberScan → Nat → Option NumberScan
  | .minus, b => if b = 0x30 then some .zero else if isDigit b then some .any1 else none
  | .zero, b => (point b).or (power b)
  | .any1, b => if isDigit b then some .any1 else (point b).or (power b)
  | .decimal1, b => if isDigit b then some .decimal2 else none
  | .decimal2, b => if isDigit b then some .decimal2 else power b
  | .exponent, b =>
    if b = 0x2B ∨ b = 0x2D then some .sign else if isDigit b then some .any2 else none
  | .sign, b => if isDigit b then some .any2 else none
  | .any2, b => if isDigit b then some .any2 else none

/-- The labels from which another byte leads to `scan_number_done`. -/
def done : NumberScan → Bool
  | .zero | .any1 | .decimal2 | .any2 => true
  | _ => false

def isInteger : NumberScan → Bool
  | .zero | .any1 => true
  | _ => false

end NumberScan

def naturalOf (digits : Bytes) : Nat := digits.foldl (fun value b => 10 * value + (b - 0x30)) 0

def integerOf : Bytes → Int
  | 0x2D::digits => -naturalOf digits
  | digits => naturalOf digits

/-- `scan_number_done`, and the parser's test for a number overflow. -/
def numberValue (floats : Floats) (scan : NumberScan) (literal : Bytes) : Option Value :=
  if scan.isInteger ∧ -2 ^ 63 ≤ integerOf literal ∧ integerOf literal < 2 ^ 64 then
    some (.integer (integerOf literal))
  else if floats.isFinite literal then some (.float literal) else none

/-- Where `scan_string` is. `high` is a high surrogate that has been read. -/
inductive StringScan
  | bytes (pending : List (Nat × Nat))
  | escape
  | hex (high : Option Nat) (missing value : Nat)
  | lowBackslash (high : Nat)
  | lowU (high : Nat)
deriving DecidableEq, Repr

def hexValue (b : Nat) : Option Nat :=
  if isDigit b then some (b - 0x30)
  else if 0x41 ≤ b ∧ b ≤ 0x46 then some (b - 0x37)
  else if 0x61 ≤ b ∧ b ≤ 0x66 then some (b - 0x57) else none

/-- The UTF-8 bytes of a code point. -/
def encode (codepoint : Nat) : Bytes :=
  if codepoint < 0x80 then [codepoint]
  else if codepoint ≤ 0x7FF then [0xC0 + codepoint / 0x40,0x80 + codepoint % 0x40]
  else if codepoint ≤ 0xFFFF then
    [0xE0 + codepoint / 0x1000,0x80 + codepoint / 0x40 % 0x40,0x80 + codepoint % 0x40]
  else
    [0xF0 + codepoint / 0x40000,0x80 + codepoint / 0x1000 % 0x40,0x80 + codepoint / 0x40 % 0x40,
      0x80 + codepoint % 0x40]

def unescape (b : Nat) : Option Nat :=
  match b with
  | 0x22 => some 0x22
  | 0x5C => some 0x5C
  | 0x2F => some 0x2F
  | 0x62 => some 0x08
  | 0x66 => some 0x0C
  | 0x6E => some 0x0A
  | 0x72 => some 0x0D
  | 0x74 => some 0x09
  | _ => none

/-- All four digits of a `\u` escape have been read. -/
def escaped (high : Option Nat) (codepoint : Nat) : Option (StringScan × Bytes) :=
  match high with
  | none =>
    if 0xD800 ≤ codepoint ∧ codepoint ≤ 0xDBFF then some (.lowBackslash codepoint,[])
    else if 0xDC00 ≤ codepoint ∧ codepoint ≤ 0xDFFF then none
    else some (.bytes [],encode codepoint)
  | some high =>
    if 0xDC00 ≤ codepoint ∧ codepoint ≤ 0xDFFF then
      some (.bytes [],encode (high * 0x400 + codepoint - 0x35FDC00))
    else none

/-- A byte of a string other than its closing quote: where it leads, and what it adds. -/
def StringScan.next : StringScan → Nat → Option (StringScan × Bytes)
  | .bytes [], b =>
    if b = 0x5C then some (.escape,[])
    else if b ≤ 0x1F then none
    else (continuation b).map (fun pending => (.bytes pending,[b]))
  | .bytes ((low,high)::pending), b =>
    if low ≤ b ∧ b ≤ high then some (.bytes pending,[b]) else none
  | .escape, b =>
    if b = 0x75 then some (.hex none 4 0,[]) else (unescape b).map (fun c => (.bytes [],[c]))
  | .hex high missing value, b =>
    (hexValue b).bind (fun digit =>
      if missing = 1 then escaped high (16 * value + digit)
      else some (.hex high (missing - 1) (16 * value + digit),[]))
  | .lowBackslash high, b => if b = 0x5C then some (.lowU high,[]) else none
  | .lowU high, b => if b = 0x75 then some (.hex (some high) 4 0,[]) else none

/-! The parser, one byte at a time: what the lexer is in and what the loop of
`sax_parse_internal` waits for, over the stack of open arrays and objects. -/

inductive Frame
  | array (items : List Value)
  | object (members : List (Bytes × Value)) (key : Bytes)

/-- `closable` says that the container has just been opened and may be closed. -/
inductive Mode
  | value (closable : Bool)
  | key (closable : Bool)
  | colon
  | after
  | done (value : Value)
  | string (isKey : Bool) (scan : StringScan) (text : Bytes)
  | number (scan : NumberScan) (text : Bytes)
  | literal (rest : Bytes) (value : Value)

structure Parser where
  mode : Mode
  stack : List Frame

/-- `skip_whitespace` skips these. -/
def isBlank (b : Nat) : Bool := b == 0x20 || b == 0x09 || b == 0x0A || b == 0x0D

/-- `handle_value`. -/
def deliver (value : Value) : List Frame → Parser
  | [] => ⟨.done value,[]⟩
  | .array items::stack => ⟨.after,.array (items ++ [value])::stack⟩
  | .object members key::stack => ⟨.after,.object (assign key value members) key::stack⟩

/-- `end_array` and `end_object`. -/
def close : List Frame → Option Parser
  | [] => none
  | .array items::stack => some (deliver (.array items) stack)
  | .object members _::stack => some (deliver (.object members) stack)

def beginValue (closable : Bool) (stack : List Frame) (b : Nat) : Option Parser :=
  match b with
  | 0x7B => some ⟨.key true,.object [] []::stack⟩
  | 0x5B => some ⟨.value true,.array []::stack⟩
  | 0x5D => if closable then close stack else none
  | 0x22 => some ⟨.string false (.bytes []) [],stack⟩
  | 0x74 => some ⟨.literal (ascii ['r','u','e']) (.boolean true),stack⟩
  | 0x66 => some ⟨.literal (ascii ['a','l','s','e']) (.boolean false),stack⟩
  | 0x6E => some ⟨.literal (ascii ['u','l','l']) .null,stack⟩
  | b => (NumberScan.first b).map (fun scan => ⟨.number scan [b],stack⟩)

def beginKey (closable : Bool) (stack : List Frame) (b : Nat) : Option Parser :=
  match b with
  | 0x22 => some ⟨.string true (.bytes []) [],stack⟩
  | 0x7D => if closable then close stack else none
  | _ => none

/-- `key` of the handler. -/
def setKey (key : Bytes) : List Frame → Option Parser
  | .object members _::stack => some ⟨.colon,.object members key::stack⟩
  | _ => none

/-- A byte after a complete value. -/
def afterValue (parser : Parser) (b : Nat) : Option Parser :=
  if isBlank b then some parser
  else match parser.mode, parser.stack, b with
    | .after, .array _::_, 0x2C => some { parser with mode := .value false }
    | .after, .array _::_, 0x5D => close parser.stack
    | .after, .object _ _::_, 0x2C => some { parser with mode := .key false }
    | .after, .object _ _::_, 0x7D => close parser.stack
    | _, _, _ => none

def step (floats : Floats) (parser : Parser) (b : Nat) : Option Parser :=
  match parser.mode with
  | .value closable => if isBlank b then some parser else beginValue closable parser.stack b
  | .key closable => if isBlank b then some parser else beginKey closable parser.stack b
  | .colon =>
    if isBlank b then some parser
    else if b = 0x3A then some { parser with mode := .value false } else none
  | .after | .done _ => afterValue parser b
  | .string isKey scan text =>
    if scan = .bytes [] ∧ b = 0x22 then
      if isKey then setKey text parser.stack else some (deliver (.string text) parser.stack)
    else (scan.next b).map (fun p => { parser with mode := .string isKey p.1 (text ++ p.2) })
  | .number scan text =>
    match scan.next b with
    | some scan' => some { parser with mode := .number scan' (text ++ [b]) }
    | none =>
      if scan.done then
        (numberValue floats scan text).bind (fun value =>
          afterValue (deliver value parser.stack) b)
      else none
  | .literal rest value =>
    if rest.head? = some b then
      if rest.length = 1 then some (deliver value parser.stack)
      else some { parser with mode := .literal rest.tail value }
    else none

def run (floats : Floats) (parser : Parser) : Bytes → Option Parser
  | [] => some parser
  | b::bs => (step floats parser b).bind (fun parser' => run floats parser' bs)

/-- The end of the input, which `accept` and `parse` ask for. -/
def finish (floats : Floats) (parser : Parser) : Option Value :=
  match parser.mode, parser.stack with
  | .done value, _ => some value
  | .number scan text, [] => if scan.done then numberValue floats scan text else none
  | _, _ => none

def skipBom : Bytes → Option Bytes
  | 0xEF::bs =>
    match bs with
    | 0xBB::0xBF::rest => some rest
    | _ => none
  | bs => some bs

/-- `parse`, and `accept` is whether it has a value. A text has no NUL. -/
def parse (floats : Floats) (text : Bytes) : Option Value :=
  (skipBom text).bind (fun rest =>
    (run floats ⟨.value false,[]⟩ rest).bind (finish floats))

end Algorep.Program.Json
