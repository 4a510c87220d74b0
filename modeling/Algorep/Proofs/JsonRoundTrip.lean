import Algorep.Program.Json

namespace Algorep.Proofs
open Program.Json

theorem run_append (floats : Floats) (parser : Parser) (a b : Bytes) :
    run floats parser (a ++ b) = (run floats parser a).bind (fun parser' => run floats parser' b) := by
  induction a generalizing parser with
  | nil => rfl
  | cons x a ih =>
    simp only [List.cons_append, run, ih]
    cases step floats parser x <;> rfl

theorem run_cons (floats : Floats) (parser : Parser) (b : Nat) (bs : Bytes) :
    run floats parser (b::bs) = (step floats parser b).bind (fun parser' => run floats parser' bs) :=
  rfl

/-! Strings. -/

theorem hexValue_hexDigit (h : d < 16) : hexValue (hexDigit d) = some d := by
  unfold hexValue hexDigit isDigit
  by_cases hd : d < 10
  · have hlow : 0x30 ≤ 0x30 + d ∧ 0x30 + d ≤ 0x39 := by omega
    simp [hd, hlow]
  · have hhigh : ¬ (0x57 + d ≤ 0x39) ∧ ¬ (0x57 + d ≤ 0x46) ∧ 0x61 ≤ 0x57 + d ∧ 0x57 + d ≤ 0x66 := by
      omega
    simp [hd, hhigh]

/-- A control character that has no short escape. -/
theorem run_unicodeEscape (floats : Floats) (isKey : Bool) (text : Bytes) (stack : List Frame)
    (h : b ≤ 0x1F) :
    run floats ⟨.string isKey (.bytes []) text,stack⟩
      (ascii ['\\','u','0','0'] ++ [hexDigit (b / 16),hexDigit (b % 16)]) =
        some ⟨.string isKey (.bytes []) (text ++ [b]),stack⟩ := by
  have hhigh := hexValue_hexDigit (show b / 16 < 16 by omega)
  have hlow := hexValue_hexDigit (show b % 16 < 16 by omega)
  have hvalue : 16 * (b / 16) + b % 16 = b := Nat.div_add_mod b 16
  have hsurrogate : ¬ (0xD800 ≤ b) ∧ ¬ (0xDC00 ≤ b) ∧ b < 0x80 := by omega
  have hzero : hexValue 0x30 = some 0 := rfl
  simp [ascii, run, step, StringScan.next, hzero, hhigh, hlow, hvalue, escaped, encode, hsurrogate]

theorem continuation_ascii (h : b ≤ 0x7F) : continuation b = some [] := by
  simp [continuation, h]

/-- One byte of `dump_escaped`, read back between two sequences. -/
theorem run_escape (floats : Floats) (isKey : Bool) (text : Bytes) (stack : List Frame)
    (h : continuation b = some pending) :
    run floats ⟨.string isKey (.bytes []) text,stack⟩ (escape b) =
      some ⟨.string isKey (.bytes pending) (text ++ [b]),stack⟩ := by
  unfold escape
  split
  case h_8 _ _ _ _ _ _ hquote hbackslash =>
    split
    · rename_i hcontrol
      rw [continuation_ascii (by omega)] at h
      cases h
      exact run_unicodeEscape floats isKey text stack hcontrol
    · rename_i hcontrol
      have hne : b ≠ 0x22 ∧ b ≠ 0x5C := ⟨hquote,hbackslash⟩
      simp [run, step, StringScan.next, hne, hcontrol, h]
  all_goals
    cases h
    simp [ascii, run, step, StringScan.next, unescape]

/-- A whole escaped string, read back. -/
theorem run_escaped (floats : Floats) (isKey : Bool) (text : Bytes) (stack : List Frame)
    (hp : ∀ r ∈ pending, 0x80 ≤ r.1) (h : wellFormed pending s = true) :
    run floats ⟨.string isKey (.bytes pending) text,stack⟩ (s.flatMap escape) =
      some ⟨.string isKey (.bytes []) (text ++ s),stack⟩ := by
  induction s generalizing pending text with
  | nil =>
    cases pending with
    | nil => simp [run]
    | cons r pending => simp [wellFormed] at h
  | cons b s ih =>
    rw [List.flatMap_cons, run_append]
    cases pending with
    | nil =>
      unfold wellFormed at h
      split at h
      · rename_i pending hb
        rw [run_escape floats isKey text stack hb, Option.bind_some,
          ih (text ++ [b]) (continuation_high hb) h]
        simp
      · contradiction
    | cons r pending =>
      obtain ⟨low,high⟩ := r
      simp only [wellFormed, Bool.and_eq_true, decide_eq_true_eq] at h
      obtain ⟨⟨hlow,hhigh⟩,h⟩ := h
      have hb : 0x80 ≤ b := Nat.le_trans (hp _ List.mem_cons_self) hlow
      have hstep : run floats ⟨.string isKey (.bytes ((low,high)::pending)) text,stack⟩ (escape b) =
          some ⟨.string isKey (.bytes pending) (text ++ [b]),stack⟩ := by
        rw [escape_high hb]
        simp [run, step, StringScan.next, hlow, hhigh]
      rw [hstep, Option.bind_some,
        ih (text ++ [b]) (fun r hr => hp r (List.mem_cons_of_mem _ hr)) h]
      simp

theorem run_string (floats : Floats) (stack : List Frame) (closable : Bool) (s : Utf8) :
    run floats ⟨.value closable,stack⟩ (dumpString s.bytes) =
      some (deliver (.string s.bytes) stack) := by
  unfold dumpString
  rw [List.cons_append, run_cons]
  have hopen : step floats ⟨.value closable,stack⟩ 0x22 =
      some ⟨.string false (.bytes []) [],stack⟩ := rfl
  rw [hopen, Option.bind_some, run_append, run_escaped floats false [] stack (by simp) s.valid]
  simp [run, step]

theorem run_key (floats : Floats) (stack : List Frame) (closable : Bool) (s : Utf8) :
    run floats ⟨.key closable,stack⟩ (dumpString s.bytes) = setKey s.bytes stack := by
  unfold dumpString
  rw [List.cons_append, run_cons]
  have hopen : step floats ⟨.key closable,stack⟩ 0x22 =
      some ⟨.string true (.bytes []) [],stack⟩ := rfl
  rw [hopen, Option.bind_some, run_append, run_escaped floats true [] stack (by simp) s.valid]
  simp [run, step]

/-! Integers. -/

def decimal (n : Nat) : Bytes := (Nat.toDigits 10 n).map Char.toNat

theorem dumpInteger_eq (i : Int) :
    dumpInteger i = (if i < 0 then [0x2D] else []) ++ decimal i.natAbs := rfl

theorem naturalOf_decimal (n : Nat) : naturalOf (decimal n) = n := by
  unfold naturalOf decimal
  rw [List.foldl_map]
  exact Nat.ofDigitChars_ten_toDigits

theorem isDigit_decimal (hb : b ∈ decimal n) : isDigit b = true := by
  obtain ⟨c,hc,rfl⟩ := List.mem_map.mp hb
  simp only [isDigit, Bool.and_eq_true, decide_eq_true_eq]
  exact toDigits_range hc

/-- Only zero is written with a leading zero. -/
theorem decimal_cons (hn : n ≠ 0) : ∃ d ds, decimal n = d::ds ∧ d ≠ 0x30 := by
  induction n using Nat.strongRecOn with
  | _ n ih =>
    by_cases hlt : n < 10
    · have hne : (Nat.digitChar n).toNat ≠ 0x30 := by
        have hall : ∀ m < 10, m ≠ 0 → (Nat.digitChar m).toNat ≠ 0x30 := by decide
        exact hall n hlt hn
      unfold decimal
      rw [Nat.toDigits_of_lt_base hlt]
      exact ⟨_,[],rfl,hne⟩
    · obtain ⟨d,ds,heq,hd⟩ := ih (n / 10) (by omega) (by omega)
      refine ⟨d,ds ++ [(Nat.digitChar (n % 10)).toNat],?_,hd⟩
      unfold decimal at heq ⊢
      rw [Nat.toDigits_of_base_le (by omega) (by omega), List.map_append, heq]
      rfl

theorem integerOf_dumpInteger (i : Int) : integerOf (dumpInteger i) = i := by
  have hnat := naturalOf_decimal i.natAbs
  rw [dumpInteger_eq]
  by_cases hi : i < 0
  · simp only [hi, ↓reduceIte, List.cons_append, List.nil_append, integerOf, hnat]
    omega
  · simp only [hi, ↓reduceIte, List.nil_append]
    unfold integerOf
    split
    · rename_i digits heq
      have hdigit : isDigit 0x2D = true := isDigit_decimal (heq ▸ List.mem_cons_self)
      contradiction
    · rw [hnat]
      omega

section Digits
variable (floats : Floats) (stack : List Frame)

theorem run_digits (text : Bytes) (h : ∀ b ∈ ds, isDigit b = true) :
    run floats ⟨.number .any1 text,stack⟩ ds = some ⟨.number .any1 (text ++ ds),stack⟩ := by
  induction ds generalizing text with
  | nil => simp [run]
  | cons d ds ih =>
    have hd := h d List.mem_cons_self
    have hstep : step floats ⟨.number .any1 text,stack⟩ d =
        some ⟨.number .any1 (text ++ [d]),stack⟩ := by
      simp [step, NumberScan.next, hd]
    rw [run_cons, hstep, Option.bind_some,
      ih (text ++ [d]) (fun b hb => h b (List.mem_cons_of_mem _ hb))]
    simp

theorem step_digit (closable : Bool) (h : isDigit b = true) :
    step floats ⟨.value closable,stack⟩ b =
      (NumberScan.first b).map (fun scan => ⟨.number scan [b],stack⟩) := by
  simp only [isDigit, Bool.and_eq_true, decide_eq_true_eq] at h
  have hblank : isBlank b = false := by
    simp only [isBlank, Bool.or_eq_false_iff, beq_eq_false_iff_ne]
    omega
  simp only [step, hblank, Bool.false_eq_true, ↓reduceIte]
  unfold beginValue
  split
  all_goals first | omega | rfl

/-- A natural number, opened by its first digit. -/
theorem run_decimal (closable : Bool) (n : Nat) : ∃ scan, scan.isInteger = true ∧
    run floats ⟨.value closable,stack⟩ (decimal n) = some ⟨.number scan (decimal n),stack⟩ := by
  by_cases hn : n = 0
  · subst hn
    exact ⟨.zero,rfl,rfl⟩
  · obtain ⟨d,ds,heq,hd⟩ := decimal_cons hn
    have hdigit : ∀ b ∈ d::ds, isDigit b = true := fun b hb => isDigit_decimal (heq ▸ hb)
    have hfirst := hdigit d List.mem_cons_self
    have hminus : d ≠ 0x2D := by
      rintro rfl
      contradiction
    refine ⟨.any1,rfl,?_⟩
    rw [heq, run_cons, step_digit floats stack closable hfirst]
    simp only [NumberScan.first, hminus, ↓reduceIte, hd, hfirst, Option.map_some, Option.bind_some]
    rw [run_digits floats stack [d] (fun b hb => hdigit b (List.mem_cons_of_mem _ hb))]
    simp

theorem run_negative (hn : n ≠ 0) :
    run floats ⟨.number .minus [0x2D],stack⟩ (decimal n) =
      some ⟨.number .any1 (0x2D::decimal n),stack⟩ := by
  obtain ⟨d,ds,heq,hd⟩ := decimal_cons hn
  have hdigit : ∀ b ∈ d::ds, isDigit b = true := fun b hb => isDigit_decimal (heq ▸ hb)
  have hstep : step floats ⟨.number .minus [0x2D],stack⟩ d =
      some ⟨.number .any1 ([0x2D] ++ [d]),stack⟩ := by
    simp [step, NumberScan.next, hd, hdigit d List.mem_cons_self]
  rw [heq, run_cons, hstep, Option.bind_some,
    run_digits floats stack _ (fun b hb => hdigit b (List.mem_cons_of_mem _ hb))]
  simp

theorem run_integer (closable : Bool) (i : Int) : ∃ scan, scan.isInteger = true ∧
    run floats ⟨.value closable,stack⟩ (dumpInteger i) =
      some ⟨.number scan (dumpInteger i),stack⟩ := by
  rw [dumpInteger_eq]
  by_cases hi : i < 0
  · refine ⟨.any1,rfl,?_⟩
    have hstep : step floats ⟨.value closable,stack⟩ 0x2D =
        some ⟨.number .minus [0x2D],stack⟩ := rfl
    simp only [hi, ↓reduceIte, List.cons_append, List.nil_append]
    rw [run_cons, hstep, Option.bind_some, run_negative floats stack (by omega)]
  · simp only [hi, ↓reduceIte, List.nil_append]
    exact run_decimal floats stack closable i.natAbs

/-- An integer is complete once a comma or a brace follows. -/
theorem run_integer_end (closable : Bool) (hlow : -2 ^ 63 ≤ i) (hhigh : i < 2 ^ 64)
    (hb : b = 0x2C ∨ b = 0x7D) (rest : Bytes) :
    run floats ⟨.value closable,stack⟩ (dumpInteger i ++ b::rest) =
      (afterValue (deliver (.integer i) stack) b).bind (fun parser => run floats parser rest) := by
  obtain ⟨scan,hscan,hrun⟩ := run_integer floats stack closable i
  have hvalue : numberValue floats scan (dumpInteger i) = some (.integer i) := by
    unfold numberValue
    rw [integerOf_dumpInteger, if_pos ⟨hscan,hlow,hhigh⟩]
  have hnext : scan.next b = none ∧ scan.done = true := by
    cases scan <;> simp [NumberScan.isInteger] at hscan <;> rcases hb with rfl | rfl <;>
      exact ⟨rfl,rfl⟩
  rw [run_append, hrun, Option.bind_some, run_cons]
  simp [step, hnext, hvalue]

end Digits

/-! Objects. -/

def scalarValue : Scalar → Value
  | .integer i => .integer i
  | .string s => .string s.bytes

/-- The integers that `parse` keeps as integers. -/
def Fits : Scalar → Prop
  | .integer i => -2 ^ 63 ≤ i ∧ i < 2 ^ 64
  | .string _ => True

def addMember (members : List (Bytes × Value)) (member : Utf8 × Scalar) : List (Bytes × Value) :=
  assign member.1.bytes (scalarValue member.2) members

/-- The object that is read back from a dump. -/
def readBack (members : List (Utf8 × Scalar)) : Value := .object (members.foldl addMember [])

section Objects
variable (floats : Floats) (stack : List Frame)

theorem run_scalar (members : List (Bytes × Value)) (key : Bytes) (h : Fits v)
    (hb : b = 0x2C ∨ b = 0x7D) (rest : Bytes) :
    run floats ⟨.value false,.object members key::stack⟩ (v.dump ++ b::rest) =
      (afterValue (deliver (scalarValue v) (.object members key::stack)) b).bind
        (fun parser => run floats parser rest) := by
  cases v with
  | integer i => exact run_integer_end floats _ false h.1 h.2 hb rest
  | string s =>
    simp only [Scalar.dump]
    rw [run_append, run_string floats _ false s, Option.bind_some, run_cons]
    rfl

theorem run_member (closable : Bool) (members : List (Bytes × Value)) (key : Bytes)
    (h : Fits member.2) (hb : b = 0x2C ∨ b = 0x7D) (rest : Bytes) :
    run floats ⟨.key closable,.object members key::stack⟩ (dumpMember member ++ b::rest) =
      (afterValue ⟨.after,.object (addMember members member) member.1.bytes::stack⟩ b).bind
        (fun parser => run floats parser rest) := by
  unfold dumpMember
  rw [List.append_assoc, run_append, run_key floats _ closable member.1, List.cons_append]
  have hcolon : step floats ⟨.colon,.object members member.1.bytes::stack⟩ 0x3A =
      some ⟨.value false,.object members member.1.bytes::stack⟩ := rfl
  simp only [setKey, Option.bind_some]
  rw [run_cons, hcolon, Option.bind_some, run_scalar floats stack members _ h hb rest]
  rfl

theorem run_members (closable : Bool) (open_ : List (Bytes × Value)) (key : Bytes)
    (hne : members ≠ []) (h : ∀ m ∈ members, Fits m.2) :
    run floats ⟨.key closable,.object open_ key::stack⟩ (dumpMembers members) =
      some (deliver (.object (members.foldl addMember open_)) stack) := by
  induction members generalizing closable open_ key with
  | nil => contradiction
  | cons m ms ih =>
    have hm := h m List.mem_cons_self
    cases ms with
    | nil =>
      have hclose : afterValue ⟨.after,.object (addMember open_ m) m.1.bytes::stack⟩ 0x7D =
          some (deliver (.object (addMember open_ m)) stack) := rfl
      simp only [dumpMembers]
      rw [run_member floats stack closable open_ key hm (.inr rfl) [], hclose]
      rfl
    | cons m' ms =>
      have hcomma : afterValue ⟨.after,.object (addMember open_ m) m.1.bytes::stack⟩ 0x2C =
          some ⟨.key false,.object (addMember open_ m) m.1.bytes::stack⟩ := rfl
      simp only [dumpMembers]
      rw [run_member floats stack closable open_ key hm (.inl rfl), hcomma, Option.bind_some,
        ih false _ _ (by simp) (fun x hx => h x (List.mem_cons_of_mem _ hx))]
      rfl

/-- A dump leads the parser through to the end of the object. -/
theorem run_dumpObject (h : ∀ m ∈ members, Fits m.2) :
    run floats ⟨.value false,[]⟩ (dumpObject members) = some ⟨.done (readBack members),[]⟩ := by
  unfold dumpObject
  have hopen : step floats ⟨.value false,[]⟩ 0x7B = some ⟨.key true,[.object [] []]⟩ := rfl
  rw [run_cons, hopen, Option.bind_some]
  by_cases hne : members = []
  · subst hne
    rfl
  · exact run_members floats [] true [] [] hne h

end Objects

theorem skipBom_object (members : List (Utf8 × Scalar)) (rest : Bytes) :
    skipBom (dumpObject members ++ rest) = some (dumpObject members ++ rest) := rfl

/-- What is dumped is read back. -/
theorem parse_dumpObject (floats : Floats) (h : ∀ m ∈ members, Fits m.2) :
    parse floats (dumpObject members) = some (readBack members) := by
  have hbom := skipBom_object members []
  rw [List.append_nil] at hbom
  unfold parse
  rw [hbom, Option.bind_some, run_dumpObject floats h]
  rfl

/-! Texts that are cut off or go on. -/

/-- Only blanks may follow a complete object. -/
theorem run_done (h : run floats ⟨.done v,stack⟩ bs = some parser) : ∀ b ∈ bs, isBlank b = true := by
  induction bs with
  | nil => simp
  | cons b bs ih =>
    rw [run_cons] at h
    by_cases hb : isBlank b = true
    · have hstep : step floats ⟨.done v,stack⟩ b = some ⟨.done v,stack⟩ := by
        simp [step, afterValue, hb]
      rw [hstep, Option.bind_some] at h
      intro x hx
      rcases List.mem_cons.mp hx with rfl | hx
      · exact hb
      · exact ih h x hx
    · have hstep : step floats ⟨.done v,stack⟩ b = none := by
        simp [step, afterValue, hb]
      simp [hstep] at h

theorem parse_trailing (floats : Floats) (h : ∀ m ∈ members, Fits m.2) (hb : isBlank b = false) :
    parse floats (dumpObject members ++ [b]) = none := by
  have hrun : run floats ⟨.value false,[]⟩ (dumpObject members ++ [b]) = none := by
    rw [run_append, run_dumpObject floats h, Option.bind_some]
    cases hr : run floats ⟨.done (readBack members),[]⟩ [b] with
    | none => rfl
    | some parser =>
      have hblank := run_done hr b List.mem_cons_self
      simp [hb] at hblank
  unfold parse
  rw [skipBom_object, Option.bind_some, hrun]
  rfl

/-- The parser is inside a container or through with it. -/
def Opened (parser : Parser) : Prop := parser.stack ≠ [] ∨ ∃ v, parser.mode = .done v

theorem deliver_opened (v : Value) (stack : List Frame) : Opened (deliver v stack) := by
  unfold deliver Opened
  split <;> simp

theorem close_opened (h : close stack = some parser) : Opened parser := by
  unfold close at h
  split at h
  · contradiction
  all_goals
    cases h
    apply deliver_opened

theorem afterValue_opened (hp : Opened parser) (h : afterValue parser b = some parser') :
    Opened parser' := by
  unfold afterValue at h
  split at h
  · cases h
    exact hp
  · split at h
    · rename_i hs _
      cases h
      exact .inl (by simp [hs])
    · exact close_opened h
    · rename_i hs _
      cases h
      exact .inl (by simp [hs])
    · exact close_opened h
    · contradiction

theorem beginValue_opened (hs : stack ≠ []) (h : beginValue closable stack b = some parser) :
    Opened parser := by
  unfold beginValue at h
  split at h
  case h_3 =>
    split at h
    · exact close_opened h
    · contradiction
  case h_8 =>
    obtain ⟨scan,-,rfl⟩ := Option.map_eq_some_iff.mp h
    exact .inl hs
  all_goals
    cases h
    exact .inl (by simp [hs])

theorem step_opened (hp : Opened parser) (h : step floats parser b = some parser') :
    Opened parser' := by
  obtain ⟨mode,stack⟩ := parser
  unfold step at h
  cases mode with
  | done v => exact afterValue_opened hp h
  | after => exact afterValue_opened hp h
  | value closable =>
    have hs : stack ≠ [] := hp.resolve_right (by simp)
    dsimp only at h
    split at h
    · cases h
      exact hp
    · exact beginValue_opened hs h
  | key closable =>
    have hs : stack ≠ [] := hp.resolve_right (by simp)
    dsimp only at h
    split at h
    · cases h
      exact hp
    · unfold beginKey at h
      split at h
      · cases h
        exact .inl hs
      · split at h
        · exact close_opened h
        · contradiction
      · contradiction
  | colon =>
    have hs : stack ≠ [] := hp.resolve_right (by simp)
    dsimp only at h
    split at h
    · cases h
      exact hp
    · split at h
      · cases h
        exact .inl hs
      · contradiction
  | string isKey scan text =>
    have hs : stack ≠ [] := hp.resolve_right (by simp)
    dsimp only at h
    split at h
    · split at h
      · unfold setKey at h
        split at h
        · cases h
          exact .inl (by simp)
        · contradiction
      · cases h
        apply deliver_opened
    · obtain ⟨p,-,rfl⟩ := Option.map_eq_some_iff.mp h
      exact .inl hs
  | number scan text =>
    have hs : stack ≠ [] := hp.resolve_right (by simp)
    dsimp only at h
    split at h
    · cases h
      exact .inl hs
    · split at h
      · obtain ⟨v,-,hv⟩ := Option.bind_eq_some_iff.mp h
        exact afterValue_opened (deliver_opened v stack) hv
      · contradiction
  | literal rest v =>
    have hs : stack ≠ [] := hp.resolve_right (by simp)
    dsimp only at h
    split at h
    · split at h
      · cases h
        apply deliver_opened
      · cases h
        exact .inl hs
    · contradiction

theorem run_opened (hp : Opened parser) (h : run floats parser bs = some parser') :
    Opened parser' := by
  induction bs generalizing parser with
  | nil =>
    cases h
    exact hp
  | cons b bs ih =>
    obtain ⟨next,hn,hr⟩ := Option.bind_eq_some_iff.mp h
    exact ih (step_opened hp hn) hr

/-- A parser that has opened a container accepts at its end only when it is through. -/
theorem finish_opened (hp : Opened parser) (h : finish floats parser = some v) :
    parser.mode = .done v := by
  unfold finish at h
  split at h
  · rename_i hm
    cases h
    exact hm
  · rename_i hm hs
    rcases hp with hne | ⟨w,hw⟩
    · exact absurd hs hne
    · rw [hw] at hm
      contradiction
  · contradiction

theorem dumpMembers_last (members : List (Utf8 × Scalar)) :
    (dumpMembers members).getLast? = some 0x7D := by
  induction members with
  | nil => rfl
  | cons m ms ih =>
    cases ms with
    | nil => simp [dumpMembers]
    | cons m' ms =>
      simp only [dumpMembers]
      rw [List.getLast?_append, List.getLast?_cons, ih]
      rfl

/-- No proper prefix of a dump is accepted. -/
theorem parse_cut (floats : Floats) (h : ∀ m ∈ members, Fits m.2)
    (hpq : dumpObject members = p ++ q) (hq : q ≠ []) : parse floats p = none := by
  cases p with
  | nil => rfl
  | cons b p =>
    have hb : b = 0x7B ∧ dumpMembers members = p ++ q := by
      unfold dumpObject at hpq
      rw [List.cons_append, List.cons.injEq] at hpq
      exact ⟨hpq.1.symm,hpq.2⟩
    obtain ⟨rfl,hpq'⟩ := hb
    have hfull := run_dumpObject floats h
    rw [hpq, run_append] at hfull
    cases hr : run floats ⟨.value false,[]⟩ (0x7B::p) with
    | none =>
      have hbom : skipBom (0x7B::p) = some (0x7B::p) := rfl
      unfold parse
      rw [hbom, Option.bind_some, hr]
      rfl
    | some parser =>
      have hopened : Opened parser := by
        have hopen : step floats ⟨.value false,[]⟩ 0x7B = some ⟨.key true,[.object [] []]⟩ := rfl
        rw [run_cons, hopen, Option.bind_some] at hr
        exact run_opened (.inl (by simp)) hr
      by_contra hne
      have hbom : skipBom (0x7B::p) = some (0x7B::p) := rfl
      unfold parse at hne
      rw [hbom, Option.bind_some, hr, Option.bind_some] at hne
      obtain ⟨v,hv⟩ := Option.ne_none_iff_exists'.mp hne
      have hdone := finish_opened hopened hv
      obtain ⟨mode,stack⟩ := parser
      dsimp only at hdone
      subst hdone
      rw [hr, Option.bind_some] at hfull
      have hlast := dumpMembers_last members
      rw [hpq', List.getLast?_append_of_ne_nil _ hq] at hlast
      have hblank := run_done hfull 0x7D (List.mem_of_getLast? hlast)
      contradiction

/-! What a dump consists of. -/

theorem escape_printable (hc : c ∈ escape b) : 0x20 ≤ c := by
  unfold escape at hc
  split at hc
  case h_8 =>
    split at hc
    · simp only [ascii, List.map_cons, List.map_nil, List.cons_append, List.nil_append,
        List.mem_cons, List.not_mem_nil, or_false] at hc
      rcases hc with rfl | rfl | rfl | rfl | rfl | rfl
      · decide
      · decide
      · decide
      · decide
      all_goals
        unfold hexDigit
        split <;> omega
    · rw [List.mem_singleton.mp hc]
      omega
  all_goals
    simp only [ascii, List.map_cons, List.map_nil, List.mem_cons, List.not_mem_nil, or_false] at hc
    rcases hc with rfl | rfl <;> decide

theorem dumpString_printable (hc : c ∈ dumpString s) : 0x20 ≤ c := by
  unfold dumpString at hc
  simp only [List.cons_append, List.mem_cons, List.mem_append, List.mem_flatMap, List.not_mem_nil,
    or_false] at hc
  rcases hc with rfl | ⟨b,-,hb⟩ | rfl
  · decide
  · exact escape_printable hb
  · decide

theorem dumpInteger_printable (hc : c ∈ dumpInteger i) : 0x20 ≤ c := by
  rw [dumpInteger_eq] at hc
  rcases List.mem_append.mp hc with hc | hc
  · split at hc
    · rw [List.mem_singleton.mp hc]
      decide
    · contradiction
  · have hdigit := isDigit_decimal hc
    simp only [isDigit, Bool.and_eq_true, decide_eq_true_eq] at hdigit
    omega

theorem dumpMember_printable (hc : c ∈ dumpMember m) : 0x20 ≤ c := by
  unfold dumpMember at hc
  rcases List.mem_append.mp hc with hc | hc
  · exact dumpString_printable hc
  · rcases List.mem_cons.mp hc with rfl | hc
    · decide
    · cases hv : m.2 with
      | integer i =>
        rw [hv] at hc
        exact dumpInteger_printable hc
      | string s =>
        rw [hv] at hc
        exact dumpString_printable hc

theorem dumpMembers_printable (hc : c ∈ dumpMembers members) : 0x20 ≤ c := by
  induction members with
  | nil =>
    rw [List.mem_singleton.mp hc]
    decide
  | cons m ms ih =>
    cases ms with
    | nil =>
      rcases List.mem_append.mp hc with hc | hc
      · exact dumpMember_printable hc
      · rw [List.mem_singleton.mp hc]
        decide
    | cons m' ms =>
      rcases List.mem_append.mp hc with hc | hc
      · exact dumpMember_printable hc
      · rcases List.mem_cons.mp hc with rfl | hc
        · decide
        · exact ih hc

/-- A dump has no control character, so no NUL. -/
theorem dumpObject_printable (hc : c ∈ dumpObject members) : 0x20 ≤ c := by
  rcases List.mem_cons.mp hc with rfl | hc
  · decide
  · exact dumpMembers_printable hc

end Algorep.Proofs
