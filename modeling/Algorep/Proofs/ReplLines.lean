import Algorep.Program.Repl

namespace Algorep.Proofs
open Program Program.Json Program.Reception Program.Repl

def unsigned : Bytes → Bytes
  | b::bs => if isSign b then bs else b::bs
  | [] => []

/-- A decimal integer: digits, after one sign or none. -/
def isNumeral (text : Bytes) : Bool := !(unsigned text).isEmpty && (unsigned text).all isDigit

/-- What the repl file may say, to whom, and with which code. -/
inductive Command (rank : Fin n) : Bytes → Fin n → ReplCode → Prop
  | shutdown : Command rank shutdownLine rank .shutdown
  | start : Command rank startLine rank .start
  | addressed {dstNodeId : Fin n} (hnumeral : isNumeral numeral = true)
      (hvalue : signedValue numeral = dstNodeId.val) (hkey : find key = some code) :
      Command rank (numeral ++ 0x2C::key) dstNodeId code

/-- A command is set, with its destination, and nothing else is. -/
def FollowsGrammar (rank : Fin n) (wtime : Nat) (line : Bytes) (output : Output) :
    Except Exception Output → Prop
  | .error _ => False
  | .ok output' =>
    (∀ dstNodeId code, Command rank line dstNodeId code →
      output' = { receivedMessage := setMessage rank wtime code, messageReceived := true,
                  dstNodeId := dstNodeId.val }) ∧
    ((∀ dstNodeId code, ¬ Command rank line dstNodeId code) →
      output'.messageReceived = output.messageReceived ∧
      output'.receivedMessage = output.receivedMessage)

/-- A text that starts with a number, blanks before it aside, which ends where `rest`
begins. -/
structure StartsWith (text blanks numeral rest : Bytes) : Prop where
  split : text = blanks ++ (numeral ++ rest)
  blank : ∀ b ∈ blanks, isSpace b = true
  numeral : isNumeral numeral = true
  stop : ∀ b ∈ rest.head?, isDigit b = false

/-- The text before the comma starts with a number that an `int` holds, and it is that number
alone unless the line is to be passed over for its destination or its command. -/
def Harmless (clusterSize : Nat) (text key : Bytes) : Prop :=
  ∃ blanks numeral rest, StartsWith text blanks numeral rest ∧
    fitsInt (signedValue numeral) = true ∧
    (blanks = [] ∧ rest = [] ∨
      ¬ (0 ≤ signedValue numeral ∧ signedValue numeral < clusterSize) ∨ find key = none)

/-! Numerals. -/

theorem isSign_not_digit (h : isSign b = true) : isDigit b = false := by
  simp only [isSign, Bool.or_eq_true, beq_iff_eq] at h
  rcases h with rfl | rfl <;> rfl

theorem isSpace_not_digit (h : isSpace b = true) : isDigit b = false ∧ isSign b = false := by
  simp only [isSpace, Bool.or_eq_true, beq_iff_eq, Bool.and_eq_true, decide_eq_true_eq] at h
  simp only [isDigit, isSign, Bool.and_eq_false_iff, Bool.or_eq_false_iff,
    decide_eq_false_iff_not, beq_eq_false_iff_ne]
  omega

/-- A sign or none, and digits. -/
theorem isNumeral_iff : isNumeral text = true ↔ ∃ sign digits, text = sign ++ digits ∧
    digits ≠ [] ∧ (∀ b ∈ digits, isDigit b = true) ∧
    (sign = [] ∨ ∃ b, sign = [b] ∧ isSign b = true) := by
  simp only [isNumeral, Bool.and_eq_true, Bool.not_eq_true', List.isEmpty_eq_false_iff,
    List.all_eq_true]
  constructor
  · rintro ⟨hne,hdigits⟩
    cases text with
    | nil => exact absurd rfl hne
    | cons b bs =>
      cases hb : isSign b with
      | true =>
        simp only [unsigned, hb] at hne hdigits
        exact ⟨[b],bs,rfl,hne,hdigits,.inr ⟨b,rfl,hb⟩⟩
      | false =>
        simp only [unsigned, hb] at hne hdigits
        exact ⟨[],b::bs,rfl,hne,hdigits,.inl rfl⟩
  · rintro ⟨sign,digits,rfl,hne,hdigits,rfl | ⟨b,rfl,hb⟩⟩
    · cases digits with
      | nil => exact absurd rfl hne
      | cons d digits =>
        have hd : isSign d = false := by
          cases hd : isSign d with
          | false => rfl
          | true =>
            have := isSign_not_digit hd
            rw [hdigits d List.mem_cons_self] at this
            contradiction
        simpa [unsigned, hd] using hdigits
    · simpa [unsigned, hb] using ⟨hne,hdigits⟩

theorem isNumeral_mem (h : isNumeral text = true) (hb : b ∈ text) :
    isDigit b = true ∨ isSign b = true := by
  obtain ⟨sign,digits,rfl,-,hdigits,rfl | ⟨c,rfl,hc⟩⟩ := isNumeral_iff.mp h
  · exact .inl (hdigits b hb)
  · rcases List.mem_append.mp hb with hb | hb
    · exact .inr (List.mem_singleton.mp hb ▸ hc)
    · exact .inl (hdigits b hb)

theorem isNumeral_nonspace (h : isNumeral text = true) (hb : b ∈ text) : isSpace b = false := by
  cases hspace : isSpace b with
  | false => rfl
  | true =>
    obtain ⟨hdigit,hsign⟩ := isSpace_not_digit hspace
    rcases isNumeral_mem h hb with hb | hb <;> simp [hb] at hdigit hsign

theorem isNumeral_ne_nil (h : isNumeral text = true) : text ≠ [] := by
  rintro rfl
  simp [isNumeral, unsigned] at h

/-- A run ends where its bytes do. -/
theorem run_ends {p : Nat → Bool} {body rest : Bytes} (hbody : ∀ b ∈ body, p b = true)
    (hrest : ∀ b ∈ rest.head?, p b = false) :
    (body ++ rest).takeWhile p = body ∧ (body ++ rest).dropWhile p = rest := by
  induction body with
  | nil =>
    cases rest with
    | nil => exact ⟨rfl,rfl⟩
    | cons b rest =>
      have hb := hrest b rfl
      exact ⟨by simp [hb],by simp [hb]⟩
  | cons b body ih =>
    have hb := hbody b List.mem_cons_self
    obtain ⟨htake,hdrop⟩ := ih (fun c hc => hbody c (List.mem_cons_of_mem _ hc))
    exact ⟨by simp [hb, htake],by simp [hb, hdrop]⟩

/-! `stoi`. -/

theorem numeralAt_numeral (hn : isNumeral numeral = true)
    (stop : ∀ b ∈ rest.head?, isDigit b = false) :
    ∃ sign digits, numeralAt (numeral ++ rest) = (sign,digits) ∧ sign ++ digits = numeral ∧
      digits ≠ [] := by
  obtain ⟨sign,digits,rfl,hne,hdigits,hsign⟩ := isNumeral_iff.mp hn
  refine ⟨sign,digits,?_,rfl,hne⟩
  have htake := (run_ends hdigits stop).1
  rcases hsign with rfl | ⟨b,rfl,hb⟩
  · cases digits with
    | nil => exact absurd rfl hne
    | cons d digits =>
      have hd : isSign d = false := by
        cases hd : isSign d with
        | false => rfl
        | true =>
          have := isSign_not_digit hd
          rw [hdigits d List.mem_cons_self] at this
          contradiction
      simp only [List.nil_append, List.cons_append] at htake ⊢
      simp [numeralAt, hd, htake]
  · simp [numeralAt, hb, htake]

/-- What `numeralAt` finds is a numeral, and the longest there is. -/
theorem numeralAt_spec (h : numeralAt text = (sign,digits)) (hne : digits ≠ []) :
    ∃ rest, text = (sign ++ digits) ++ rest ∧ isNumeral (sign ++ digits) = true ∧
      ∀ b ∈ rest.head?, isDigit b = false := by
  have hdigits : ∀ (bs : Bytes), ∀ b ∈ bs.takeWhile isDigit, isDigit b = true :=
    fun bs => List.all_eq_true.mp List.all_takeWhile
  have hstop : ∀ (bs : Bytes), ∀ b ∈ (bs.dropWhile isDigit).head?, isDigit b = false := by
    intro bs b hb
    have := List.head?_dropWhile_not isDigit bs
    rw [Option.mem_def.mp hb] at this
    simpa using this
  cases text with
  | nil =>
    cases h
    exact absurd rfl hne
  | cons b bs =>
    cases hb : isSign b with
    | true =>
      simp only [numeralAt, hb, if_true] at h
      cases h
      refine ⟨bs.dropWhile isDigit,by simp,?_,hstop bs⟩
      exact isNumeral_iff.mpr ⟨[b],_,rfl,hne,hdigits bs,.inr ⟨b,rfl,hb⟩⟩
    | false =>
      simp only [numeralAt, hb, Bool.false_eq_true, if_false] at h
      cases h
      refine ⟨(b::bs).dropWhile isDigit,by simp,?_,hstop (b::bs)⟩
      exact isNumeral_iff.mpr ⟨[],_,rfl,hne,hdigits (b::bs),.inl rfl⟩

/-- `stoi` on a text that starts with a number. -/
theorem stoi_starts (h : StartsWith text blanks numeral rest) :
    stoi text =
      if fitsInt (signedValue numeral) then .ok (signedValue numeral)
      else .error .outOfRange := by
  obtain ⟨rfl,hblank,hnumeral,hstop⟩ := h
  have hhead : ∀ b ∈ (numeral ++ rest).head?, isSpace b = false := by
    cases numeral with
    | nil => exact absurd rfl (isNumeral_ne_nil hnumeral)
    | cons c numeral =>
      intro b hb
      cases hb
      exact isNumeral_nonspace hnumeral List.mem_cons_self
  obtain ⟨sign,digits,hat,hjoin,hne⟩ := numeralAt_numeral hnumeral hstop
  simp [stoi, (run_ends hblank hhead).2, hat, hne, hjoin]

theorem startsWith_numeral (h : isNumeral text = true) : StartsWith text [] text [] :=
  ⟨by simp,by simp,h,by simp⟩

/-- What `stoi` reads is the number that the text starts with. -/
theorem stoi_ok (h : stoi text = .ok value) : ∃ blanks numeral rest,
    StartsWith text blanks numeral rest ∧ fitsInt (signedValue numeral) = true ∧
      signedValue numeral = value := by
  unfold stoi at h
  obtain ⟨⟨sign,digits⟩,heq⟩ : ∃ pair, numeralAt (text.dropWhile isSpace) = pair := ⟨_,rfl⟩
  simp only [heq] at h
  split at h
  · contradiction
  · rename_i hne
    split at h
    · rename_i hfits
      obtain ⟨rest,hsplit,hnumeral,hstop⟩ := numeralAt_spec heq hne
      refine ⟨text.takeWhile isSpace,sign ++ digits,rest,⟨?_,?_,hnumeral,hstop⟩,hfits,?_⟩
      · rw [← hsplit, List.takeWhile_append_dropWhile]
      · exact List.all_eq_true.mp List.all_takeWhile
      · exact Except.ok.inj h
    · contradiction

/-- A numeral starts with itself only. -/
theorem startsWith_more (h : StartsWith text blanks numeral rest) (htext : isNumeral text = true) :
    blanks = [] ∧ rest = [] := by
  obtain ⟨rfl,hblank,hnumeral,hstop⟩ := h
  have hblanks : blanks = [] := by
    cases blanks with
    | nil => rfl
    | cons b blanks =>
      have hb := isNumeral_nonspace htext (b := b) (by simp)
      rw [hblank b List.mem_cons_self] at hb
      contradiction
  subst hblanks
  refine ⟨rfl,?_⟩
  cases rest with
  | nil => rfl
  | cons b rest =>
    -- What follows the number is no digit, and a sign stands at the beginning only.
    have hmem : b ∈ unsigned (numeral ++ b::rest) := by
      cases numeral with
      | nil => exact absurd rfl (isNumeral_ne_nil hnumeral)
      | cons c numeral =>
        simp only [List.cons_append, unsigned]
        split <;> simp
    simp only [isNumeral, List.nil_append, Bool.and_eq_true, List.all_eq_true] at htext
    have hdigit := htext.2 b hmem
    rw [hstop b rfl] at hdigit
    contradiction

/-! `parseLine`. -/

theorem comma_not_numeral (h : isNumeral text = true) : ∀ b ∈ text, (b != 0x2C) = true := by
  intro b hb
  rcases isNumeral_mem h hb with hb | hb
  · simp only [isDigit, Bool.and_eq_true, decide_eq_true_eq] at hb
    simp only [bne_iff_ne, ne_eq]
    omega
  · simp only [isSign, Bool.or_eq_true, beq_iff_eq] at hb
    simp only [bne_iff_ne, ne_eq]
    omega

theorem splitAtComma_numeral (h : isNumeral numeral = true) (key : Bytes) :
    splitAtComma (numeral ++ 0x2C::key) = some (numeral,key) := by
  have hcomma : ∀ b ∈ (0x2C::key).head?, (b != 0x2C) = false := by simp
  obtain ⟨htake,hdrop⟩ := run_ends (comma_not_numeral h) hcomma
  simp [splitAtComma, htake, hdrop]

theorem splitAtComma_spec (h : splitAtComma line = some (text,key)) :
    line = text ++ 0x2C::key := by
  unfold splitAtComma at h
  split at h
  · contradiction
  · rename_i b after heq
    have hb : b = 0x2C := by
      have := List.head?_dropWhile_not (· != 0x2C) line
      rw [heq] at this
      simpa using this
    subst hb
    cases h
    rw [← heq, List.takeWhile_append_dropWhile]

/-- A line with a comma is a command in one way only. -/
theorem command_split (hsplit : splitAtComma line = some (text,key)) {rank dstNodeId : Fin n} :
    Command rank line dstNodeId code ↔
      isNumeral text = true ∧ signedValue text = dstNodeId.val ∧ find key = some code := by
  constructor
  · intro h
    cases h with
    | shutdown => cases hsplit
    | start => cases hsplit
    | addressed hnumeral hvalue hkey =>
      rw [splitAtComma_numeral hnumeral] at hsplit
      cases hsplit
      exact ⟨hnumeral,hvalue,hkey⟩
  · rintro ⟨hnumeral,hvalue,hkey⟩
    rw [splitAtComma_spec hsplit]
    exact .addressed hnumeral hvalue hkey

/-- One without is a command if it is one of the two words. -/
theorem command_plain (hsplit : splitAtComma line = none) {rank dstNodeId : Fin n} :
    Command rank line dstNodeId code ↔ dstNodeId = rank ∧
      (line = shutdownLine ∧ code = .shutdown ∨ line = startLine ∧ code = .start) := by
  constructor
  · intro h
    cases h with
    | shutdown => exact ⟨rfl,.inl ⟨rfl,rfl⟩⟩
    | start => exact ⟨rfl,.inr ⟨rfl,rfl⟩⟩
    | addressed hnumeral =>
      rw [splitAtComma_numeral hnumeral] at hsplit
      contradiction
  · rintro ⟨rfl,⟨rfl,rfl⟩ | ⟨rfl,rfl⟩⟩
    · exact .shutdown
    · exact .start

theorem find_shutdownLine : find shutdownLine = some .shutdown := by decide

theorem find_startLine : find startLine = some .start := by decide

/-- Without a comma nothing can go wrong. -/
theorem plain_follows (hsplit : splitAtComma line = none) (rank : Fin n) (wtime : Nat)
    (output : Output) :
    FollowsGrammar rank wtime line output (parseLine rank wtime line output) := by
  have hrank : (0 : Int) ≤ rank.val ∧ (rank.val : Int) < n := by
    have := rank.isLt
    omega
  by_cases hword : line = shutdownLine ∨ line = startLine
  · have hparse : parseLine rank wtime line output =
        .ok (parseCode rank wtime line { output with dstNodeId := rank }) := by
      simp [parseLine, hsplit, hword]
    rw [hparse]
    refine ⟨fun dstNodeId code h => ?_,fun h => ?_⟩
    · obtain ⟨rfl,⟨rfl,rfl⟩ | ⟨rfl,rfl⟩⟩ := (command_plain hsplit).mp h
      · simp [parseCode, hrank, find_shutdownLine]
      · simp [parseCode, hrank, find_startLine]
    · rcases hword with rfl | rfl
      · exact absurd (.shutdown) (h rank .shutdown)
      · exact absurd (.start) (h rank .start)
  · have hparse : parseLine rank wtime line output = .ok output := by
      simp [parseLine, hsplit, hword]
    rw [hparse]
    refine ⟨fun dstNodeId code h => ?_,fun _ => ⟨rfl,rfl⟩⟩
    obtain ⟨-,⟨h,-⟩ | ⟨h,-⟩⟩ := (command_plain hsplit).mp h
    · exact absurd (.inl h) hword
    · exact absurd (.inr h) hword

/-- A destination that is no node, or a text that is no command: only `dstNodeId` is set. -/
theorem parseCode_passed (rank : Fin n) (wtime : Nat) (output : Output)
    (h : ¬ (0 ≤ output.dstNodeId ∧ output.dstNodeId < n) ∨ find key = none) :
    parseCode rank wtime key output = output := by
  unfold parseCode
  rcases h with h | h
  · rw [if_neg h]
  · simp [h]

/-- With a comma, and a number before it. -/
theorem parseLine_number (hsplit : splitAtComma line = some (text,key))
    (hstoi : stoi text = .ok value) (rank : Fin n) (wtime : Nat) (output : Output) :
    parseLine rank wtime line output =
      .ok (parseCode rank wtime key { output with dstNodeId := value }) := by
  simp only [parseLine, hsplit, hstoi]
  rfl

theorem harmless_follows (hsplit : splitAtComma line = some (text,key))
    (h : Harmless n text key) (rank : Fin n) (wtime : Nat) (output : Output) :
    FollowsGrammar rank wtime line output (parseLine rank wtime line output) := by
  obtain ⟨blanks,numeral,rest,hstarts,hfits,hcase⟩ := h
  have hstoi : stoi text = .ok (signedValue numeral) := by rw [stoi_starts hstarts, if_pos hfits]
  rw [parseLine_number hsplit hstoi]
  by_cases hpassed : ¬ (0 ≤ signedValue numeral ∧ signedValue numeral < n) ∨ find key = none
  · rw [parseCode_passed rank wtime { output with dstNodeId := signedValue numeral } hpassed]
    refine ⟨fun dstNodeId code hcommand => ?_,fun _ => ⟨rfl,rfl⟩⟩
    obtain ⟨hnumeral,hvalue,hkey⟩ := (command_split hsplit).mp hcommand
    -- The text is a numeral itself, so it is the number that `stoi` has read.
    have hsame : signedValue text = signedValue numeral := by
      rw [stoi_starts (startsWith_numeral hnumeral)] at hstoi
      split at hstoi
      · exact Except.ok.inj hstoi
      · contradiction
    have hlt := dstNodeId.isLt
    rcases hpassed with hpassed | hpassed
    · omega
    · simp [hpassed] at hkey
  · simp only [not_or, not_not] at hpassed
    obtain ⟨hrange,hknown⟩ := hpassed
    obtain ⟨code,hkey⟩ := Option.ne_none_iff_exists'.mp hknown
    obtain ⟨rfl,rfl⟩ : blanks = [] ∧ rest = [] := by
      rcases hcase with hcase | hcase | hcase
      · exact hcase
      · exact absurd hrange hcase
      · exact absurd hcase hknown
    have htext : text = numeral := by simpa using hstarts.split
    subst htext
    have hset : parseCode rank wtime key { output with dstNodeId := signedValue text } =
        { receivedMessage := setMessage rank wtime code, messageReceived := true,
          dstNodeId := signedValue text } := by
      simp [parseCode, hrange, hkey]
    rw [hset]
    refine ⟨fun dstNodeId code' hcommand => ?_,fun hnone => ?_⟩
    · obtain ⟨-,hvalue,hkey'⟩ := (command_split hsplit).mp hcommand
      rw [hkey] at hkey'
      cases hkey'
      rw [hvalue]
    · have hlt : (signedValue text).toNat < n := by omega
      refine absurd ((command_split hsplit).mpr ⟨hstarts.numeral,?_,hkey⟩)
        (hnone ⟨(signedValue text).toNat,hlt⟩ code)
      show signedValue text = ((signedValue text).toNat : Int)
      omega

/-- What a line with a comma must be, if nothing is to go wrong. -/
theorem harmless_of_follows (hsplit : splitAtComma line = some (text,key)) {rank : Fin n}
    {wtime : Nat} (h : ∀ output, FollowsGrammar rank wtime line output
      (parseLine rank wtime line output)) : Harmless n text key := by
  let output : Output := {
    receivedMessage := { tag := 0, code := 0, id := 0 }, messageReceived := false, dstNodeId := 0 }
  have hfollows := h output
  cases hstoi : stoi text with
  | error e =>
    have hparse : parseLine rank wtime line output = .error e := by
      simp only [parseLine, hsplit, hstoi]
      rfl
    rw [hparse] at hfollows
    exact hfollows.elim
  | ok value =>
    rw [parseLine_number hsplit hstoi] at hfollows
    obtain ⟨blanks,numeral,rest,hstarts,hfits,rfl⟩ := stoi_ok hstoi
    refine ⟨blanks,numeral,rest,hstarts,hfits,?_⟩
    by_cases hexact : blanks = [] ∧ rest = []
    · exact .inl hexact
    by_cases hrange : 0 ≤ signedValue numeral ∧ signedValue numeral < n
    · cases hkey : find key with
      | none => exact .inr (.inr rfl)
      | some code =>
        -- The message is set, although the text is more than a number.
        have hnone : ∀ dstNodeId code, ¬ Command rank line dstNodeId code := by
          intro dstNodeId code' hcommand
          obtain ⟨hnumeral,-,-⟩ := (command_split hsplit).mp hcommand
          exact hexact (startsWith_more hstarts hnumeral)
        have hkept := (hfollows.2 hnone).1
        simp [parseCode, hrange, hkey, output] at hkept
    · exact .inr (.inl hrange)

/-- The parser does what its grammar says on a line, whatever it finds in its output, exactly
when the line has no comma or a harmless text before it. -/
theorem follows_grammar_iff (rank : Fin n) (wtime : Nat) (line : Bytes) :
    (∀ output, FollowsGrammar rank wtime line output (parseLine rank wtime line output)) ↔
      ∀ text key, splitAtComma line = some (text,key) → Harmless n text key := by
  constructor
  · intro h text key hsplit
    exact harmless_of_follows hsplit h
  · intro h output
    cases hsplit : splitAtComma line with
    | none => exact plain_follows hsplit rank wtime output
    | some parts => exact harmless_follows hsplit (h parts.1 parts.2 hsplit) rank wtime output

/-- The test for an empty line changes nothing. -/
theorem fetchMessage_eq (rank : Fin n) (wtime : Nat) (line : Bytes) (output : Output) :
    fetchMessage rank wtime line output = parseLine rank wtime line output := by
  unfold fetchMessage
  cases line with
  | nil => rfl
  | cons b line => rfl

/-- The line `x,crash` kills the thread that reads it. -/
theorem line_throws : ¬ ∀ output : Output, FollowsGrammar (0 : Fin 2) 5
    (0x78::0x2C::ascii ['c','r','a','s','h']) output
    (parseLine (0 : Fin 2) 5 (0x78::0x2C::ascii ['c','r','a','s','h']) output) := by
  intro h
  exact h { receivedMessage := { tag := 0, code := 0, id := 0 }, messageReceived := false,
            dstNodeId := 0 }

end Algorep.Proofs
