import Algorep.Program.Console
import Algorep.Proofs.ReplLines

namespace Algorep.Proofs
open Kit Program Program.Console
open Program.Json Program.Reception Program.Repl

/-! What a line of the repl file is to the server that reads it. -/

/-- The commands to a node. The number may have blanks before it, and whatever is no digit
behind it. -/
inductive Orders (rank : Fin n) : Bytes → ReplCode → Prop
  | shutdown : Orders rank shutdownLine .shutdown
  | start : Orders rank startLine .start
  | addressed (hcomma : 0x2C ∉ text) (hstarts : StartsWith text blanks numeral rest)
      (hfits : fitsInt (signedValue numeral) = true) (hvalue : signedValue numeral = rank.val)
      (hkey : find key = some code) : Orders rank (text ++ 0x2C::key) code

/-- There is a comma, and no number that an `int` holds at the beginning. -/
def Throws (line : Bytes) : Prop :=
  ∃ text key, 0x2C ∉ text ∧ line = text ++ 0x2C::key ∧
    ∀ blanks numeral rest, StartsWith text blanks numeral rest →
      fitsInt (signedValue numeral) = false

theorem splitAtComma_text (h : 0x2C ∉ text) (key : Bytes) :
    splitAtComma (text ++ 0x2C::key) = some (text,key) := by
  have hbody : ∀ b ∈ text, (b != 0x2C) = true := by
    intro b hb
    simpa using fun he : b = 0x2C => h (he ▸ hb)
  have hstop : ∀ b ∈ (0x2C::key).head?, (b != 0x2C) = false := by simp
  obtain ⟨htake,hdrop⟩ := run_ends hbody hstop
  simp [splitAtComma, htake, hdrop]

theorem splitAtComma_iff : splitAtComma line = some (text,key) ↔
    0x2C ∉ text ∧ line = text ++ 0x2C::key := by
  constructor
  · intro h
    refine ⟨?_,splitAtComma_spec h⟩
    unfold splitAtComma at h
    split at h
    · contradiction
    · cases h
      intro hmem
      simpa using List.all_eq_true.mp List.all_takeWhile _ hmem
  · rintro ⟨hcomma,rfl⟩
    exact splitAtComma_text hcomma key

theorem stoi_error (h : stoi text = .error e) (hs : StartsWith text blanks numeral rest) :
    fitsInt (signedValue numeral) = false := by
  rw [stoi_starts hs] at h
  split at h
  · contradiction
  · rename_i hfits
    simpa using hfits

/-- A line throws, or is read to its end. -/
theorem fetchMessage_throws {rank : Fin n} (h : fetchMessage rank wtime line output = .error e) :
    Throws line := by
  rw [fetchMessage_eq] at h
  unfold parseLine at h
  split at h
  · rename_i text key hsplit
    obtain ⟨hcomma,rfl⟩ := splitAtComma_iff.mp hsplit
    refine ⟨text,key,hcomma,rfl,fun blanks numeral rest hs => ?_⟩
    cases hstoi : stoi text with
    | error e' => exact stoi_error hstoi hs
    | ok value =>
      rw [hstoi] at h
      contradiction
  · split at h <;> contradiction

theorem fetchMessage_reads {rank : Fin n} (h : fetchMessage rank wtime line output = .ok output') :
    ¬ Throws line := by
  rintro ⟨text,key,hcomma,rfl,hnone⟩
  rw [fetchMessage_eq] at h
  simp only [parseLine, splitAtComma_text hcomma] at h
  cases hstoi : stoi text with
  | error e =>
    rw [hstoi] at h
    contradiction
  | ok value =>
    obtain ⟨blanks,numeral,rest,hs,hfits,-⟩ := stoi_ok hstoi
    rw [hnone _ _ _ hs] at hfits
    contradiction

theorem getCode_setMessage (rank : Fin n) (wtime : Nat) (code : ReplCode) :
    getCode (setMessage rank wtime code) = some code := by
  cases code <;> rfl

/-- What `parseCode` makes of a number and the text behind the comma. -/
theorem commandTo_parseCode (rank : Fin n) (wtime : Nat) (key : Bytes) (m : MessageObject)
    (dst : Int) : commandTo rank (parseCode rank wtime key
      { receivedMessage := m, messageReceived := false, dstNodeId := dst }) =
    if dst = rank.val then find key else none := by
  have hlt := rank.isLt
  unfold parseCode commandTo
  split
  · cases hkey : find key with
    | none => simp
    | some code => simp [getCode_setMessage]
  · rename_i hrange
    have hne : dst ≠ rank.val := by
      rintro rfl
      simp at hrange
    simp [hne]

theorem shutdownLine_ne : shutdownLine ≠ startLine := by decide

theorem orders_split (hsplit : splitAtComma line = some (text,key)) {rank : Fin n} :
    Orders rank line code ↔ (∃ blanks numeral rest, StartsWith text blanks numeral rest ∧
      fitsInt (signedValue numeral) = true ∧ signedValue numeral = rank.val) ∧
      find key = some code := by
  obtain ⟨hcomma,hline⟩ := splitAtComma_iff.mp hsplit
  constructor
  · intro h
    cases h with
    | shutdown | start => cases hsplit
    | addressed hcomma' hstarts hfits hvalue hkey =>
      rw [splitAtComma_text hcomma'] at hsplit
      cases hsplit
      exact ⟨⟨_,_,_,hstarts,hfits,hvalue⟩,hkey⟩
  · rintro ⟨⟨blanks,numeral,rest,hstarts,hfits,hvalue⟩,hkey⟩
    exact hline ▸ .addressed hcomma hstarts hfits hvalue hkey

theorem orders_plain (hsplit : splitAtComma line = none) {rank : Fin n} :
    Orders rank line code ↔
      (line = shutdownLine ∧ code = .shutdown) ∨ (line = startLine ∧ code = .start) := by
  constructor
  · intro h
    cases h with
    | shutdown => exact .inl ⟨rfl,rfl⟩
    | start => exact .inr ⟨rfl,rfl⟩
    | addressed hcomma =>
      rw [splitAtComma_text hcomma] at hsplit
      contradiction
  · rintro (⟨rfl,rfl⟩ | ⟨rfl,rfl⟩)
    · exact .shutdown
    · exact .start

/-- What the thread takes for a command to its node is one, and nothing else is. -/
theorem fetchMessage_orders {rank : Fin n} (h : fetchMessage rank wtime line
      { receivedMessage := m, messageReceived := false, dstNodeId := dst } = .ok output) :
    commandTo rank output = some code ↔ Orders rank line code := by
  rw [fetchMessage_eq] at h
  unfold parseLine at h
  split at h
  · rename_i text key hsplit
    rw [orders_split hsplit]
    cases hstoi : stoi text with
    | error e =>
      rw [hstoi] at h
      contradiction
    | ok value =>
      rw [hstoi] at h
      cases h
      obtain ⟨blanks,numeral,rest,hstarts,hfits,hvalue⟩ := stoi_ok hstoi
      rw [commandTo_parseCode]
      constructor
      · intro hcommand
        simp only [Option.ite_none_right_eq_some] at hcommand
        exact ⟨⟨blanks,numeral,rest,hstarts,hfits,hvalue.trans hcommand.1⟩,hcommand.2⟩
      · rintro ⟨⟨blanks',numeral',rest',hstarts',hfits',hvalue'⟩,hkey⟩
        rw [stoi_starts hstarts', if_pos hfits'] at hstoi
        rw [if_pos ((Except.ok.inj hstoi).symm.trans hvalue'), hkey]
  · rename_i hsplit
    rw [orders_plain hsplit]
    split at h
    · rename_i hline
      cases h
      rw [commandTo_parseCode, if_pos rfl]
      rcases hline with rfl | rfl
      · simp only [find_shutdownLine, Option.some.injEq, true_and, shutdownLine_ne, false_and,
          or_false]
        exact eq_comm
      · simp only [find_startLine, Option.some.injEq, true_and, shutdownLine_ne.symm, false_and,
          false_or]
        exact eq_comm
    · rename_i hline
      cases h
      simp only [not_or] at hline
      simp [commandTo, hline]

end Algorep.Proofs
