import Algorep.Kit.Lockstep
import Algorep.Program.TurnFile
import Algorep.Proofs.ClientTurns
import Algorep.Proofs.JsonRoundTrip
import Algorep.Proofs.ReplLines
import Mathlib.Algebra.GroupWithZero.Nat

namespace Algorep.Proofs
open Kit Program Program.TurnFile
open Program.Json Program.Repl
open Program.Client (TurnLine isUp)

/-! The lines of the turn file, and its bytes. -/

theorem dumpInteger_natCast (k : Nat) : dumpInteger (k : Int) = decimal k := by
  simp [dumpInteger_eq]

theorem decimal_ne_nil (k : Nat) : decimal k ≠ [] := by
  by_cases hk : k = 0
  · subst hk
    decide
  · obtain ⟨d,ds,heq,-⟩ := decimal_cons hk
    simp [heq]

theorem isNumeral_decimal (k : Nat) : isNumeral (decimal k) = true :=
  isNumeral_iff.mpr ⟨[],decimal k,rfl,decimal_ne_nil k,fun _ => isDigit_decimal,.inl rfl⟩

theorem signedValue_decimal (k : Nat) : signedValue (decimal k) = k := by
  have hvalue := naturalOf_decimal k
  have hdigits : ∀ b ∈ decimal k, isDigit b = true := fun _ => isDigit_decimal
  generalize decimal k = digits at hvalue hdigits
  cases digits with
  | nil => simp [signedValue, hvalue]
  | cons b bs =>
    have hb := hdigits b List.mem_cons_self
    unfold signedValue
    split
    · rename_i heq
      cases heq
      contradiction
    · rename_i heq
      cases heq
      contradiction
    · rw [hvalue]

theorem stoi_decimal (hk : k < 2 ^ 31) : stoi (decimal k) = .ok (k : Int) := by
  rw [stoi_starts (startsWith_numeral (isNumeral_decimal k)), signedValue_decimal]
  have hfits : fitsInt (k : Int) = true := by
    simp only [fitsInt, Bool.and_eq_true, decide_eq_true_eq]
    omega
  rw [if_pos hfits]

/-- An `int` stands in the line, if it is a turn. -/
def lineFits : TurnLine → Prop
  | .turn clientId => clientId < 2 ^ 31
  | .shutdown => True

theorem text_ends (l : TurnLine) : 0x0A ∉ text l := by
  cases l with
  | shutdown => decide
  | turn k =>
    rw [text, dumpInteger_natCast]
    intro hmem
    have hdigit := isDigit_decimal hmem
    contradiction

theorem text_ne_nil (l : TurnLine) : (text l).isEmpty = false := by
  cases l with
  | shutdown => rfl
  | turn k =>
    rw [text, dumpInteger_natCast]
    simpa using decimal_ne_nil k

theorem decimal_ne_shutdownLine (k : Nat) : decimal k ≠ shutdownLine := by
  intro heq
  have hmem : 0x73 ∈ decimal k := by
    rw [heq]
    decide
  have hdigit := isDigit_decimal hmem
  contradiction

/-- A turn of the loop that reads a line. -/
theorem waitForTurn_line {place place' : Nat} (hl : lineFits l)
    (hnext : nextLine 0x0A turnFile place = (text l,place')) (clientId : Nat) :
    waitForTurn clientId turnFile place = .ok (isUp clientId l,text l,place') := by
  unfold waitForTurn
  rw [hnext]
  cases l with
  | shutdown => rfl
  | turn k =>
    have hne := text_ne_nil (.turn k)
    rw [text, dumpInteger_natCast] at hne ⊢
    simp only [hne, Bool.false_eq_true, decimal_ne_shutdownLine, or_self, if_false,
      stoi_decimal hl]
    have hup : ((k : Int) != clientId) = isUp clientId (.turn k) := by
      rw [Bool.eq_iff_iff]
      simp only [isUp, bne_iff_ne, ne_eq, Bool.and_eq_true, reduceCtorEq, not_false_eq_true, true_and,
        TurnLine.turn.injEq, Int.ofNat_inj]
    rw [← hup]
    rfl

/-- One at the end of the file. -/
theorem waitForTurn_end {place : Nat}
    (hnext : nextLine 0x0A turnFile place = ([],place)) (clientId : Nat) :
    waitForTurn clientId turnFile place = .ok (true,[],place) := by
  unfold waitForTurn
  rw [hnext]
  rfl

/-! The clients go along with the session over lines. -/

/-- The client has the same place, and nothing has been thrown. -/
structure SameClient (turnFile : List TurnLine) (c : TurnFile.State) (c' : Client.State) :
    Prop where
  client : c.client = { c' with turnCursor := 0 }
  place : ReadTo 0x0A (turnFile.map text) ((turnFile.take c'.turnCursor).map text) c.turnIfs
  behind : c'.turnCursor ≤ turnFile.length
  running : c.terminated = false

/-- Where the turn file plays no part, the place in it does not either. -/
theorem act_aside (ha : a ≠ .poll) (hset : a ≠ .setTurn) (clientId clientCount : Nat)
    (turnFile : List TurnLine) (c : Client.State) :
    Option.Rel (fun p p' => p.1 = { p'.1 with turnCursor := 0 } ∧
        p'.1.turnCursor = c.turnCursor ∧ p'.2.1 = [] ∧ p.2.2 = p'.2.2)
      (Client.act clientId clientCount [] { c with turnCursor := 0 } a)
      (Client.act clientId clientCount turnFile c a) := by
  obtain ⟨line,commandIfs,cursor,phase⟩ := c
  cases a <;> cases phase <;>
    first | contradiction | exact .none | exact .some ⟨rfl,rfl,rfl,rfl⟩

theorem turnFile_act_aside (ha : a ≠ .poll) (hset : a ≠ .setTurn) {c : TurnFile.State}
    (hrunning : c.terminated = false) (clientId clientCount : Nat) (turnFile : Bytes) :
    TurnFile.act clientId clientCount turnFile c a =
      (Client.act clientId clientCount [] c.client a).map (fun p =>
        ({ c with client := p.1 },[],p.2.2.map Event.ofLine)) := by
  unfold TurnFile.act
  rw [hrunning]
  cases a <;> first | contradiction | rfl

/-- The line that a client reads next, if there is one. -/
theorem next_text {turnFile : List TurnLine} {place : Nat} (hk : k ≤ turnFile.length)
    (h : ReadTo 0x0A (turnFile.map text) ((turnFile.take k).map text) place) :
    (turnFile[k]? = none ∧
      nextLine 0x0A (lined 0x0A (turnFile.map text)) place = ([],place)) ∨
    ∃ l place', turnFile[k]? = some l ∧
      nextLine 0x0A (lined 0x0A (turnFile.map text)) place = (text l,place') ∧
      ReadTo 0x0A (turnFile.map text) ((turnFile.take (k + 1)).map text) place' := by
  have hends : ∀ line ∈ turnFile.map text, 0x0A ∉ line := by
    intro line hline
    obtain ⟨l,-,rfl⟩ := List.mem_map.mp hline
    exact text_ends l
  rcases h.next hends with ⟨hall,hend⟩ | ⟨line,place',hnext,hread⟩
  · have hlength := congrArg List.length hall
    simp only [List.length_map, List.length_take] at hlength
    exact .inl ⟨List.getElem?_eq_none (by omega),hend⟩
  · have hlength := hread.seen_prefix.length_le
    simp only [List.length_append, List.length_map, List.length_take, List.length_cons,
      List.length_nil] at hlength
    have hlt : k < turnFile.length := by omega
    have htake : (turnFile.take k).map text ++ [line] = (turnFile.take (k + 1)).map text := by
      have heq := List.prefix_iff_eq_take.mp hread.seen_prefix
      rw [← List.map_take] at heq
      simpa [Nat.min_eq_left hk] using heq
    have hline : line = text turnFile[k] := by
      rw [List.take_add_one, List.getElem?_eq_getElem hlt, Option.toList_some, List.map_append]
        at htake
      simpa using List.append_cancel_left htake
    rw [htake] at hread
    rw [hline] at hnext
    exact .inr ⟨_,place',List.getElem?_eq_getElem hlt,hnext,hread⟩

/-- What a client does at its place in the bytes it does at its place in the lines. -/
theorem act_same {turnFile : List TurnLine} (hlines : ∀ l ∈ turnFile, lineFits l)
    (hc : SameClient turnFile c c') (i m : Nat) (a : Client.Action) :
    Option.Rel (fun p p' => SameClient (turnFile ++ p'.2.1) p.1 p'.1 ∧
        p.2.1 = lined 0x0A (p'.2.1.map text) ∧ p.2.2 = p'.2.2.map Event.ofLine)
      (TurnFile.act i m (lined 0x0A (turnFile.map text)) c a) (Client.act i m turnFile c' a) := by
  obtain ⟨client,place,terminated⟩ := c
  obtain ⟨hclient,hplace,hbehind,hrunning⟩ := hc
  simp only at hclient hrunning hplace
  subst hclient hrunning
  by_cases ha : a = .poll
  · subst ha
    cases hphase : c'.phase with
    | waiting =>
      simp only [TurnFile.act, Client.act, hphase, Bool.false_eq_true, if_false]
      rcases next_text hbehind hplace with ⟨hnone,hend⟩ | ⟨l,place',hget,hnext,hread⟩
      · simp only [TurnFile.poll, waitForTurn_end hend, Client.poll, hnone]
        refine .some ⟨⟨?_,?_,?_,rfl⟩,rfl,rfl⟩
        · simp [hphase]
        · simpa using hplace
        · simpa using hbehind
      · have hl := hlines l (List.mem_of_getElem? hget)
        simp only [TurnFile.poll, waitForTurn_line hl hnext, Client.poll, hget, text_ne_nil]
        have hlt := (List.getElem?_eq_some_iff.mp hget).1
        refine .some ⟨⟨rfl,?_,?_,rfl⟩,rfl,rfl⟩
        · simpa using hread
        · rw [List.append_nil]
          exact hlt
    | _ =>
      simp only [TurnFile.act, Client.act, hphase, Bool.false_eq_true, if_false]
      exact .none
  by_cases hset : a = .setTurn
  · subst hset
    cases hphase : c'.phase with
    | settingTurn =>
      simp only [TurnFile.act, Client.act, hphase, Bool.false_eq_true, if_false]
      refine .some ⟨⟨rfl,?_,?_,rfl⟩,?_,rfl⟩
      · rw [List.map_append, List.take_append_of_le_length hbehind]
        exact hplace.append _
      · simp only [List.length_append]
        omega
      · simp [TurnFile.setTurn, Client.nextTurn, text]
    | _ =>
      simp only [TurnFile.act, Client.act, hphase, Bool.false_eq_true, if_false]
      exact .none
  rw [turnFile_act_aside ha hset rfl]
  have haside := act_aside ha hset i m turnFile c'
  dsimp only
  generalize Client.act i m [] { c' with turnCursor := 0 } a = p at haside
  generalize Client.act i m turnFile c' a = p' at haside
  cases haside with
  | none => exact .none
  | some hp =>
    obtain ⟨hclient,hcursor,hfile,hevents⟩ := hp
    refine .some ⟨⟨hclient,?_,?_,rfl⟩,?_,?_⟩
    · rw [hfile, List.append_nil, hcursor]
      exact hplace
    · rw [hfile, List.append_nil, hcursor]
      exact hbehind
    · rw [hfile]
      rfl
    · exact congrArg (List.map Event.ofLine) hevents

/-- The sessions agree at every client, and on what has been written. -/
structure SameTurns (s : TurnFile.Session m) (s' : Client.Session m) : Prop where
  file : s.turnFile = lined 0x0A (s'.turnFile.map text)
  fits : ∀ l ∈ s'.turnFile, lineFits l
  clients : ∀ i, SameClient s'.turnFile (s.clients i) (s'.clients i)

/-- What a client leaves in the history, line by line. -/
def ofLines (x : Fin m × Client.Event) : Fin m × TurnFile.Event := (x.1,Event.ofLine x.2)

theorem SameClient.append (h : SameClient turnFile c c') (more : List TurnLine) :
    SameClient (turnFile ++ more) c c' := by
  refine ⟨h.client,?_,?_,h.running⟩
  · rw [List.map_append, List.take_append_of_le_length h.behind]
    exact h.place.append _
  · have hbehind := h.behind
    rw [List.length_append]
    omega

theorem written_fits (hm : m ≤ 2 ^ 31) {c' c'' : Client.State} (i : Fin m)
    (h : Client.act i.val m file c' a = some (c'',ls,es)) : ∀ l ∈ ls, lineFits l := by
  cases acted_of_act h with
  | setsTurn =>
    have hlt := Nat.mod_lt (i.val + 1) i.pos
    intro l hl
    rw [List.mem_singleton.mp hl]
    exact Nat.lt_of_lt_of_le hlt hm
  | quiet | passes | admitted | enters => simp

/-- Over bytes or over lines, the clients take the same steps. -/
theorem turnFile_lockstep (hm : m ≤ 2 ^ 31) (files : Fin m → List Char) :
    (TurnFile.session files).Lockstep (Client.session files) SameTurns ofLines := by
  have hzero : ([0x30,0x0A] : Bytes) = lined 0x0A [text (.turn 0)] := by decide
  refine ⟨⟨hzero,by simp [Client.session, lineFits],fun i => ?_⟩,?_⟩
  · exact ⟨rfl,.start _ _,Nat.zero_le _,rfl⟩
  · intro s s' l h
    cases l with
    | shutdown =>
      refine .some ⟨⟨?_,?_,fun i => (h.clients i).append _⟩,rfl⟩
      · simp [h.file, text]
      · intro l hl
        rcases List.mem_append.mp hl with hl | hl
        · exact h.fits l hl
        · rw [List.mem_singleton.mp hl]
          trivial
    | act i a =>
      have hsame := act_same h.fits (h.clients i) i.val m a
      rw [← h.file] at hsame
      simp only [TurnFile.session, Client.session, TurnFile.step, Client.step]
      generalize TurnFile.act i.val m s.turnFile (s.clients i) a = p at hsame
      generalize hact : Client.act i.val m s'.turnFile (s'.clients i) a = p' at hsame
      cases hsame with
      | none => exact .none
      | @some p p' hp =>
        obtain ⟨hclient,hfile,hevents⟩ := hp
        refine .some ⟨⟨?_,?_,fun j => ?_⟩,?_⟩
        · simp [h.file, hfile]
        · intro l hl
          rcases List.mem_append.mp hl with hl | hl
          · exact h.fits l hl
          · exact written_fits hm i hact l hl
        · by_cases hj : j = i
          · subst hj
            simpa using hclient
          · simpa [hj] using (h.clients j).append _
        · simp [hevents, ofLines]

/-- The turn file may be read and written as bytes: what the clients do is what they do over
its lines, no text is taken for a turn that it is not, and none throws. -/
theorem turn_file_has_lines (hm : m ≤ 2 ^ 31) (files : Fin m → List Char) :
    (∀ s es, (TurnFile.session files).Reach Machine.free s es →
      ∃ s' es', (Client.session files).Reach Machine.free s' es' ∧ SameTurns s s' ∧
        es = es'.map ofLines) ∧
    ∀ s' es', (Client.session files).Reach Machine.free s' es' →
      ∃ s, (TurnFile.session files).Reach Machine.free s (es'.map ofLines) ∧ SameTurns s s' :=
  ⟨fun _ _ hr => (turnFile_lockstep hm files).reach (fun _ _ _ _ _ _ => trivial) hr,
    fun _ _ hr => (turnFile_lockstep hm files).reach_back (fun _ _ _ _ _ _ => trivial) hr⟩

theorem secondEnters_bytes : ((TurnFile.session oneEach).follow (fun _ _ _ => true) secondEnters
    (TurnFile.session oneEach).start []).map (fun p => p.1.turnFile) =
      some [0x30,0x0A,0x31,0x0A] := by
  decide

theorem turn_file_has_lines_secondEnters : ∃ (s : TurnFile.Session 2)
    (es : List (Fin 2 × TurnFile.Event)), (TurnFile.session oneEach).Reach Machine.free s es ∧
    s.turnFile = [0x30,0x0A,0x31,0x0A] ∧
    ∃ s' es', (Client.session oneEach).Reach Machine.free s' es' ∧ SameTurns s s' ∧
      es = es'.map ofLines := by
  obtain ⟨s,es,hr,hfile⟩ := Machine.exists_reach (fun _ _ _ _ => trivial) secondEnters_bytes
  exact ⟨s,es,hr,hfile,(turn_file_has_lines (by decide) oneEach).1 s es hr⟩

/-- The clients in the order in which `waitForTurn` has returned to them. -/
def bytesEntrances (es : List (Fin m × TurnFile.Event)) : List Nat :=
  es.filterMap (fun x => if x.2 = .entered then some x.1.val else none)

theorem bytesEntrances_ofLines (es : Client.History m) :
    bytesEntrances (es.map ofLines) = entrances es := by
  unfold bytesEntrances entrances
  rw [List.filterMap_map]
  congr 1
  funext x
  obtain ⟨i,e⟩ := x
  cases e <;> rfl

/-- So the clients take turns over the bytes, one at a time and in cyclic order, as long as
nobody shuts them down. -/
theorem bytes_take_turns (hm : m ≤ 2 ^ 31) (files : Fin m → List Char)
    (hr : (TurnFile.session files).Reach (fun _ _ l => l ≠ .shutdown) s es) :
    (∀ i j, inTurn (s.clients i).client = true → inTurn (s.clients j).client = true → i = j) ∧
    ∃ k, bytesEntrances es = (List.range k).map (· % m) := by
  have hlines : ∃ s' es', (Client.session files).Reach unshut s' es' ∧ SameTurns s s' ∧
      es = es'.map ofLines :=
    (turnFile_lockstep hm files).reach (fun _ _ _ _ _ hl => hl) hr
  obtain ⟨s',es',hr',hsame,rfl⟩ := hlines
  obtain ⟨T,E,h⟩ := reach_turns (unread_of_unshut hr')
  have hturn : ∀ i, inTurn (s.clients i).client = inTurn (s'.clients i) := by
    intro i
    rw [(hsame.clients i).client]
    rfl
  refine ⟨fun i j hi hj => ?_,E,(bytesEntrances_ofLines es').trans h.order⟩
  rw [hturn] at hi hj
  exact h.unique (inTurn_hasTurn hi) (inTurn_hasTurn hj)

end Algorep.Proofs
