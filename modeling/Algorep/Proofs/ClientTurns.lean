import Algorep.Kit.Before
import Algorep.Program.Client
import Mathlib.Data.List.TakeWhile

namespace Algorep.Proofs
open Kit Program Program.Client

/-- Inside `replicate`. -/
def replicates (client : State) : Bool :=
  match client.phase with
  | .connecting | .sending | .awaiting | .hangingUp _ => true
  | _ => false

/-- Between the return of `waitForTurn` and the completion of the next `setTurn`. -/
def inTurn (client : State) : Bool :=
  match client.phase with
  | .settingTurn => true
  | _ => replicates client

/-- In its turn, or let into it by the last line it read. -/
def hasTurn (client : State) : Bool :=
  match client.phase with
  | .admitted => true
  | _ => inTurn client

/-- The clients in the order in which `waitForTurn` has returned to them. -/
def entrances (es : Client.History m) : List Nat :=
  es.filterMap (fun x => if x.2 = .entered then some x.1.val else none)

/-- The step is a poll of `waitForTurn` that finds the shutdown line. -/
def readsShutdown (s : Session m) : Client.Move m → Bool
  | .act i .poll => (s.clients i).phase == .waiting &&
      s.turnFile[(s.clients i).turnCursor]? == some .shutdown
  | _ => false

/-- What a client's own step can do to its place in the turns. -/
inductive Acted (i m : Nat) (file : List TurnLine) (c : State) (a : Client.Action) :
    State → List TurnLine → List Client.Event → Prop
  | quiet (hturn : hasTurn c' = hasTurn c) (hin : inTurn c' = inTurn c)
      (hcursor : c'.turnCursor = c.turnCursor) : Acted i m file c a c' [] []
  | passes (hphase : c.phase = .waiting) (hline : file[c.turnCursor]? = some l)
      (hup : isUp i l = true) :
      Acted i m file c a { c with turnCursor := c.turnCursor + 1, phase := .waiting } [] [.read l]
  | admitted (ha : a = .poll) (hphase : c.phase = .waiting) (hline : file[c.turnCursor]? = some l)
      (hup : isUp i l = false) :
      Acted i m file c a { c with turnCursor := c.turnCursor + 1, phase := .admitted } []
        [.read l]
  | enters (hphase : c.phase = .admitted) :
      Acted i m file c a { c with phase := .connecting } [] [.entered]
  | setsTurn (hphase : c.phase = .settingTurn) :
      Acted i m file c a { c with phase := .sleeping } [nextTurn i m] []

theorem acted_of_act {c c' : State} (h : Client.act i m file c a = some (c',ls,es)) :
    Acted i m file c a c' ls es := by
  unfold Client.act at h
  split at h <;> simp only [Option.some.injEq, Prod.mk.injEq, reduceCtorEq] at h
  case h_2 hphase =>
    obtain ⟨rfl,rfl,rfl⟩ := h
    unfold poll
    split
    · exact .quiet rfl rfl rfl
    · rename_i l hline
      cases hup : isUp i l with
      | true => simpa [hup] using .passes hphase hline hup
      | false => simpa [hup] using .admitted rfl hphase hline hup
  case h_3 hphase =>
    obtain ⟨rfl,rfl,rfl⟩ := h
    exact .enters hphase
  case h_9 hphase =>
    obtain ⟨rfl,rfl,rfl⟩ := h
    exact .setsTurn hphase
  case h_1 hphase =>
    obtain ⟨rfl,rfl,rfl⟩ := h
    cases hempty : (getline c.line c.commandIfs).1.isEmpty <;>
      exact .quiet (by simp [readCommand, hasTurn, inTurn, replicates, hphase, hempty])
        (by simp [readCommand, inTurn, replicates, hphase, hempty]) rfl
  case h_8 replicated hphase =>
    obtain ⟨rfl,rfl,rfl⟩ := h
    cases replicated <;>
      exact .quiet (by simp [hasTurn, inTurn, replicates, hphase])
        (by simp [inTurn, replicates, hphase]) rfl
  all_goals
    rename_i hphase
    obtain ⟨rfl,rfl,rfl⟩ := h
    exact .quiet (by simp [hasTurn, inTurn, replicates, hphase])
      (by simp [inTurn, replicates, hphase]) rfl

theorem inTurn_hasTurn {c : State} (h : inTurn c = true) : hasTurn c = true := by
  unfold hasTurn
  split <;> trivial

theorem admitted_iff {c : State} :
    c.phase = .admitted ↔ hasTurn c = true ∧ inTurn c = false := by
  cases hphase : c.phase <;> simp [hasTurn, inTurn, replicates, hphase]

theorem replicates_inTurn {c : State} (h : replicates c = true) : inTurn c = true := by
  unfold inTurn
  split <;> trivial

theorem session_step {s t : Session m} (h : (session files).step s l = some (t,e)) :
    (l = .shutdown ∧ t = { s with turnFile := s.turnFile ++ [.shutdown] } ∧ e = []) ∨
    ∃ i a c ls es, l = .act i a ∧
      Client.act i.val m s.turnFile (s.clients i) a = some (c,ls,es) ∧
      t = { clients := Function.update s.clients i c, turnFile := s.turnFile ++ ls } ∧
      e = es.map (fun x => (i,x)) := by
  cases l with
  | shutdown =>
    obtain ⟨rfl,rfl⟩ : _ ∧ _ := by simpa [session, Client.step, eq_comm] using h
    exact .inl ⟨rfl,rfl,rfl⟩
  | act i a =>
    simp only [session, Client.step, Option.map_eq_some_iff, Prod.mk.injEq] at h
    obtain ⟨⟨c,ls,es⟩,hact,rfl,rfl⟩ := h
    exact .inr ⟨i,a,c,ls,es,rfl,hact,rfl,rfl⟩

/-- The turn lines that can still let somebody in, as long as nobody reads on past
the shutdown line. -/
def openTurns (file : List TurnLine) : List TurnLine :=
  file.takeWhile (· != .shutdown)

/-- `T` turns have been given out, and `E` of them entered. Only the last one can be
open: its client has not read it, or has it. -/
structure Seated (T E i m : Nat) (c : State) : Prop where
  behind : c.turnCursor ≤ T
  past : ∀ j, j + 1 < T → j % m = i → j < c.turnCursor
  holds : hasTurn c = true → c.turnCursor = T ∧ (T - 1) % m = i
  early : (T - 1) % m = i → c.turnCursor < T ∨ (hasTurn c = true ∧ inTurn c = false) → E + 1 = T
  entered : inTurn c = true → E = T

structure TurnOrder (s : Session m) (es : Client.History m) (T E : Nat) : Prop where
  given : 0 < T
  lines : openTurns s.turnFile = (List.range T).map (fun j => .turn (j % m))
  seated : ∀ i, Seated T E i.val m (s.clients i)
  order : entrances es = (List.range E).map (· % m)

theorem openTurns_append {file : List TurnLine} :
    openTurns (file ++ [l]) =
      if l ≠ .shutdown ∧ .shutdown ∉ file then openTurns file ++ [l] else openTurns file := by
  unfold openTurns
  rw [List.takeWhile_append]
  by_cases hs : TurnLine.shutdown ∈ file
  · have hlt : (file.takeWhile (· != .shutdown)).length ≠ file.length := by
      intro he
      have hall := List.takeWhile_eq_self_iff.mp
        ((List.takeWhile_sublist (· != TurnLine.shutdown) (l := file)).eq_of_length he)
      simpa using hall _ hs
    simp [hlt, hs]
  · have hall : file.takeWhile (· != .shutdown) = file := by
      apply List.takeWhile_eq_self_iff.mpr
      intro x hx
      simpa using fun he : x = .shutdown => hs (he ▸ hx)
    by_cases hl : l = .shutdown <;> simp [hall, hs, hl]

/-- What is read before the shutdown line is one of the open turns. -/
theorem openTurns_get {file : List TurnLine} (hk : k ≤ (openTurns file).length)
    (hl : file[k]? = some l) (hne : l ≠ .shutdown) : (openTurns file)[k]? = some l := by
  induction file generalizing k with
  | nil => simp at hl
  | cons x xs ih =>
    unfold openTurns at hk ⊢
    by_cases hx : x = .shutdown
    · subst hx
      simp only [bne_self_eq_false, Bool.false_eq_true, not_false_eq_true,
        List.takeWhile_cons_of_neg, List.length_nil, Nat.le_zero_eq] at hk
      subst hk
      simp only [List.getElem?_cons_zero, Option.some.injEq] at hl
      exact absurd hl.symm hne
    · rw [List.takeWhile_cons_of_pos (by simpa using hx)] at hk ⊢
      cases k with
      | zero => simpa using hl
      | succ k => simpa [openTurns] using ih (by simpa [openTurns] using hk) (by simpa using hl)

theorem TurnOrder.start (files : Fin m → List Char) : TurnOrder (session files).start [] 1 0 := by
  refine ⟨by omega,by simp [session, openTurns],?_,by simp [entrances]⟩
  intro i
  refine ⟨by simp [session],?_,?_,?_,?_⟩
  · intro j hj
    omega
  · simp [session, hasTurn, inTurn, replicates]
  · simp
  · simp [session, inTurn, replicates]

/-- Whoever has the turn is the client of the last open line. -/
theorem TurnOrder.unique {s : Session m} (h : TurnOrder s es T E) (hi : hasTurn (s.clients i) = true)
    (hj : hasTurn (s.clients j) = true) : i = j := by
  have hi' := ((h.seated i).holds hi).2
  have hj' := ((h.seated j).holds hj).2
  exact Fin.ext (hi'.symm.trans hj')

/-- The next open line a client reads. -/
theorem TurnOrder.reads {s : Session m} (h : TurnOrder s es T E)
    (hl : s.turnFile[(s.clients i).turnCursor]? = some l) (hne : l ≠ .shutdown) :
    (s.clients i).turnCursor < T ∧ l = .turn ((s.clients i).turnCursor % m) := by
  have hlen : (openTurns s.turnFile).length = T := by simp [h.lines]
  have hget := openTurns_get (hlen ▸ (h.seated i).behind) hl hne
  rw [h.lines] at hget
  obtain ⟨hlt,heq⟩ := List.getElem?_eq_some_iff.mp hget
  simp only [List.length_map, List.length_range] at hlt
  exact ⟨hlt,by simpa using heq.symm⟩

/-- The other clients' places do not depend on the one that moves. -/
theorem TurnOrder.move {s : Session m} {c : State} (h : TurnOrder s es T E)
    (hactor : Seated T' E' i.val m c)
    (hothers : ∀ j, j ≠ i → Seated T E j.val m (s.clients j) →
      Seated T' E' j.val m (s.clients j)) :
    ∀ j, Seated T' E' j.val m (Function.update s.clients i c j) := by
  intro j
  by_cases hj : j = i
  · subst hj
    simpa using hactor
  · simpa [hj] using hothers j hj (h.seated j)

theorem entrances_append (es es' : Client.History m) :
    entrances (es ++ es') = entrances es ++ entrances es' := by
  simp [entrances]

/-- A client that reads on in `waitForTurn`. Only the last open line can name it. -/
theorem Seated.reads {c : State} (h : Seated T E i m c) (hlt : c.turnCursor < T) :
    Seated T E i m { c with
      turnCursor := c.turnCursor + 1
      phase := if isUp i (.turn (c.turnCursor % m)) then .waiting else .admitted } := by
  by_cases hname : c.turnCursor % m = i
  · have hlast : c.turnCursor + 1 = T := by
      have hpast := h.past c.turnCursor
      omega
    have hearly : E + 1 = T := h.early (by rw [← hname, ← hlast]; rfl) (.inl hlt)
    refine ⟨by simp; omega,?_,?_,?_,?_⟩
    · intro j hj hji
      have hpast := h.past j hj hji
      simp only
      omega
    · simp only [hlast, true_and]
      intro _
      rw [← hname, ← hlast]
      rfl
    · exact fun _ _ => hearly
    · simp [inTurn, replicates, isUp, hname]
  · refine ⟨by simp; omega,?_,?_,?_,?_⟩
    · intro j hj hji
      have hpast := h.past j hj hji
      simp only
      omega
    · simp [hasTurn, inTurn, replicates, isUp, hname]
    · intro hlast _
      exact h.early hlast (.inl hlt)
    · simp [inTurn, replicates, isUp, hname]

/-- A client without the turn gets one more line to read. -/
theorem Seated.extend {c : State} (h : Seated T E i m c) (hturn : hasTurn c = false)
    (hlast : (T - 1) % m ≠ i) (hE : E = T) : Seated (T + 1) E i m c := by
  have hin : inTurn c = false := by
    cases hin : inTurn c with
    | true => simp [inTurn_hasTurn hin] at hturn
    | false => rfl
  refine ⟨by have := h.behind; omega,?_,by simp [hturn],fun _ _ => by omega,by simp [hin]⟩
  intro j hj hji
  by_cases hjT : j + 1 = T
  · exact absurd (by rw [← hji, ← hjT]; rfl) hlast
  · exact h.past j (by omega) hji

theorem TurnOrder.step {s t : Session m} (h : TurnOrder s es T E) (hg : readsShutdown s l = false)
    (hs : (session files).step s l = some (t,e)) : ∃ T' E', TurnOrder t (es ++ e) T' E' := by
  rcases session_step hs with ⟨-,rfl,rfl⟩ | ⟨i,a,c,ls,es',rfl,hact,rfl,rfl⟩
  · exact ⟨T,E,h.given,by simpa [openTurns_append] using h.lines,h.seated,by simpa using h.order⟩
  have hi := h.seated i
  cases acted_of_act hact with
  | quiet hturn hin hcursor =>
    refine ⟨T,E,h.given,by simpa using h.lines,h.move ⟨?_,?_,?_,?_,?_⟩ (fun _ _ hj => hj),
      by simpa using h.order⟩
    · exact hcursor ▸ hi.behind
    · exact hcursor ▸ hi.past
    · exact hcursor ▸ hturn ▸ hi.holds
    · rw [hcursor, hturn, hin]
      exact hi.early
    · exact hin ▸ hi.entered
  | passes hphase hline hup =>
    obtain ⟨hlt,rfl⟩ := h.reads hline (by rintro rfl; simp [isUp] at hup)
    have hread := hi.reads hlt
    rw [hup] at hread
    exact ⟨T,E,h.given,by simpa using h.lines,h.move hread (fun _ _ hj => hj),
      by simpa [entrances] using h.order⟩
  | @admitted x ha hphase hline hup =>
    have hne : x ≠ .shutdown := by
      rintro rfl
      simp [readsShutdown, ha, hphase, hline] at hg
    obtain ⟨hlt,rfl⟩ := h.reads hline hne
    have hread := hi.reads hlt
    rw [hup] at hread
    exact ⟨T,E,h.given,by simpa using h.lines,h.move hread (fun _ _ hj => hj),
      by simpa [entrances] using h.order⟩
  | enters hphase =>
    have hturn : hasTurn (s.clients i) = true := by simp [hasTurn, hphase]
    have hin : inTurn (s.clients i) = false := by simp [inTurn, replicates, hphase]
    obtain ⟨hcursor,hlast⟩ := hi.holds hturn
    have hE : E + 1 = T := hi.early hlast (.inr ⟨hturn,hin⟩)
    refine ⟨T,E + 1,h.given,by simpa using h.lines,h.move ⟨hi.behind,hi.past,?_,?_,?_⟩ ?_,?_⟩
    · exact fun _ => ⟨hcursor,hlast⟩
    · simp [hcursor, inTurn, replicates]
    · exact fun _ => hE
    · intro j hj hseat
      refine ⟨hseat.behind,hseat.past,hseat.holds,?_,fun _ => hE⟩
      intro hl _
      exact absurd (Fin.ext (hl.symm.trans hlast)) hj
    · have hEi : E % m = i.val := by
        rw [← hlast, ← hE]
        rfl
      rw [entrances_append, h.order, List.range_succ, List.map_append]
      simp [entrances, hEi]
  | setsTurn hphase =>
    have hin : inTurn (s.clients i) = true := by simp [inTurn, hphase]
    obtain ⟨hcursor,hlast⟩ := hi.holds (inTurn_hasTurn hin)
    have hE := hi.entered hin
    by_cases hshut : TurnLine.shutdown ∈ s.turnFile
    · refine ⟨T,E,h.given,?_,h.move ⟨hi.behind,hi.past,?_,?_,?_⟩ (fun _ _ hj => hj),
        by simpa using h.order⟩
      · simpa [openTurns_append, hshut] using h.lines
      · simp [hasTurn, inTurn, replicates]
      · simp [hcursor, hasTurn, inTurn, replicates]
      · simp [inTurn, replicates]
    · have hnext : (i.val + 1) % m = T % m := by
        have hgiven := h.given
        rw [← hlast, Nat.mod_add_mod]
        congr 1
        omega
      refine ⟨T + 1,E,by omega,?_,h.move ⟨by simp; omega,?_,?_,?_,?_⟩ ?_,by simpa using h.order⟩
      · simp [openTurns_append, hshut, nextTurn, h.lines, List.range_succ, hnext]
      · intro j hj hji
        simp only
        omega
      · simp [hasTurn, inTurn, replicates]
      · exact fun _ _ => by omega
      · simp [inTurn, replicates]
      · intro j hj hseat
        have hne : (T - 1) % m ≠ j.val := fun he => hj (Fin.ext (he.symm.trans hlast))
        refine hseat.extend ?_ hne hE
        cases hj' : hasTurn (s.clients j) with
        | true => exact absurd (hseat.holds hj').2 hne
        | false => rfl

/-- No client reads the shutdown line. -/
def unread : Client.Guard m := fun _ s l => readsShutdown s l = false

/-- No shutdown line is appended. -/
def unshut : Client.Guard m := fun _ _ l => l ≠ .shutdown

theorem reach_turns {files : Fin m → List Char} (hr : (session files).Reach unread s es) :
    ∃ T E, TurnOrder s es T E := by
  induction hr with
  | start => exact ⟨1,0,.start files⟩
  | step hr hok hs ih =>
    obtain ⟨T,E,h⟩ := ih
    exact h.step hok hs

theorem reach_unshut {files : Fin m → List Char} (hr : (session files).Reach unshut s es) :
    TurnLine.shutdown ∉ s.turnFile := by
  induction hr with
  | start => simp [session]
  | step hr hok hs ih =>
    rcases session_step hs with ⟨rfl,-,-⟩ | ⟨i,a,c,ls,es',-,hact,rfl,-⟩
    · exact absurd rfl hok
    · cases acted_of_act hact with
      | setsTurn => simp [nextTurn, ih]
      | _ => simpa using ih

theorem unread_of_unshut {files : Fin m → List Char} (hr : (session files).Reach unshut s es) :
    (session files).Reach unread s es := by
  refine hr.imp ?_
  intro s es l hr _
  have hfile := reach_unshut hr
  unfold unread readsShutdown
  split
  · have hget : ∀ k : Nat, s.turnFile[k]? ≠ some .shutdown :=
      fun k hk => hfile (List.mem_of_getElem? hk)
    simp [hget]
  · rfl

/-- As long as no shutdown line is appended, at most one client is in its turn, and the
clients enter their turns in cyclic order. -/
theorem turns_exclude_each_other (files : Fin m → List Char)
    (hr : (session files).Reach unshut s es) :
    (∀ i j, inTurn (s.clients i) = true → inTurn (s.clients j) = true → i = j) ∧
    ∃ k, entrances es = (List.range k).map (· % m) := by
  obtain ⟨T,E,h⟩ := reach_turns (unread_of_unshut hr)
  exact ⟨fun i j hi hj => h.unique (inTurn_hasTurn hi) (inTurn_hasTurn hj),E,h.order⟩

/-- One command for each of two clients. -/
def oneEach : Fin 2 → List Char
  | 0 => ['a','\n']
  | 1 => ['b','\n']

/-- Client 0 has its turn, and client 1 enters the next. -/
def secondEnters : List (Client.Move 2) :=
  [.act 0 .readCommand,.act 0 .poll] ++ Client.Move.turn 0 ++
    [.readCommand,.poll,.poll,.returnFromWait].map (.act 1)

theorem secondEnters_end : Client.outcome oneEach (fun _ _ l => l != .shutdown) secondEnters
    (fun r => (inTurn (r.1.clients 1),entrances r.2)) = some (true,[0,1]) := by
  decide

theorem turns_exclude_each_other_secondEnters : ∃ (s : Session 2) (es : Client.History 2),
    (session oneEach).Reach unshut s es ∧ inTurn (s.clients 1) = true ∧ entrances es = [0,1] ∧
    ((∀ i j, inTurn (s.clients i) = true → inTurn (s.clients j) = true → i = j) ∧
      ∃ k, entrances es = (List.range k).map (· % 2)) := by
  have htest : ∀ (es : Client.History 2) s l, (l != .shutdown) = true → unshut es s l :=
    fun _ _ _ h => by simpa [unshut] using h
  obtain ⟨s,es,hr,h⟩ := Machine.exists_reach htest secondEnters_end
  obtain ⟨hin,hes⟩ := Prod.mk.inj h
  exact ⟨s,es,hr,hin,hes,turns_exclude_each_other oneEach hr⟩

/-- Nobody calls `replicate` after it has read the shutdown line. -/
def quits (es : Client.History m) : Prop :=
  Preceded (fun x before => x.2 = .entered → (x.1,.read .shutdown) ∉ before) es

/-- Whoever has read the shutdown line is on its way out of `replicateCommands`, and
nobody is inside `replicate` together with somebody else. -/
structure StopsAtShutdown (s : Session m) (es : Client.History m) : Prop where
  quits : quits es
  returns : ∀ i, (i,.read .shutdown) ∈ es →
    (s.clients i).phase = .admitted ∨ (s.clients i).phase = .returned
  alone : ∀ i j, replicates (s.clients i) = true → replicates (s.clients j) = true → i = j

theorem unread_history {files : Fin m → List Char} (hr : (session files).Reach unread s es) :
    (i,.read .shutdown) ∉ es := by
  induction hr with
  | start => simp
  | step hr hok hs ih =>
    rcases session_step hs with ⟨-,-,rfl⟩ | ⟨j,a,c,ls,es',rfl,hact,-,rfl⟩
    · simpa using ih
    · cases acted_of_act hact with
      | @passes x hphase hline hup =>
        have hne : x ≠ .shutdown := by
          rintro rfl
          simp [isUp] at hup
        simpa [hne.symm] using ih
      | @admitted x ha hphase hline hup =>
        have hne : x ≠ .shutdown := by
          rintro rfl
          simp [unread, readsShutdown, ha, hphase, hline] at hok
        simpa [hne.symm] using ih
      | _ => simpa using ih

theorem quits_of_append {es es' : Client.History m} (h : quits (es ++ es')) : quits es := by
  intro before x after he
  exact h before x (after ++ es') (by rw [he, List.append_assoc, List.cons_append])

theorem not_quits_enters {es : Client.History m} (h : (i,.read .shutdown) ∈ es) :
    ¬ quits (es ++ [(i,.entered)]) :=
  fun hq => hq es _ [] rfl rfl h

/-- A client that has read the shutdown line comes to call `replicate` all the same. -/
theorem reader_enters {files : Fin m → List Char} (hr : (session files).Reach Machine.free s es)
    (hread : (i,.read .shutdown) ∈ es) : ¬ quits es ∨ (s.clients i).phase = .admitted := by
  induction hr with
  | start => simp at hread
  | @step s es l t e hr hok hs ih =>
    by_cases hq : quits es
    case neg => exact .inl fun hq' => hq (quits_of_append hq')
    rcases session_step hs with ⟨-,rfl,rfl⟩ | ⟨j,a,c,ls,es',rfl,hact,rfl,rfl⟩
    · exact .inr ((ih (by simpa using hread)).resolve_left (not_not_intro hq))
    by_cases hj : j = i
    case neg =>
      have hold : (i,.read .shutdown) ∈ es := by
        rcases List.mem_append.mp hread with h | h
        · exact h
        · simp [hj] at h
      refine .inr ?_
      simp only [Function.update_of_ne (fun he : i = j => hj he.symm)]
      exact (ih hold).resolve_left (not_not_intro hq)
    subst hj
    cases acted_of_act hact with
    | quiet hturn hin hcursor =>
      obtain ⟨hhas,hnot⟩ :=
        admitted_iff.mp ((ih (by simpa using hread)).resolve_left (not_not_intro hq))
      refine .inr (admitted_iff.mpr ?_)
      simpa [hturn, hin] using ⟨hhas,hnot⟩
    | @passes x hphase hline hup =>
      have hne : x ≠ .shutdown := by
        rintro rfl
        simp [isUp] at hup
      have hadm := (ih (by simpa [hne.symm] using hread)).resolve_left (not_not_intro hq)
      simp [hphase] at hadm
    | admitted ha hphase hline hup => exact .inr (by simp)
    | enters hphase => exact .inl (not_quits_enters (by simpa using hread))
    | setsTurn hphase =>
      have hadm := (ih (by simpa using hread)).resolve_left (not_not_intro hq)
      simp [hphase] at hadm

/-- The shutdown line stops the clients in every run in which none of them reads it in
`waitForTurn`. Where one does, the run goes on to a further call of `replicate`. -/
theorem shutdown_stops_clients (files : Fin m → List Char) :
    (∀ s es, (session files).Reach unread s es → StopsAtShutdown s es) ∧
    ∀ s es i, (session files).Reach Machine.free s es → (i,.read .shutdown) ∈ es →
      ∃ t es', (session files).Reach Machine.free t (es ++ es') ∧ ¬ quits (es ++ es') := by
  constructor
  · intro s es hr
    obtain ⟨T,E,h⟩ := reach_turns hr
    have hhistory : ∀ i, (i,.read .shutdown) ∉ es := fun i => unread_history hr
    refine ⟨?_,fun i hi => absurd hi (hhistory i),?_⟩
    · intro before x after he _ hread
      exact hhistory x.1 (he ▸ List.mem_append_left _ hread)
    · intro i j hi hj
      exact h.unique (inTurn_hasTurn (replicates_inTurn hi)) (inTurn_hasTurn (replicates_inTurn hj))
  · intro s es i hr hread
    rcases reader_enters hr hread with hq | hphase
    · exact ⟨s,[],by simpa using hr,by simpa using hq⟩
    · have hs : (session files).step s (.act i .returnFromWait) = some
          ({ clients := Function.update s.clients i { s.clients i with phase := .connecting }
             turnFile := s.turnFile ++ [] },[(i,.entered)]) := by
        simp [session, Client.step, Client.act, hphase]
      exact ⟨_,_,.step hr trivial hs,not_quits_enters hread⟩

/-- Client 1 reads the shutdown line while client 0 has its turn. -/
def entersOnShutdown : List (Client.Move 2) :=
  [.readCommand,.poll,.returnFromWait].map (.act 0) ++ .shutdown::
    [.readCommand,.poll,.poll,.returnFromWait].map (.act 1)

theorem entersOnShutdown_end : Client.outcome oneEach (fun _ _ _ => true) entersOnShutdown
    (fun r => (r.2.drop 3,replicates (r.1.clients 0),replicates (r.1.clients 1))) =
      some ([(1,.read .shutdown),(1,.entered)],true,true) := by
  decide

/-- A client calls `replicate` after it has read the shutdown line, while another one
is inside. -/
theorem shutdown_lets_in : ∃ (s : Session 2) (es : Client.History 2),
    (session oneEach).Reach Machine.free s es ∧ ¬ quits es ∧
    replicates (s.clients 0) = true ∧ replicates (s.clients 1) = true := by
  obtain ⟨s,es,hr,h⟩ := Machine.exists_reach (fun _ _ _ _ => trivial) entersOnShutdown_end
  simp only [Prod.mk.injEq] at h
  obtain ⟨hes,h0,h1⟩ := h
  refine ⟨s,es,hr,?_,h0,h1⟩
  intro hq
  have hsplit : es = (es.take 3 ++ [(1,.read .shutdown)]) ++ [(1,.entered)] := by
    rw [List.append_assoc]
    exact (hes ▸ List.take_append_drop 3 es).symm
  exact hq _ _ [] hsplit rfl (List.mem_append_right _ List.mem_cons_self)

end Algorep.Proofs
