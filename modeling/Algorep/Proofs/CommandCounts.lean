import Algorep.Proofs.ClientTurns
import Mathlib.Data.Nat.Find
import Mathlib.Tactic.SplitIfs

namespace Algorep.Proofs
open Kit Program Program.Client

/-- The line and the stream of a client after `k` lines of its command file. -/
def readings (file : List Char) : Nat → List Char × InputFile
  | 0 => ([],{ unread := file })
  | k + 1 => getline (readings file k).1 (readings file k).2

/-- The file has more than `k` commands: so many lines come before an empty one. -/
def hasCommand (file : List Char) (k : Nat) : Prop :=
  ∀ j ≤ k, (readings file (j + 1)).1 ≠ []

instance (file : List Char) (k : Nat) : Decidable (hasCommand file k) :=
  inferInstanceAs (Decidable (∀ j ≤ k, _))

/-- No client has more commands than one with a smaller id, and no two clients' numbers
of commands differ by more than one. -/
def evenly (files : Fin m → List Char) : Prop :=
  ∀ a b k, (b ≤ a → hasCommand (files a) k → hasCommand (files b) k) ∧
    (hasCommand (files a) (k + 1) → hasCommand (files b) k)

/-- The client has a command left that it has not replicated. -/
def unreplicated (c : State) : Bool :=
  match c.phase with
  | .reading | .sleeping | .settingTurn | .hangingUp true =>
    !(getline c.line c.commandIfs).1.isEmpty
  | .returned => false
  | _ => true

/-- The client has a use for its turn, and a line it has not read gives it one. -/
def mayEnter (s : Session m) (i : Fin m) : Bool :=
  unreplicated (s.clients i) &&
    (s.turnFile.drop (s.clients i).turnCursor).contains (.turn i.val)

/-- Some client is not finished, but none has the turn and none can get it. -/
structure Stuck (s : Session m) : Prop where
  unfinished : ∃ i, unreplicated (s.clients i) = true
  idle : ∀ i, hasTurn (s.clients i) = false
  barred : ∀ i, mayEnter s i = false

/-- The client has passed the turn on `k` times. -/
structure Progress (file : List Char) (k : Nat) (c : State) : Prop where
  done : ∀ j < k, (readings file (j + 1)).1 ≠ []
  reads : (c.line,c.commandIfs) = readings file
    (if c.phase = .reading ∨ c.phase = .sleeping then k else k + 1)
  has : c.phase ≠ .reading → c.phase ≠ .sleeping → (c.phase = .returned ↔ c.line = [])

/-- How often client `i` has passed the turn on once `J` turns are over. -/
def turnsOver (m J i : Nat) : Nat :=
  J / m + if i < J % m then 1 else 0

theorem turnsOver_succ (hi : i < m) :
    turnsOver m (J + 1) i = turnsOver m J i + if J % m = i then 1 else 0 := by
  have hlt : J % m < m := Nat.mod_lt _ (by omega)
  unfold turnsOver
  by_cases hwrap : J % m + 1 = m
  · have hmod : (J + 1) % m = 0 := by
      rw [← Nat.mod_add_mod, hwrap, Nat.mod_self]
    have hdiv : (J + 1) / m = J / m + 1 := by
      rw [Nat.succ_div, if_pos (Nat.dvd_of_mod_eq_zero hmod)]
    rw [hdiv, hmod]
    split_ifs <;> omega
  · have hmod : (J + 1) % m = J % m + 1 := by
      rw [← Nat.mod_add_mod, Nat.mod_eq_of_lt (by omega)]
    have hdiv : (J + 1) / m = J / m := by
      rw [Nat.succ_div, if_neg, Nat.add_zero]
      intro hd
      rw [Nat.mod_eq_zero_of_dvd hd] at hmod
      omega
    rw [hdiv, hmod]
    split_ifs <;> omega

theorem Progress.step {c c' : State} (h : Progress file k c)
    (hact : Client.act i m turnFile c a = some (c',ls,es)) :
    Progress file (k + ls.length) c' := by
  unfold Client.act at hact
  split at hact <;> simp only [Option.some.injEq, Prod.mk.injEq, reduceCtorEq] at hact
  case h_1 hphase =>
    obtain ⟨rfl,rfl,-⟩ := hact
    have hreads := h.reads
    simp only [hphase, true_or, ↓reduceIte] at hreads
    have hnext : readings file (k + 1) = getline c.line c.commandIfs := by
      rw [readings, ← hreads]
    refine ⟨h.done,?_,?_⟩
    · rw [if_neg]
      · simpa [readCommand] using hnext.symm
      · simp only [readCommand]
        split <;> simp
    · intro _ _
      simp [readCommand]
  case h_2 hphase =>
    obtain ⟨rfl,rfl,-⟩ := hact
    unfold poll
    split
    · exact h
    · rename_i l hline
      have hreads := h.reads
      have hhas := h.has
      simp [hphase] at hreads hhas
      refine ⟨h.done,?_,?_⟩ <;> cases isUp i l <;> simp [hreads, hhas]
  case h_9 hphase =>
    obtain ⟨rfl,rfl,-⟩ := hact
    have hreads := h.reads
    have hhas := h.has
    simp only [hphase, reduceCtorEq, or_self, ↓reduceIte, ne_eq, not_false_eq_true, false_iff,
      forall_const] at hreads hhas
    refine ⟨?_,by simpa using hreads,by simp⟩
    intro j hj
    simp only [List.length_cons, List.length_nil, Nat.zero_add] at hj
    rcases Nat.lt_succ_iff_lt_or_eq.mp hj with hlt | rfl
    · exact h.done j hlt
    · rw [← hreads]
      exact hhas
  case h_10 hphase =>
    obtain ⟨rfl,rfl,-⟩ := hact
    exact ⟨h.done,by simpa [hphase] using h.reads,by simp⟩
  case h_8 replicated hphase =>
    obtain ⟨rfl,rfl,-⟩ := hact
    have hreads := h.reads
    have hhas := h.has
    simp [hphase] at hreads hhas
    refine ⟨h.done,?_,?_⟩ <;> cases replicated <;> simp [hreads, hhas]
  all_goals
    rename_i hphase
    obtain ⟨rfl,rfl,-⟩ := hact
    exact ⟨h.done,by simpa [hphase] using h.reads,by simpa [hphase] using h.has⟩

/-- While no shutdown line is there, all lines are turns, in order. -/
theorem unshut_lines {files : Fin m → List Char} (hr : (session files).Reach unshut s es) :
    ∃ J E, TurnOrder s es (J + 1) E ∧
      s.turnFile = (List.range (J + 1)).map (fun j => .turn (j % m)) := by
  obtain ⟨T,E,h⟩ := reach_turns (unread_of_unshut hr)
  have hfile := reach_unshut hr
  have hopen : openTurns s.turnFile = s.turnFile := by
    apply List.takeWhile_eq_self_iff.mpr
    intro x hx
    simpa using fun he : x = .shutdown => hfile (he ▸ hx)
  obtain ⟨J,rfl⟩ := Nat.exists_eq_succ_of_ne_zero (Nat.ne_of_gt h.given)
  exact ⟨J,E,h,hopen ▸ h.lines⟩

/-- How far a client has come with `J` turns over. If the next one is its own, it has
not read its line yet, or has the turn. -/
structure Stint (file : List Char) (J m i : Nat) (c : State) : Prop where
  pending : J % m = i → c.turnCursor ≤ J ∨ hasTurn c = true
  progress : Progress file (turnsOver m J i) c

theorem Stint.start (file : List Char) :
    Stint file 0 m i { commandIfs := { unread := file } } := by
  refine ⟨fun _ => .inl (Nat.zero_le _),?_,?_,?_⟩ <;> simp [turnsOver, readings]

theorem stints_move {files : Fin m → List Char} {s : Session m} {c : State}
    (hactor : Stint (files i) J m i.val c)
    (hothers : ∀ j, j ≠ i → Stint (files j) J m j.val (s.clients j)) (j : Fin m) :
    Stint (files j) J m j.val (Function.update s.clients i c j) := by
  by_cases hj : j = i
  · subst hj
    simpa using hactor
  · simpa [hj] using hothers j hj

theorem reach_stints {files : Fin m → List Char} (hr : (session files).Reach unshut s es) :
    ∀ i, Stint (files i) (s.turnFile.length - 1) m i.val (s.clients i) := by
  induction hr with
  | start => exact fun i => Stint.start (files i)
  | @step s es l t e hr hok hs ih =>
    obtain ⟨J,E,horder,hfile⟩ := unshut_lines hr
    have hlen : s.turnFile.length = J + 1 := by simp [hfile]
    rw [hlen, Nat.add_sub_cancel] at ih
    rcases session_step hs with ⟨rfl,-,-⟩ | ⟨i,a,c,ls,es',rfl,hact,rfl,rfl⟩
    · exact absurd rfl hok
    have hprogress := (ih i).progress.step hact
    have hi := horder.seated i
    cases acted_of_act hact with
    | quiet hturn hin hcursor =>
      simp only [List.append_nil, hlen, Nat.add_sub_cancel]
      refine stints_move ⟨?_,hprogress⟩ (fun j _ => ih j)
      rw [hcursor, hturn]
      exact (ih i).pending
    | @passes x hphase hline hup =>
      simp only [List.append_nil, hlen, Nat.add_sub_cancel]
      refine stints_move ⟨?_,hprogress⟩ (fun j _ => ih j)
      intro hJ
      obtain ⟨hlt,rfl⟩ := horder.reads hline (by rintro rfl; simp [isUp] at hup)
      have hne : (s.clients i).turnCursor ≠ J := by
        intro he
        simp [isUp, he, hJ] at hup
      simp only
      omega
    | admitted ha hphase hline hup =>
      simp only [List.append_nil, hlen, Nat.add_sub_cancel]
      exact stints_move ⟨fun _ => .inr rfl,hprogress⟩ (fun j _ => ih j)
    | enters hphase =>
      simp only [List.append_nil, hlen, Nat.add_sub_cancel]
      exact stints_move ⟨fun _ => .inr rfl,hprogress⟩ (fun j _ => ih j)
    | setsTurn hphase =>
      obtain ⟨hcursor,hJ⟩ := hi.holds (by simp [hasTurn, inTurn, hphase])
      rw [Nat.add_sub_cancel] at hJ
      simp only [List.length_append, List.length_cons, List.length_nil, hlen, Nat.add_sub_cancel]
      refine stints_move ⟨fun _ => .inl hi.behind,?_⟩ ?_
      · simpa [turnsOver_succ i.isLt, hJ] using hprogress
      · intro j hj
        have hne : J % m ≠ j.val := fun he => hj (Fin.ext (he.symm.trans hJ))
        refine ⟨fun _ => .inl (horder.seated j).behind,?_⟩
        simpa [turnsOver_succ j.isLt, hne] using (ih j).progress

theorem hasCommand.mono (h : hasCommand file k) (hle : j ≤ k) : hasCommand file j :=
  fun i hi => h i (Nat.le_trans hi hle)

/-- A client without the turn has a command left exactly when its file has one more than
it has replicated. -/
theorem Progress.unreplicated_iff {c : State} (h : Progress file k c)
    (hidle : hasTurn c = false) : unreplicated c = true ↔ hasCommand file k := by
  have hhas : hasCommand file k ↔ (readings file (k + 1)).1 ≠ [] := by
    constructor
    · exact fun hk => hk k (Nat.le_refl k)
    · intro hk j hj
      rcases Nat.lt_or_eq_of_le hj with hlt | rfl
      · exact h.done j hlt
      · exact hk
  have hreads := h.reads
  have hline := h.has
  rw [hhas]
  unfold unreplicated
  cases hphase : c.phase <;> simp [hasTurn, inTurn, replicates, hphase] at hidle
  all_goals simp [hphase] at hreads hline
  · simp [readings, ← hreads]
  · simp [← hreads, hline]
  · simp [readings, ← hreads]
  · simp [← hreads, hline]

theorem not_stuck {files : Fin m → List Char} (he : evenly files)
    (hr : (session files).Reach unshut s es) : ¬ Stuck s := by
  rintro ⟨⟨a,ha⟩,hidle,hbarred⟩
  obtain ⟨J,E,horder,hfile⟩ := unshut_lines hr
  have hstint := reach_stints hr
  have hlen : s.turnFile.length - 1 = J := by simp [hfile]
  rw [hlen] at hstint
  let c : Fin m := ⟨J % m,Nat.mod_lt _ a.pos⟩
  have hca := ((hstint a).progress.unreplicated_iff (hidle a)).mp ha
  have hc : hasCommand (files c) (turnsOver m J c.val) := by
    have hover : turnsOver m J c.val = J / m := by simp [turnsOver, c]
    rw [hover]
    unfold turnsOver at hca
    split at hca
    · exact (he a c _).2 hca
    · rename_i hge
      exact (he a c _).1 (Fin.mk_le_of_le_val (Nat.not_lt.mp hge)) hca
  have hleft := ((hstint c).progress.unreplicated_iff (hidle c)).mpr hc
  have hcursor : (s.clients c).turnCursor ≤ J := by
    have hpending := (hstint c).pending rfl
    simpa [hidle c] using hpending
  have hmay : mayEnter s c = true := by
    simp only [mayEnter, hleft, Bool.true_and, List.contains_iff_mem]
    apply List.mem_iff_getElem?.mpr
    refine ⟨J - (s.clients c).turnCursor,?_⟩
    rw [List.getElem?_drop, Nat.add_sub_cancel' hcursor, hfile]
    simp [c]
  simp [hbarred c] at hmay

/-- The session with client `i` elsewhere, and some more lines in the turn file. -/
def seat (s : Session m) (i : Fin m) (c : State) (ls : List TurnLine) : Session m where
  clients := Function.update s.clients i c
  turnFile := s.turnFile ++ ls

theorem seat_step {files : Fin m → List Char} {s : Session m} {i : Fin m} {c : State}
    (hr : ∃ es, (session files).Reach unshut (seat s i c ls) es) (a : Client.Action) (c' : State)
    (ls' : List TurnLine) (es' : List Client.Event)
    (hact : Client.act i.val m (s.turnFile ++ ls) c a = some (c',ls',es')) :
    ∃ es, (session files).Reach unshut (seat s i c' (ls ++ ls')) es := by
  obtain ⟨es,hr⟩ := hr
  have hstep : (session files).step (seat s i c ls) (.act i a) =
      some (seat s i c' (ls ++ ls'),es'.map (fun e => (i,e))) := by
    simp [session, Client.step, seat, hact]
  exact ⟨_,.step hr (by simp [unshut]) hstep⟩

/-- A client that is let in replicates its command at the first try and passes the turn on. -/
theorem seat_passes {files : Fin m → List Char} {s : Session m} {i : Fin m} {c : State}
    (hr : ∃ es, (session files).Reach unshut (seat s i c []) es) (hphase : c.phase = .admitted) :
    ∃ es, (session files).Reach unshut
      (seat s i { c with phase := .reading } [nextTurn i.val m]) es := by
  have h1 := seat_step hr .returnFromWait { c with phase := .connecting } [] [.entered]
    (by simp [Client.act, hphase])
  have h2 := seat_step h1 .connect { c with phase := .sending } [] [] rfl
  have h3 := seat_step h2 .send { c with phase := .awaiting } [] [] rfl
  have h4 := seat_step h3 (.receive .success) { c with phase := .hangingUp true } [] [] rfl
  have h5 := seat_step h4 .disconnect { c with phase := .settingTurn } [] [] rfl
  have h6 := seat_step h5 .setTurn { c with phase := .sleeping } [nextTurn i.val m] [] rfl
  exact seat_step h6 .wake { c with phase := .reading } [] [] rfl

/-- A client that waits is let in after at most `d + 1` polls, if the last of them finds
a line that names it. -/
theorem seat_polls {files : Fin m → List Char} {s : Session m} {i : Fin m} {c : State} (d : Nat)
    (hr : ∃ es, (session files).Reach unshut (seat s i c []) es) (hphase : c.phase = .waiting)
    (hlast : s.turnFile[c.turnCursor + d]? = some (.turn i.val)) :
    ∃ c', (∃ es, (session files).Reach unshut (seat s i c' []) es) ∧ c'.phase = .admitted := by
  have hlt := (List.getElem?_eq_some_iff.mp hlast).1
  obtain ⟨x,hx⟩ : ∃ x, s.turnFile[c.turnCursor]? = some x :=
    ⟨_,List.getElem?_eq_getElem (by omega)⟩
  have hpoll := seat_step hr .poll
    { c with
      turnCursor := c.turnCursor + 1
      phase := if isUp i.val x then .waiting else .admitted }
    [] [.read x] (by simp [Client.act, hphase, poll, hx])
  cases hup : isUp i.val x with
  | false => exact ⟨_,hpoll,by simp [hup]⟩
  | true =>
    cases d with
    | zero =>
      rw [Nat.add_zero, hx, Option.some.injEq] at hlast
      simp [isUp, hlast] at hup
    | succ d =>
      refine seat_polls d hpoll (by simp [hup]) ?_
      simpa only [Nat.add_assoc, Nat.add_comm 1 d] using hlast

/-- Every turn up to the `J`-th can be taken and passed on, if its client has a command
for it. -/
theorem turns_pass (files : Fin m → List Char) (hm : 0 < m) (J : Nat)
    (hhas : ∀ j < J, ∀ i : Fin m, j % m = i.val → hasCommand (files i) (j / m)) :
    ∃ s, (∃ es, (session files).Reach unshut s es) ∧ s.turnFile.length = J + 1 ∧
      ∀ i, (s.clients i).phase = .reading := by
  induction J with
  | zero => exact ⟨_,⟨_,.start⟩,rfl,fun _ => rfl⟩
  | succ J ih =>
    obtain ⟨s,⟨es,hr⟩,hlen,hphase⟩ := ih (fun j hj => hhas j (by omega))
    let i : Fin m := ⟨J % m,Nat.mod_lt _ hm⟩
    obtain ⟨J',E,horder,hfile⟩ := unshut_lines hr
    obtain rfl : J' = J := by simpa [hfile] using hlen
    have hstint := reach_stints hr i
    rw [hlen, Nat.add_sub_cancel] at hstint
    have hidle : hasTurn (s.clients i) = false := by simp [hasTurn, inTurn, replicates, hphase]
    have hcursor : (s.clients i).turnCursor ≤ J' := by simpa [hidle] using hstint.pending rfl
    have hleft : unreplicated (s.clients i) = true := by
      apply (hstint.progress.unreplicated_iff hidle).mpr
      have hover : turnsOver m J' i.val = J' / m := by simp [turnsOver, i]
      exact hover ▸ hhas J' (by omega) i rfl
    have hseat : ∃ es, (session files).Reach unshut (seat s i (s.clients i) []) es :=
      ⟨es,by simpa [seat] using hr⟩
    have hread := seat_step hseat .readCommand (readCommand (s.clients i)) [] []
      (by simp [Client.act, hphase])
    have hwaits : (readCommand (s.clients i)).phase = .waiting := by
      simpa [unreplicated, hphase, readCommand] using hleft
    obtain ⟨c,hadmitted,hc⟩ := seat_polls (J' - (s.clients i).turnCursor) hread hwaits
      (by simp [readCommand, Nat.add_sub_cancel' hcursor, hfile, i])
    refine ⟨_,seat_passes hadmitted hc,by simp [seat, hlen],?_⟩
    intro j
    by_cases hj : j = i
    · simp [seat, hj]
    · simpa [seat, hj] using hphase j

theorem turnsOver_mono (hi : i < m) (hle : j ≤ k) : turnsOver m j i ≤ turnsOver m k i := by
  induction hle with
  | refl => exact Nat.le_refl _
  | step _ ih =>
    rw [turnsOver_succ hi]
    omega

theorem turnsOver_turn (hb : b < m) (k : Nat) :
    turnsOver m (k * m + b) a = k + if a < b then 1 else 0 := by
  have hdiv : (k * m + b) / m = k := by
    rw [Nat.mul_comm, Nat.mul_add_div (by omega), Nat.div_eq_of_lt hb, Nat.add_zero]
  have hmod : (k * m + b) % m = b := by
    rw [Nat.mul_add_mod_of_lt hb]
  simp [turnsOver, hdiv, hmod]

/-- Where the turn comes to a client without a command while another has one, all stop. -/
theorem stuck_at {files : Fin m → List Char} (hr : (session files).Reach unshut s es)
    (hlen : s.turnFile.length = J + 1) (hphase : ∀ i, (s.clients i).phase = .reading)
    (hnone : ∀ i : Fin m, J % m = i.val → ¬ hasCommand (files i) (J / m))
    (hleft : hasCommand (files a) (turnsOver m J a.val)) : Stuck s := by
  obtain ⟨J',E,horder,hfile⟩ := unshut_lines hr
  obtain rfl : J' = J := by simpa [hfile] using hlen
  have hstint := reach_stints hr
  rw [hlen, Nat.add_sub_cancel] at hstint
  have hidle : ∀ i, hasTurn (s.clients i) = false := by
    intro i
    simp [hasTurn, inTurn, replicates, hphase]
  refine ⟨⟨a,((hstint a).progress.unreplicated_iff (hidle a)).mpr hleft⟩,hidle,?_⟩
  intro i
  apply Bool.eq_false_iff.mpr
  intro hmay
  simp only [mayEnter, Bool.and_eq_true, List.contains_iff_mem] at hmay
  obtain ⟨hneeds,hline⟩ := hmay
  obtain ⟨d,hd⟩ := List.mem_iff_getElem?.mp hline
  rw [List.getElem?_drop, hfile] at hd
  obtain ⟨hlt,hname⟩ := List.getElem?_eq_some_iff.mp hd
  simp only [List.length_map, List.length_range] at hlt
  simp only [List.getElem_map, List.getElem_range, TurnLine.turn.injEq] at hname
  -- Every line but the last has been read by the client it names.
  have hlast : (s.clients i).turnCursor + d = J' := by
    have hpast := (horder.seated i).past ((s.clients i).turnCursor + d)
    omega
  rw [hlast] at hname
  have hover : turnsOver m J' i.val = J' / m := by simp [turnsOver, hname]
  exact hnone i hname (hover ▸ ((hstint i).progress.unreplicated_iff (hidle i)).mp hneeds)

/-- Where the numbers of commands are uneven, the turn comes to a client that has returned
while another one is not finished. -/
theorem stuck_of_uneven {files : Fin m → List Char} (he : ¬ evenly files) :
    ∃ s es, (session files).Reach unshut s es ∧ Stuck s := by
  simp only [evenly, not_forall] at he
  obtain ⟨a,b,k,he⟩ := he
  have hm : 0 < m := a.pos
  have hlacks : ¬ hasCommand (files b) k := fun hb => he ⟨fun _ _ => hb,fun _ => hb⟩
  have hplenty : hasCommand (files a) (turnsOver m (k * m + b.val) a.val) := by
    rw [turnsOver_turn b.isLt]
    by_contra hfew
    refine he ⟨?_,?_⟩
    · intro hba ha
      simp [Nat.not_lt.mpr (Fin.le_def.mp hba), ha] at hfew
    · intro ha
      exact absurd (ha.mono (by split <;> omega)) hfew
  -- The first turn that comes to a client without a command for it.
  have hex : ∃ J, ∃ i : Fin m, J % m = i.val ∧ ¬ hasCommand (files i) (J / m) := by
    refine ⟨k * m + b.val,b,Nat.mul_add_mod_of_lt b.isLt,?_⟩
    rwa [Nat.mul_comm, Nat.mul_add_div hm, Nat.div_eq_of_lt b.isLt, Nat.add_zero]
  obtain ⟨i,hi,hnone⟩ := Nat.find_spec hex
  have hfirst : Nat.find hex ≤ k * m + b.val := by
    refine Nat.find_min' hex ⟨b,Nat.mul_add_mod_of_lt b.isLt,?_⟩
    rwa [Nat.mul_comm, Nat.mul_add_div hm, Nat.div_eq_of_lt b.isLt, Nat.add_zero]
  obtain ⟨s,⟨es,hr⟩,hlen,hphase⟩ := turns_pass files hm (Nat.find hex) (by
    intro j hj c hc
    by_contra hno
    exact Nat.find_min hex hj ⟨c,hc,hno⟩)
  refine ⟨s,es,hr,stuck_at hr hlen hphase ?_ (hplenty.mono (turnsOver_mono a.isLt hfirst))⟩
  intro c hc
  obtain rfl : c = i := Fin.ext (hc.symm.trans hi)
  exact hnone

/-- The turn protocol never gets stuck exactly when the commands are spread evenly. -/
theorem never_stuck_iff (files : Fin m → List Char) :
    (∀ s es, (session files).Reach unshut s es → ¬ Stuck s) ↔ evenly files := by
  constructor
  · intro h
    by_contra he
    obtain ⟨s,es,hr,hstuck⟩ := stuck_of_uneven he
    exact h s es hr hstuck
  · exact fun he s es hr => not_stuck he hr

/-- Client 1 has one command more than client 0. -/
def oneMore : Fin 2 → List Char
  | 0 => ['a','\n']
  | 1 => ['b','\n','c','\n']

theorem stuck_with_one_more : ∃ s es, (session oneMore).Reach unshut s es ∧ Stuck s := by
  refine stuck_of_uneven fun he => ?_
  have hzero : hasCommand (oneMore 0) 1 := (he 1 0 1).1 (by decide) (by decide)
  exact absurd hzero (by decide)

end Algorep.Proofs
