import Algorep.Proofs.BlockedShutdown
import Algorep.Proofs.ControlledServers
import Algorep.Proofs.ReplOrders

namespace Algorep.Proofs
open Kit Program Program.Console
open Program.Json Program.Reception Program.Repl

/-! The REPL thread in a run. -/

/-- The REPL thread has left its loop. -/
def LeftLoop (s : Lifecycle.Server) : Prop :=
  (∃ calls, Stopping s calls) ∨ s.phase (.receiver .repl) = .finished

theorem LeftLoop.not_receiving (h : LeftLoop s) : s.phase (.receiver .repl) ≠ .receiving := by
  rcases h with ⟨calls,hp⟩ | hp
  · rw [hp]
    simp
  · simp [hp]

theorem LifeStep.leftLoop (h : LifeStep s l t) (hi : InInit s) (hp : LeftLoop s) : LeftLoop t := by
  rcases hp with ⟨calls,hp⟩ | hp
  · rcases h.stays hi hp with ht | ⟨-,ht⟩ | ⟨call,rest,rfl,hc⟩
    · exact .inl ⟨calls,ht⟩
    · exact .inr ht
    · obtain ⟨calls,ht,-⟩ := hc.left hp
      exact .inl ⟨calls,ht⟩
  · exact .inr (h.finished hi hp)

/-- Only a command changes what the threads are held up by. -/
theorem LifeStep.keeps_flags (h : LifeStep s l t) (hl : ∀ code, l ≠ .fetch (some code)) :
    t.shouldBlock = s.shouldBlock ∧ t.speed = s.speed := by
  cases h with
  | obeys code | leaves => exact absurd rfl (hl _)
  | main call rest hm hc => cases hc <;> exact ⟨rfl,rfl⟩
  | stops call rest hp hc => cases hc <;> exact ⟨rfl,rfl⟩
  | _ => exact ⟨rfl,rfl⟩

/-- Whether the commands leave the threads held up. -/
def heldUp (codes : List ReplCode) : Bool :=
  codes.foldl (fun held code => match code with
    | .start | .recover => false
    | .crash => true
    | _ => held) true

/-- The speed that the commands leave. -/
def speedAfter (codes : List ReplCode) : ReplCode :=
  codes.foldl (fun speed code => match code with
    | .speedLow | .speedMedium | .speedHigh => code
    | _ => speed) .speedHigh

/-- The flags of a server are those that its commands have left. -/
structure FlagsOf (codes : List ReplCode) (s : Lifecycle.Server) : Prop where
  shouldBlock : s.shouldBlock = heldUp codes
  speed : s.speed = speedAfter codes

theorem heldUp_append (codes : List ReplCode) (code : ReplCode) :
    heldUp (codes ++ [code]) = match code with
      | .start | .recover => false
      | .crash => true
      | _ => heldUp codes := by
  simp only [heldUp, List.foldl_append, List.foldl_cons, List.foldl_nil]

theorem speedAfter_append (codes : List ReplCode) (code : ReplCode) :
    speedAfter (codes ++ [code]) = match code with
      | .speedLow | .speedMedium | .speedHigh => code
      | _ => speedAfter codes := by
  simp only [speedAfter, List.foldl_append, List.foldl_cons, List.foldl_nil]

theorem LifeStep.flagsOf {command : Option ReplCode} (h : LifeStep s (.fetch command) t)
    (hf : FlagsOf codes s) :
    FlagsOf (codes ++ command.toList) t := by
  obtain ⟨hblock,hspeed⟩ := hf
  cases h with
  | idles => exact ⟨by simpa using hblock,by simpa using hspeed⟩
  | leaves => exact ⟨(heldUp_append codes .shutdown).symm ▸ hblock,
      (speedAfter_append codes .shutdown).symm ▸ hspeed⟩
  | obeys code hp hcode =>
    refine ⟨(heldUp_append codes code).symm ▸ ?_,(speedAfter_append codes code).symm ▸ ?_⟩
    · cases code with
      | start | crash | recover => rfl
      | shutdown | speedLow | speedMedium | speedHigh => exact hblock
    · cases code with
      | speedLow | speedMedium | speedHigh => rfl
      | shutdown | start | crash | recover => exact hspeed

/-! What the servers read, and what they make of it. -/

/-- How a REPL thread stands to its file. -/
inductive Reading
  | reads
  | left
  | threw
deriving DecidableEq

/-- The commands that a server obeys in the lines it has read. It stops at a SHUTDOWN to its
node, and at a line that throws. -/
inductive Obeys (rank : Fin n) : List Bytes → List ReplCode → Reading → Prop
  | opens : Obeys rank [] [] .reads
  | passes (h : Obeys rank lines codes .reads) (hline : ¬ Throws line)
      (hnone : ∀ code, ¬ Orders rank line code) : Obeys rank (lines ++ [line]) codes .reads
  | obeys (h : Obeys rank lines codes .reads) (hline : ¬ Throws line)
      (hcode : Orders rank line code) : Obeys rank (lines ++ [line]) (codes ++ [code])
        (if code = .shutdown then .left else .reads)
  | throws (h : Obeys rank lines codes .reads) (hline : Throws line) :
      Obeys rank (lines ++ [line]) codes .threw

/-- Everything a step of the console and the servers can be. -/
inductive ConsoleStep (s : Session n) : Console.Move n → Session n → List (Console.Event n) → Prop
  | enters (line : Bytes) (hup : s.isUp = true) (hline : 0x0A ∉ line) :
      ConsoleStep s (.enter line)
        { s with isUp := line != shutdownLine, file := s.file ++ echo line } [.entered line]
  | throws (i : Fin n) (wtime : Nat) (m : MessageObject) (dst : Int) (line : Bytes) (place : Nat)
      (e : Repl.Exception)
      (hrunning : (s.cluster.nodes i).control.terminated = false)
      (hp : (s.cluster.nodes i).control.phase (.receiver .repl) = .receiving)
      (hl : getTrailingLine s.file (s.position i) = (line,place))
      (hf : fetchMessage i wtime line
        { receivedMessage := m, messageReceived := false, dstNodeId := dst } = .error e) :
      ConsoleStep s (.fetch i wtime m dst)
        { s with
          position := Function.update s.position i place
          cluster := terminate s.cluster i } [.threw i]
  | fetches (i : Fin n) (wtime : Nat) (m : MessageObject) (dst : Int) (line : Bytes) (place : Nat)
      (output : Output) (cluster : Controlled.Cluster n) (events : List (Fin n × Server.Event n))
      (hp : (s.cluster.nodes i).control.phase (.receiver .repl) = .receiving)
      (hl : getTrailingLine s.file (s.position i) = (line,place))
      (hf : fetchMessage i wtime line
        { receivedMessage := m, messageReceived := false, dstNodeId := dst } = .ok output)
      (hs : (Controlled.process n).Step s.cluster
        (.act i (.control (.fetch (commandTo i output)))) cluster events) :
      ConsoleStep s (.fetch i wtime m dst)
        { s with position := Function.update s.position i place, cluster := cluster }
        (obeys i (commandTo i output) ++ events.map (fun e => .served e.1 e.2))
  | moves (l : Controlled.Move n) (cluster : Controlled.Cluster n)
      (events : List (Fin n × Server.Event n)) (hl : ownMove l = true)
      (hs : (Controlled.process n).Step s.cluster l cluster events) :
      ConsoleStep s (.cluster l) { s with cluster := cluster }
        (events.map (fun e => .served e.1 e.2))

theorem consoleStep_of_eq (h : (session old).step s l = some (t,e)) : ConsoleStep s l t e := by
  cases l with
  | enter line =>
    simp only [session, Console.step, Console.enter, Option.ite_none_right_eq_some,
      Option.some.injEq, Prod.mk.injEq] at h
    obtain ⟨⟨hup,hline⟩,rfl,rfl⟩ := h
    exact .enters line hup hline
  | fetch i wtime m dst =>
    simp only [session, Console.step, Console.fetch, Option.ite_none_right_eq_some] at h
    obtain ⟨⟨hrunning,hp⟩,h⟩ := h
    split at h
    · rename_i e' hf
      simp only [Option.some.injEq, Prod.mk.injEq] at h
      obtain ⟨rfl,rfl⟩ := h
      exact .throws i wtime m dst _ _ e' hrunning hp rfl hf
    · rename_i output hf
      simp only [Option.map_eq_some_iff, Prod.mk.injEq] at h
      obtain ⟨⟨cluster,events⟩,hs,rfl,rfl⟩ := h
      exact .fetches i wtime m dst _ _ output cluster events hp rfl hf (LaneProcess.step_of_eq hs)
  | cluster l =>
    simp only [session, Console.step, Option.ite_none_right_eq_some, Option.map_eq_some_iff,
      Prod.mk.injEq] at h
    obtain ⟨hl,⟨cluster,events⟩,hs,rfl,rfl⟩ := h
    exact .moves l cluster events hl (LaneProcess.step_of_eq hs)

/-- The lines that the console has put into the file. -/
def enteredLines (es : Console.History n) : List Bytes :=
  es.flatMap (fun e => match e with
    | .entered line => echoed line
    | _ => [])

/-- The commands that server `i` has obeyed, in order. -/
def obeyedBy (i : Fin n) (es : Console.History n) : List ReplCode :=
  es.filterMap (fun e => match e with
    | .obeyed j code => if j = i then some code else none
    | _ => none)

theorem enteredLines_append (es es' : Console.History n) :
    enteredLines (es ++ es') = enteredLines es ++ enteredLines es' := List.flatMap_append

theorem obeyedBy_append (i : Fin n) (es es' : Console.History n) :
    obeyedBy i (es ++ es') = obeyedBy i es ++ obeyedBy i es' := List.filterMap_append

theorem enteredLines_served (es : List (Fin n × Server.Event n)) :
    enteredLines (es.map (fun e => .served e.1 e.2)) = [] := by
  simp [enteredLines, List.flatMap_map]

theorem obeyedBy_served (i : Fin n) (es : List (Fin n × Server.Event n)) :
    obeyedBy i (es.map (fun e => .served e.1 e.2)) = [] := by
  simp [obeyedBy]

theorem enteredLines_obeys (i : Fin n) (command : Option ReplCode) :
    enteredLines (obeys i command) = [] := by
  cases command <;> rfl

theorem obeyedBy_obeys (i j : Fin n) (command : Option ReplCode) :
    obeyedBy i (obeys j command) = if j = i then command.toList else [] := by
  cases command with
  | none => simp [obeys, obeyedBy]
  | some code =>
    by_cases hj : j = i <;> simp [obeys, obeyedBy, hj]

/-- No line that is read contains its own end. -/
theorem echoed_ends (h : 0x0A ∉ line) : ∀ x ∈ echoed line, 0x0A ∉ x := by
  intro x hx
  unfold echoed at hx
  split at hx
  · split at hx
    · contradiction
    · rw [List.mem_singleton.mp hx]
      simp
  · rw [List.mem_singleton.mp hx]
    exact h

/-- A REPL thread that is in its loop has obeyed the commands of the lines before its place. -/
structure ReaderAt (i : Fin n) (lines seen : List Bytes) (r : Reading) (place : Nat)
    (codes : List ReplCode) (control : Lifecycle.Server) : Prop where
  place : ReadTo 0x0A lines seen place
  obeys : Obeys i seen codes r
  init : InInit control
  flags : FlagsOf codes control
  left : r = .left → LeftLoop control
  threw : r = .threw → control.terminated = true

section ReaderAt
variable {i : Fin n} {lines seen : List Bytes} {place place' : Nat}
  {control control' : Lifecycle.Server}

theorem ReaderAt.more (h : ReaderAt i lines seen r place codes control) (more : List Bytes) :
    ReaderAt i (lines ++ more) seen r place codes control :=
  { h with place := h.place.append more }

theorem ReaderAt.in_loop (h : ReaderAt i lines seen r place codes control)
    (hrunning : control.terminated = false) (hp : control.phase (.receiver .repl) = .receiving) :
    r = .reads := by
  cases r with
  | reads => rfl
  | left => exact absurd hp (h.left rfl).not_receiving
  | threw =>
    rw [h.threw rfl] at hrunning
    contradiction

/-- What the other threads do, and the REPL thread once it has left its loop. -/
theorem ReaderAt.moves (h : ReaderAt i lines seen r place codes control)
    (hs : Lifecycle.step control l = some control') (hl : ∀ code, l ≠ .fetch code) :
    ReaderAt i lines seen r place codes control' := by
  obtain ⟨hrunning,hstep⟩ := lifeStep_of_step hs
  obtain ⟨hblock,hspeed⟩ := hstep.keeps_flags (fun code => hl (some code))
  refine ⟨h.place,h.obeys,hstep.inInit h.init,⟨hblock.trans h.flags.shouldBlock,
    hspeed.trans h.flags.speed⟩,fun hr => hstep.leftLoop h.init (h.left hr),fun hr => ?_⟩
  rw [h.threw hr] at hrunning
  contradiction

/-- A round of the loop at the end of the file. -/
theorem ReaderAt.idles (h : ReaderAt i lines seen r place codes control)
    (hs : Lifecycle.step control (.fetch none) = some control') :
    ReaderAt i lines seen r place codes control' := by
  obtain ⟨-,hstep⟩ := lifeStep_of_step hs
  cases hstep
  exact h

/-- One that reads a line. -/
theorem ReaderAt.reads {command : Option ReplCode}
    (h : ReaderAt i lines seen r place codes control)
    (hs : Lifecycle.step control (.fetch command) = some control')
    (hplace : ReadTo 0x0A lines (seen ++ [line]) place') (hline : ¬ Throws line)
    (hcommand : ∀ code, command = some code ↔ Orders i line code) :
    ∃ r', r' ≠ .threw ∧
      ReaderAt i lines (seen ++ [line]) r' place' (codes ++ command.toList) control' := by
  obtain ⟨hrunning,hstep⟩ := lifeStep_of_step hs
  have hinit := hstep.inInit h.init
  have hflags := hstep.flagsOf h.flags
  have hp : control.phase (.receiver .repl) = .receiving := by
    cases hstep <;> assumption
  have hobeys := h.obeys
  rw [h.in_loop hrunning hp] at hobeys
  cases command with
  | none =>
    have hnone : ∀ code, ¬ Orders i line code := by
      intro code ho
      have hsome := (hcommand code).mpr ho
      contradiction
    refine ⟨.reads,by simp,hplace,?_,hinit,hflags,by simp,by simp⟩
    simpa using hobeys.passes hline hnone
  | some code =>
    have hnext := hobeys.obeys hline ((hcommand code).mp rfl)
    refine ⟨_,?_,hplace,hnext,hinit,hflags,fun hr => ?_,fun hr => ?_⟩
    · split <;> simp
    · have hcode : code = .shutdown := by
        by_contra hne
        simp [hne] at hr
      subst hcode
      cases hstep with
      | leaves => exact .inl ⟨_,setPhase_self _ _ _⟩
      | obeys _ _ hne => exact absurd rfl hne
    · split at hr <;> contradiction

theorem ReaderAt.throws (h : ReaderAt i lines seen r place codes control)
    (hrunning : control.terminated = false) (hp : control.phase (.receiver .repl) = .receiving)
    (hplace : ReadTo 0x0A lines (seen ++ [line]) place') (hline : Throws line) :
    ReaderAt i lines (seen ++ [line]) .threw place' codes { control with terminated := true } := by
  have hobeys := h.obeys
  rw [h.in_loop hrunning hp] at hobeys
  exact ⟨hplace,hobeys.throws hline,⟨h.init.calls,h.init.unstarted⟩,
    ⟨h.flags.shouldBlock,h.flags.speed⟩,by simp,fun _ => rfl⟩

end ReaderAt

/-- The file holds whole lines, and every server has read some of them. -/
structure ConsoleOk (old : List Bytes) (s : Session n) (es : Console.History n) : Prop where
  file : s.file = lined 0x0A (old ++ enteredLines es)
  ends : ∀ line ∈ old ++ enteredLines es, 0x0A ∉ line
  readers : ∀ i, ∃ seen r, ReaderAt i (old ++ enteredLines es) seen r (s.position i)
    (obeyedBy i es) (s.cluster.nodes i).control ∧ (r = .threw ↔ .threw i ∈ es)

theorem session_consoleOk (hold : ∀ line ∈ old, 0x0A ∉ line) :
    ConsoleOk old (session (n := n) old).start [] := by
  refine ⟨by simp [session, enteredLines],by simpa [enteredLines] using hold,fun i => ?_⟩
  refine ⟨[],.reads,⟨.start _ _,.opens,init_inInit,⟨rfl,rfl⟩,by simp,by simp⟩,by simp⟩

theorem fetchMessage_nil (rank : Fin n) (wtime : Nat) (output : Output) :
    fetchMessage rank wtime [] output = .ok output := rfl

/-- The line that the REPL thread reads next, if there is one. -/
theorem ReaderAt.next {s : Session n} {place : Nat} {control : Lifecycle.Server}
    (hok : ConsoleOk old s es) (h : ReaderAt i (old ++ enteredLines es) seen r (s.position i)
      codes control) (hl : getTrailingLine s.file (s.position i) = (line,place)) :
    (line = [] ∧ place = s.position i) ∨
      ReadTo 0x0A (old ++ enteredLines es) (seen ++ [line]) place := by
  unfold getTrailingLine at hl
  rw [hok.file] at hl
  rcases h.place.next hok.ends with ⟨-,hend⟩ | ⟨line',place',hnext,hread⟩
  · rw [hend, Prod.mk.injEq] at hl
    exact .inl ⟨hl.1.symm,hl.2.symm⟩
  · rw [hnext, Prod.mk.injEq] at hl
    obtain ⟨rfl,rfl⟩ := hl
    exact .inr hread

/-- The control of a server whose turn it is not. -/
theorem controlled_control_other {s t : Controlled.Cluster n}
    (h : (Controlled.process n).Step s (.act i a) t e) (hj : j ≠ i) :
    (t.nodes j).control = (s.nodes j).control := by
  cases h with
  | act _ _ out ho => rw [LaneNet.commit_other _ _ _ hj]

theorem controlled_control_fetch {s t : Controlled.Cluster n}
    (h : (Controlled.process n).Step s (.act i (.control l)) t e) :
    Lifecycle.step (s.nodes i).control l = some (t.nodes i).control := by
  rcases controlled_step_control h i with ⟨hnone,-⟩ | ⟨l',hone,hl⟩
  · simp [controlBy, controlOf] at hnone
  · simp only [controlBy, controlOf, List.flatMap_cons, if_true, List.flatMap_nil,
      List.append_nil, List.cons.injEq, and_true] at hone
    exact hone ▸ hl

/-- A step that is not the REPL thread's reading moves the other threads, if any. -/
theorem controlled_control_own {s t : Controlled.Cluster n} (hown : ownMove l = true)
    (h : (Controlled.process n).Step s l t e) (j : Fin n) :
    (t.nodes j).control = (s.nodes j).control ∨
      ∃ l', (∀ command, l' ≠ .fetch command) ∧
        Lifecycle.step (s.nodes j).control l' = some (t.nodes j).control := by
  rcases controlled_step_control h j with ⟨-,hsame⟩ | ⟨l',hone,hl⟩
  · exact .inl hsame
  · refine .inr ⟨l',?_,hl⟩
    rintro command rfl
    have hmem : .fetch command ∈ controlBy j [(s,l)] := by simp [hone]
    cases l with
    | act i a =>
      cases a with
      | control l =>
        by_cases hi : i = j
        · simp only [controlBy, List.flatMap_cons, hi, if_true, List.flatMap_nil, controlOf,
            List.append_nil, List.mem_singleton] at hmem
          subst hmem
          contradiction
        · simp [controlBy, hi] at hmem
      | read value => by_cases hi : i = j <;> simp [controlBy, controlOf, hi] at hmem
      | work a => by_cases hi : i = j <;> simp [controlBy, controlOf, hi] at hmem
    | receive tag src dst =>
      simp only [controlBy, List.flatMap_cons, List.flatMap_nil, List.append_nil] at hmem
      split at hmem <;> simp at hmem

/-- A step that puts nothing into the file. -/
theorem ConsoleOk.of_readers {s t : Session n} (h : ConsoleOk old s es) (hfile : t.file = s.file)
    (he : enteredLines e = []) (hreaders : ∀ i, ∃ seen r,
      ReaderAt i (old ++ enteredLines es) seen r (t.position i) (obeyedBy i (es ++ e))
        (t.cluster.nodes i).control ∧ (r = .threw ↔ .threw i ∈ es ++ e)) :
    ConsoleOk old t (es ++ e) := by
  have hentered : enteredLines (es ++ e) = enteredLines es := by
    rw [enteredLines_append, he, List.append_nil]
  exact ⟨hentered ▸ hfile.trans h.file,hentered ▸ h.ends,hentered ▸ hreaders⟩

/-- A step that concerns another server, or no REPL thread. -/
theorem ConsoleOk.moves {s t : Session n} (h : ConsoleOk old s es)
    (hposition : t.position i = s.position i) (hobeyed : obeyedBy i e = [])
    (hthrew : .threw i ∉ e)
    (hcontrol : (t.cluster.nodes i).control = (s.cluster.nodes i).control ∨
      ∃ l, (∀ command, l ≠ .fetch command) ∧ Lifecycle.step (s.cluster.nodes i).control l =
        some (t.cluster.nodes i).control) :
    ∃ seen r, ReaderAt i (old ++ enteredLines es) seen r (t.position i) (obeyedBy i (es ++ e))
      (t.cluster.nodes i).control ∧ (r = .threw ↔ .threw i ∈ es ++ e) := by
  obtain ⟨seen,r,hreader,hr⟩ := h.readers i
  refine ⟨seen,r,?_,by simpa [hthrew] using hr⟩
  rw [obeyedBy_append, hobeyed, hposition, List.append_nil]
  rcases hcontrol with hsame | ⟨l,hl,hs⟩
  · rw [hsame]
    exact hreader
  · exact hreader.moves hs hl

theorem served_no_throw (i : Fin n) (es : List (Fin n × Server.Event n)) :
    .threw i ∉ es.map (fun e => Console.Event.served e.1 e.2) := by
  simp

theorem ConsoleOk.step {s t : Session n} (h : ConsoleOk old s es) (hs : ConsoleStep s l t e) :
    ConsoleOk old t (es ++ e) := by
  cases hs with
  | enters line hup hline =>
    have hentered : enteredLines (es ++ [.entered line]) = enteredLines es ++ echoed line := by
      simp [enteredLines]
    refine ⟨?_,?_,fun i => ?_⟩
    · rw [hentered, ← List.append_assoc, lined_append, ← h.file]
      rfl
    · rw [hentered, ← List.append_assoc]
      intro x hx
      rcases List.mem_append.mp hx with hx | hx
      · exact h.ends x hx
      · exact echoed_ends hline x hx
    · obtain ⟨seen,r,hreader,hr⟩ := h.readers i
      have hobeyed : obeyedBy i (es ++ [.entered line]) = obeyedBy i es := by simp [obeyedBy]
      refine ⟨seen,r,?_,by simpa using hr⟩
      rw [hentered, hobeyed, ← List.append_assoc]
      exact hreader.more _
  | throws i wtime m dst line place e hrunning hp hl hf =>
    refine h.of_readers rfl rfl (fun j => ?_)
    by_cases hj : j = i
    · subst hj
      obtain ⟨seen,r,hreader,-⟩ := h.readers j
      have hobeyed : obeyedBy j (es ++ [.threw j]) = obeyedBy j es := by simp [obeyedBy]
      refine ⟨seen ++ [line],.threw,?_,by simp⟩
      rw [hobeyed]
      rcases hreader.next h hl with ⟨rfl,-⟩ | hread
      · rw [fetchMessage_nil] at hf
        contradiction
      · simpa [terminate] using hreader.throws hrunning hp hread (fetchMessage_throws hf)
    · refine h.moves ?_ rfl (by simp [hj]) (.inl ?_)
      · simp [hj]
      · simp [terminate, hj]
  | fetches i wtime m dst line place output cluster events hp hl hf hstep =>
    have hentered : enteredLines (obeys i (commandTo i output) ++
        events.map (fun e => .served e.1 e.2)) = [] := by
      rw [enteredLines_append, enteredLines_obeys, enteredLines_served, List.append_nil]
    have hnothrow : ∀ j, .threw j ∉ obeys i (commandTo i output) ++
        events.map (fun e => .served e.1 e.2) := by
      intro j
      cases commandTo i output <;> simp [obeys]
    refine h.of_readers rfl hentered (fun j => ?_)
    by_cases hj : j = i
    · subst hj
      obtain ⟨seen,r,hreader,hr⟩ := h.readers j
      have hcontrol := controlled_control_fetch hstep
      rw [obeyedBy_append, obeyedBy_append, obeyedBy_obeys, if_pos rfl, obeyedBy_served,
        List.append_nil]
      simp only [Function.update_self]
      rcases hreader.next h hl with ⟨rfl,rfl⟩ | hread
      · have hnone : commandTo j output = none := by
          rw [fetchMessage_nil, Except.ok.injEq] at hf
          subst hf
          rfl
        rw [hnone] at hcontrol ⊢
        exact ⟨seen,r,by simpa using hreader.idles hcontrol,
          by simpa [hnothrow, hnone, obeys] using hr⟩
      · obtain ⟨r',hr',hreader'⟩ := hreader.reads hcontrol hread (fetchMessage_reads hf)
          (fun code => fetchMessage_orders hf)
        have hrunning := (lifeStep_of_step hcontrol).1
        have hreads := hreader.in_loop hrunning hp
        refine ⟨_,r',hreader',?_⟩
        have hbefore : .threw j ∉ es := fun hmem => by
          rw [hr.mpr hmem] at hreads
          contradiction
        simp [hr', hbefore, hnothrow j]
    · refine h.moves ?_ ?_ (hnothrow j) (.inl (controlled_control_other hstep hj))
      · simp [hj]
      · rw [obeyedBy_append, obeyedBy_obeys, if_neg (Ne.symm hj), obeyedBy_served]
        rfl
  | moves l cluster events hown hstep =>
    exact h.of_readers rfl (enteredLines_served events) (fun j => h.moves rfl
      (obeyedBy_served j events) (served_no_throw j events) (controlled_control_own hown hstep j))

theorem reach_consoleOk (hold : ∀ line ∈ old, 0x0A ∉ line) {s : Session n}
    (hr : (session old).Reach Machine.free s es) : ConsoleOk old s es := by
  induction hr with
  | start => exact session_consoleOk hold
  | step hr hok hs ih => exact ih.step (consoleStep_of_eq hs)

/-- However the console, the servers and their threads take turns: each server has read the
lines of the file up to some place, each of them once. It has obeyed the commands to it that
stand in them, in their order, up to a SHUTDOWN or a line that throws, and its threads are held
up, and paced, as these commands have left it. -/
theorem servers_obey_the_file (old : List Bytes) (hold : ∀ line ∈ old, 0x0A ∉ line)
    {s : Session n} (hr : (session old).Reach Machine.free s es) (i : Fin n) :
    s.file = lined 0x0A (old ++ enteredLines es) ∧ ∃ seen r, seen <+: old ++ enteredLines es ∧
      s.position i = (lined 0x0A seen).length ∧
      Obeys i seen (obeyedBy i es) r ∧ (r = .threw ↔ .threw i ∈ es) ∧
      (r = .left → LeftLoop (s.cluster.nodes i).control) ∧
      (r = .threw → (s.cluster.nodes i).control.terminated = true) ∧
      (s.cluster.nodes i).control.shouldBlock = heldUp (obeyedBy i es) ∧
      (s.cluster.nodes i).control.speed = speedAfter (obeyedBy i es) := by
  have hok := reach_consoleOk hold hr
  obtain ⟨seen,r,hreader,hthrew⟩ := hok.readers i
  exact ⟨hok.file,seen,r,hreader.place.seen_prefix,hreader.place.place_eq,hreader.obeys,hthrew,
    hreader.left,hreader.threw,hreader.flags.shouldBlock,hreader.flags.speed⟩

/-- Two servers get going, and `j` reads its CRASH, if it is server 1. Then `i` comes to a line
with no number before the comma. -/
def startsThenThrows (i j : Fin n) : List (Console.Move n) :=
  let fetch (i : Fin n) : Console.Move n := .fetch i 5 { tag := 0, code := 0, id := 0 } 0
  [.enter startLine,.cluster (.act i (.control .main)),.cluster (.act j (.control .main)),
    fetch i,.enter (0x31::0x2C::ascii ['c','r','a','s','h']),fetch j,fetch j,fetch i,fetch j,
    .enter (0x78::0x2C::ascii ['c','r','a','s','h']),fetch i]

theorem startsThenThrows_end : ((session (n := 2) []).follow (fun _ _ _ => true)
    (startsThenThrows 0 1) (session []).start []).map (fun p =>
      (obeyedBy 0 p.2,obeyedBy 1 p.2,decide (.threw 0 ∈ p.2),p.1.position 1)) =
    some ([.start],[.start,.crash],true,14) := by
  decide

theorem servers_obey_the_file_startsThenThrows : ∃ (s : Session 2) (es : Console.History 2),
    (session []).Reach Machine.free s es ∧ obeyedBy 0 es = [.start] ∧
    obeyedBy 1 es = [.start,.crash] ∧ .threw 0 ∈ es ∧ ∀ i,
    (s.file = lined 0x0A ([] ++ enteredLines es) ∧ ∃ seen r, seen <+: [] ++ enteredLines es ∧
      s.position i = (lined 0x0A seen).length ∧ Obeys i seen (obeyedBy i es) r ∧
      (r = .threw ↔ .threw i ∈ es) ∧ (r = .left → LeftLoop (s.cluster.nodes i).control) ∧
      (r = .threw → (s.cluster.nodes i).control.terminated = true) ∧
      (s.cluster.nodes i).control.shouldBlock = heldUp (obeyedBy i es) ∧
      (s.cluster.nodes i).control.speed = speedAfter (obeyedBy i es)) := by
  obtain ⟨s,es,hr,h⟩ := Machine.exists_reach (fun _ _ _ _ => trivial) startsThenThrows_end
  simp only [Prod.mk.injEq, decide_eq_true_eq] at h
  obtain ⟨hzero,hone,hthrew,-⟩ := h
  exact ⟨s,es,hr,hzero,hone,hthrew,fun i => servers_obey_the_file [] (by simp) hr i⟩

/-! What is left of the servers' work. -/

/-- What the servers leave behind in a run of the console. -/
def servedIn (es : Console.History n) : List (Fin n × Server.Event n) :=
  es.filterMap (fun e => match e with
    | .served i e => some (i,e)
    | _ => none)

theorem servedIn_served (es : List (Fin n × Server.Event n)) :
    servedIn (es.map (fun e => .served e.1 e.2)) = es := by
  simp [servedIn]

theorem servedIn_obeys (i : Fin n) (command : Option ReplCode)
    (es : List (Fin n × Server.Event n)) :
    servedIn (obeys i command ++ es.map (fun e => .served e.1 e.2)) = es := by
  have hnone : servedIn (obeys i command) = [] := by cases command <;> rfl
  rw [servedIn, List.filterMap_append]
  exact (congrArg₂ (· ++ ·) hnone (servedIn_served es)).trans (List.nil_append es)

/-- What happens at the console is a step of the servers' work, with the same history, or
leaves it alone. -/
theorem console_step_works {s t : Session n} (hs : ConsoleStep s l t e) :
    (worksOf t.cluster = worksOf s.cluster ∧ servedIn e = []) ∨ ∃ l',
      (Heartbeat.process none).network.step (worksOf s.cluster) l' =
        some (worksOf t.cluster,servedIn e) := by
  cases hs with
  | enters => exact .inl ⟨rfl,rfl⟩
  | throws i =>
    refine .inl ⟨?_,rfl⟩
    unfold worksOf terminate
    congr
    funext j
    by_cases hj : j = i
    · subst hj
      simp
    · simp [hj]
  | fetches i wtime m dst line place output cluster events hp hl hf hstep =>
    rw [servedIn_obeys]
    exact controlled_step hstep
  | moves l cluster events hown hstep =>
    rw [servedIn_served]
    exact controlled_step hstep

/-- Whatever is typed at the console, lines among it that end servers: the managers make a run
of the servers as they are without one, with the same history. -/
theorem console_runs_servers (old : List Bytes) {s : Session n}
    (hr : (session old).Reach Machine.free s es) :
    Heartbeat.Reach none (worksOf s.cluster) (servedIn es) := by
  induction hr with
  | start => exact .start
  | @step s es l t e hr _ hs ih =>
    have happend : servedIn (es ++ e) = servedIn es ++ servedIn e := List.filterMap_append
    rw [happend]
    rcases console_step_works (consoleStep_of_eq hs) with ⟨hsame,hnone⟩ | ⟨l',hl⟩
    · rw [hsame, hnone, List.append_nil]
      exact ih
    · exact ih.step trivial hl

end Algorep.Proofs
