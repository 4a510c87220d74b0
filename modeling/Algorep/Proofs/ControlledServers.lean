import Algorep.Program.Controlled
import Algorep.Proofs.BlockedShutdown
import Algorep.Proofs.Suspicions

namespace Algorep.Proofs
open Kit Program Program.Controlled

/-- Everything an action of a server under control can be. -/
inductive ControlledActs (rank : Fin n) (node : Controlled.Node n) :
    Controlled.Action n → Controlled.Result n → Prop
  | moves (l : Lifecycle.Move) (control : Lifecycle.Server)
      (hs : Lifecycle.step node.control l = some control)
      (hr : ∀ tag, l ≠ .receive tag false)
      (hl : ∀ t, l = .proceed t → node.control.phase t ≠ .initializing → done node t = true) :
      ControlledActs rank node (.control l) { state := { node with control := control } }
  | elects (control : Lifecycle.Server) (out : Heartbeat.Result n)
      (hs : Lifecycle.step node.control (.proceed (.receiver .leaderElection)) = some control)
      (hp : node.control.phase (.receiver .leaderElection) = .initializing)
      (ho : Heartbeat.act rank node.work (.server .startElection node.work.timeStamps) =
        some out) :
      ControlledActs rank node (.control (.proceed (.receiver .leaderElection)))
        (onward node control out)
  | beats (control : Lifecycle.Server)
      (hs : Lifecycle.step node.control (.test .ping) = some control)
      (hp : control.phase .ping = .handling) : ControlledActs rank node (.control (.test .ping))
        (onward node control (Heartbeat.pingCheck rank node.work 0))
  | reads (value : String) (control : Lifecycle.Server)
      (hc : node.work.server.client = .session)
      (hs : Lifecycle.step node.control (.receive .client false) = some control) :
      ControlledActs rank node (.read value)
        { state := { node with control := control, request := some value } }
  | works (a : Heartbeat.Action n) (out : Heartbeat.Result n)
      (hrunning : node.control.terminated = false) (hp : permits node a = true)
      (ho : Heartbeat.act rank node.work a = some out) : ControlledActs rank node (.work a)
        (onward { node with request := requestAfter node a } node.control out)

theorem controlledActs_of_control {node : Controlled.Node n}
    (h : Controlled.act rank node (.control l) = some out) :
    ControlledActs rank node (.control l) out := by
  simp only [Controlled.act, Option.bind_eq_some_iff] at h
  obtain ⟨control,hs,h⟩ := h
  cases l with
  | main | fetch | stop | wake =>
    cases h
    exact .moves _ control hs (by simp) (by simp)
  | receive tag shutdown =>
    simp only [Controlled.move, Option.ite_none_right_eq_some, Option.some.injEq] at h
    obtain ⟨rfl,rfl⟩ := h
    exact .moves _ control hs (by simp) (by simp)
  | test t =>
    simp only [Controlled.move] at h
    split at h
    · rename_i hping
      obtain ⟨rfl,hp⟩ := hping
      cases h
      exact .beats control hs hp
    · cases h
      exact .moves _ control hs (by simp) (by simp)
  | proceed t =>
    simp only [Controlled.move] at h
    split at h
    · rename_i hp
      split at h
      · rename_i ht
        subst ht
        obtain ⟨o,ho,rfl⟩ := Option.map_eq_some_iff.mp h
        exact .elects control o hs hp ho
      · cases h
        refine .moves _ control hs (by simp) ?_
        intro u hu hn
        cases hu
        exact absurd hp hn
    · simp only [Option.ite_none_right_eq_some, Option.some.injEq] at h
      obtain ⟨hdone,rfl⟩ := h
      refine .moves _ control hs (by simp) ?_
      intro u hu hn
      cases hu
      exact hdone

theorem controlledActs_of_act {node : Controlled.Node n}
    (h : Controlled.act rank node a = some out) : ControlledActs rank node a out := by
  cases a with
  | control l => exact controlledActs_of_control h
  | read value =>
    simp only [Controlled.act, Controlled.read, Option.ite_none_right_eq_some] at h
    obtain ⟨hc,h⟩ := h
    obtain ⟨control,hs,rfl⟩ := Option.map_eq_some_iff.mp h
    exact .reads value control hc hs
  | work a =>
    simp only [Controlled.act, Controlled.work, Option.ite_none_right_eq_some] at h
    obtain ⟨⟨hrunning,hp⟩,h⟩ := h
    obtain ⟨o,ho,rfl⟩ := Option.map_eq_some_iff.mp h
    exact .works a o hrunning hp ho

/-- What taking a message can be. -/
theorem controlled_accept_cases {node x : Controlled.Node n}
    (h : Controlled.accept rank node tag src m = some x) : ∃ control y,
      Lifecycle.step node.control (.receive tag false) = some control ∧
      Heartbeat.accept rank node.work tag src m = some y ∧
      x = { node with
        control := if node.work.server.dropsFrom rank src tag then node.control else control
        work := y } := by
  simp only [Controlled.accept, Option.bind_eq_some_iff] at h
  obtain ⟨control,hs,h⟩ := h
  obtain ⟨y,hy,rfl⟩ := Option.map_eq_some_iff.mp h
  exact ⟨control,y,hs,hy,rfl⟩

/-! The servers' work, and the control of each server. -/

/-- What the managers of the servers do, and what is on its way between them. -/
def worksOf (s : Controlled.Cluster n) : Heartbeat.Cluster n where
  nodes i := (s.nodes i).work
  chan := s.chan

/-- An action is a piece of work, with what it sends and leaves in the history, or leaves the
work alone. -/
theorem controlled_work {node : Controlled.Node n} (h : ControlledActs rank node a out) :
    (out.state.work = node.work ∧ out.send = none ∧ out.events = []) ∨
    ∃ a', Heartbeat.act rank node.work a' =
      some { state := out.state.work, send := out.send, events := out.events } := by
  cases h with
  | moves | reads => exact .inl ⟨rfl,rfl,rfl⟩
  | elects control o hs hp ho => exact .inr ⟨_,ho⟩
  | beats => exact .inr ⟨.pingCheck 0,rfl⟩
  | works a o hrunning hp ho => exact .inr ⟨a,ho⟩

/-- The step of its threads that an action of a server is. -/
def controlOf : Controlled.Action n → List Lifecycle.Move
  | .control l => [l]
  | .read _ => [.receive .client false]
  | .work _ => []

/-- The steps of the threads of server `i` in a run. A message that is dropped is none. -/
def controlBy (i : Fin n) (es : List (Controlled.Cluster n × Controlled.Move n)) :
    List Lifecycle.Move :=
  es.flatMap (fun x => match x.2 with
    | .act j a => if j = i then controlOf a else []
    | .receive tag src dst =>
      if dst = i ∧ (x.1.nodes dst).work.server.dropsFrom dst src tag = false then
        [.receive tag false]
      else [])

theorem controlled_control {node : Controlled.Node n} (h : ControlledActs rank node a out) :
    (controlOf a = [] ∧ out.state.control = node.control) ∨
      ∃ l, controlOf a = [l] ∧ Lifecycle.step node.control l = some out.state.control := by
  cases h with
  | moves l control hs => exact .inr ⟨l,rfl,hs⟩
  | elects control o hs => exact .inr ⟨_,rfl,hs⟩
  | beats control hs => exact .inr ⟨_,rfl,hs⟩
  | reads value control hc hs => exact .inr ⟨_,rfl,hs⟩
  | works => exact .inl ⟨rfl,rfl⟩

theorem worksOf_commit {s : Controlled.Cluster n} {out : Controlled.Result n}
    {out' : Heartbeat.Result n} (hx : out'.state = out.state.work) (hs : out'.send = out.send) :
    worksOf (s.commit Heartbeat.Message.tag i out) =
      (worksOf s).commit Heartbeat.Message.tag i out' := by
  unfold worksOf LaneNet.commit LaneNet.handed
  rw [hs, hx]
  congr
  funext j
  by_cases hj : j = i
  · subst hj
    simp
  · simp [hj]

theorem worksOf_take (s : Controlled.Cluster n) (k : MessageTag) (src dst : Fin n)
    (rest : List (Heartbeat.Message n)) (x : Controlled.Node n) :
    worksOf (s.take k src dst rest x) = (worksOf s).take k src dst rest x.work := by
  unfold worksOf LaneNet.take
  congr
  funext j
  by_cases hj : j = dst
  · subst hj
    simp
  · simp [hj]

/-- A step of the cluster is a step of the servers' work, with the same history, or leaves it
alone. -/
theorem controlled_step {s t : Controlled.Cluster n} (h : (Controlled.process n).Step s l t e) :
    (worksOf t = worksOf s ∧ e = []) ∨
      ∃ l', (Heartbeat.process none).network.step (worksOf s) l' = some (worksOf t,e) := by
  cases h with
  | act i a out ho =>
    rcases controlled_work (controlledActs_of_act ho) with ⟨hx,hsend,hevents⟩ | ⟨a',ha⟩
    · left
      have hsame : worksOf (s.commit Heartbeat.Message.tag i out) =
          (worksOf s).commit Heartbeat.Message.tag i
            ({ state := (worksOf s).nodes i } : Heartbeat.Result n) :=
        worksOf_commit hx.symm hsend.symm
      refine ⟨hsame.trans ?_,by rw [hevents]; rfl⟩
      simp [LaneNet.commit, LaneNet.handed]
    · refine .inr ⟨.act i a',?_⟩
      have hact : (Heartbeat.process none).act i ((worksOf s).nodes i) a' = _ := ha
      simp only [LaneProcess.network, LaneProcess.step, hact, Option.map_some, Option.some.injEq,
        Prod.mk.injEq, and_true]
      exact (worksOf_commit rfl rfl).symm
  | receive k src dst m rest x hc hx =>
    obtain ⟨control,y,-,hy,rfl⟩ := controlled_accept_cases hx
    refine .inr ⟨.receive k src dst,?_⟩
    have haccept : (Heartbeat.process none).accept dst ((worksOf s).nodes dst) k src m = _ := hy
    have hchan : (worksOf s).chan k src dst = m::rest := hc
    simp only [LaneProcess.network, LaneProcess.step, hchan, haccept, Option.map_some,
      Option.some.injEq, Prod.mk.injEq, and_true]
    symm
    apply worksOf_take

theorem controlled_step_control {s t : Controlled.Cluster n}
    (h : (Controlled.process n).Step s l t e) (i : Fin n) :
    (controlBy i [(s,l)] = [] ∧ (t.nodes i).control = (s.nodes i).control) ∨
      ∃ l', controlBy i [(s,l)] = [l'] ∧
        Lifecycle.step (s.nodes i).control l' = some (t.nodes i).control := by
  cases h with
  | act j a out ho =>
    by_cases hi : j = i
    · subst hi
      rw [LaneNet.commit_self]
      simpa [controlBy] using controlled_control (controlledActs_of_act ho)
    · rw [LaneNet.commit_other _ _ _ (Ne.symm hi)]
      exact .inl ⟨by simp [controlBy, hi],rfl⟩
  | receive k src dst m rest x hc hx =>
    by_cases hi : dst = i
    · subst hi
      obtain ⟨control,y,hs,-,rfl⟩ := controlled_accept_cases hx
      rw [LaneNet.take_self]
      cases hd : (s.nodes dst).work.server.dropsFrom dst src k with
      | true => exact .inl ⟨by simp [controlBy, hd],rfl⟩
      | false => exact .inr ⟨.receive k false,by simp [controlBy, hd],hs⟩
    · rw [LaneNet.take_other _ _ _ _ _ (Ne.symm hi)]
      exact .inl ⟨by simp [controlBy, hi],rfl⟩

/-- The managers of the servers make a run of the servers as they are without a repl. -/
theorem controlled_works {s : Controlled.Cluster n}
    (hr : (Controlled.process n).network.traced.Reach Machine.free s es) :
    ∃ hist, (Controlled.process n).network.Reach Machine.free s hist ∧
      Heartbeat.Reach none (worksOf s) hist := by
  induction hr with
  | start => exact ⟨[],.start,.start⟩
  | @step s es l t x hr _ hs ih =>
    obtain ⟨hist,hrun,hworks⟩ := ih
    obtain ⟨-,e,he⟩ := Machine.traced_step hs
    refine ⟨hist ++ e,hrun.step trivial he,?_⟩
    rcases controlled_step (LaneProcess.step_of_eq he) with ⟨hsame,rfl⟩ | ⟨l',hl⟩
    · rw [hsame, List.append_nil]
      exact hworks
    · exact hworks.step trivial hl

/-- The threads of a server make a run of their own. -/
theorem controlled_threads {s : Controlled.Cluster n}
    (hr : (Controlled.process n).network.traced.Reach Machine.free s es) (i : Fin n) :
    Lifecycle.lifecycle.Reach Machine.free (s.nodes i).control (controlBy i es) := by
  induction hr with
  | start => exact .start
  | @step s es l t x hr _ hs ih =>
    obtain ⟨rfl,e,he⟩ := Machine.traced_step hs
    have hsplit : controlBy i (es ++ [(s,l)]) = controlBy i es ++ controlBy i [(s,l)] :=
      List.flatMap_append
    rw [hsplit]
    rcases controlled_step_control (LaneProcess.step_of_eq he) i with
      ⟨hnone,hsame⟩ | ⟨l',hone,hl⟩
    · rw [hnone, hsame, List.append_nil]
      exact ih
    · have hmove : Lifecycle.lifecycle.step (s.nodes i).control l' =
          some ((t.nodes i).control,[l']) := by
        simp only [Lifecycle.lifecycle, Lifecycle.lifecycleFrom, hl, Option.map_some]
      rw [hone]
      exact ih.step trivial hmove

/-- However the repl starts, crashes, recovers and stops the servers, and whatever their threads
are held up at: their managers make a run of the servers as they are without a repl, with the
same history, and the threads of each server make a run of their own. -/
theorem controlled_servers_run {s : Controlled.Cluster n}
    (hr : (Controlled.process n).network.traced.Reach Machine.free s es) :
    (∃ hist, (Controlled.process n).network.Reach Machine.free s hist ∧
      Heartbeat.Reach none (worksOf s) hist) ∧
    ∀ i, Lifecycle.lifecycle.Reach Machine.free (s.nodes i).control (controlBy i es) :=
  ⟨controlled_works hr,controlled_threads hr⟩

end Algorep.Proofs
