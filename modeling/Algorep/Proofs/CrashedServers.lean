import Algorep.Proofs.BlockedShutdown
import Algorep.Proofs.ControlledServers
import Algorep.Proofs.SubmittedData
import Algorep.Proofs.ThreadWeights

namespace Algorep.Proofs
open Kit Program Program.Server

/-! What a server still sends once the repl has told it to crash: the messages of its consensus,
election and failure managers, and SUCCESS. PORT and SHUTDOWN, which belong to the start and the
end of the cluster, are not among them. -/

/-- The most messages that a section leads to at its own server, those of the threads that it
detaches included. -/
def opMessages : Op n → Nat
  | .handleMessage _ .election | .handleMessage _ .alive | .handleMessage _ (.stateUpdated _ _) => n
  | .handleMessage _ (.state _ _ _) => 1
  | .send _ _ | .startRecovery _ _ | .readState _ _ _ => 1
  | .declareIfNoLeader | .broadcastIfNoLeader | .updateChecked _ _ _ => n
  | .electIfLeader _ => 2 * n
  | _ => 0

def opsMessages (ops : List (Op n)) : Nat := (ops.map opMessages).sum

@[simp] theorem opsMessages_nil : opsMessages ([] : List (Op n)) = 0 := rfl

@[simp] theorem opsMessages_cons (op : Op n) (ops : List (Op n)) :
    opsMessages (op::ops) = opMessages op + opsMessages ops := by
  simp [opsMessages]

@[simp] theorem opsMessages_append (ops ops' : List (Op n)) :
    opsMessages (ops ++ ops') = opsMessages ops + opsMessages ops' := by
  simp [opsMessages]

theorem opsMessages_send (dsts : List (Fin n)) (m : Server.Message n) :
    opsMessages (dsts.map (fun dst => .send dst m)) = dsts.length := by
  induction dsts with
  | nil => rfl
  | cons dst dsts ih =>
    rw [List.map_cons, opsMessages_cons, ih, List.length_cons, Nat.add_comm]
    rfl

/-- A broadcast leaves its own node out. -/
theorem targets_length_lt (rank : Fin n) (start stop : Nat) :
    (broadcastTargets rank start stop false).length < n := by
  have hlt : (broadcastTargets rank start stop false).length < (List.finRange n).length :=
    List.length_filter_lt_length_iff_exists.mpr ⟨rank,List.mem_finRange rank,by simp⟩
  exact Nat.lt_of_lt_of_eq hlt List.length_finRange

theorem others_length_lt (rank : Fin n) : (others rank).length < n := targets_length_lt rank 0 n

theorem broadcastElection_messages (rank : Fin n) : opsMessages (broadcastElection rank) < n := by
  rw [broadcastElection, opsMessages_cons, opsMessages_send]
  simpa [opMessages] using targets_length_lt rank (rank.val + 1) n

theorem declareVictory_messages (rank : Fin n) : opsMessages (declareVictory rank) < n := by
  rw [declareVictory, opsMessages_append, opsMessages_send]
  simpa [opMessages] using others_length_lt rank

theorem triggerElection_messages (rank : Fin n) : opsMessages (triggerElection rank) ≤ 2 * n := by
  have hlt := broadcastElection_messages rank
  rw [triggerElection, opsMessages_append]
  simp only [opsMessages_cons, opsMessages_nil, opMessages]
  omega

theorem updateChecked_messages (rank : Fin n) (node : Server.Node n) (src : Fin n) (b : Bool)
    (k : Nat) : opsMessages (updateChecked rank node src b k) ≤ n := by
  have hlt := others_length_lt rank
  have hn := src.pos
  unfold updateChecked
  split
  · rw [opsMessages_append, opsMessages_append, broadcastRecovered, opsMessages_send]
    simp only [enableComm, opsMessages_cons, opsMessages_nil, opMessages]
    omega
  · simpa [opMessages] using Nat.succ_le_of_lt hn

/-- A section pays for what it sends, for what it leaves to its thread, and for the thread that
it detaches. -/
theorem exec_pays {node : Server.Node n} (h : exec rank node timedOut now op = some (ops,out)) :
    out.send.toList.length + opsMessages ops + ((spawns rank node op).map opsMessages).getD 0 ≤
      opMessages op := by
  have hsend : out.send.toList.length ≤ 1 := by cases out.send <;> simp
  have hsends := (exec_ran h).send
  have hbroadcast := broadcastElection_messages rank
  have hdeclare := declareVictory_messages rank
  have htrigger := triggerElection_messages rank
  cases op with
  | handleMessage src m =>
    cases m with
    | consensus packet => simp [exec, handleMessage] at h
    | election =>
      simp only [exec, handleMessage, Option.some.injEq, Prod.mk.injEq] at h
      rw [← h.1]
      simp only [spawns, opMessages, Option.map_none, Option.getD_none]
      omega
    | alive =>
      simp only [exec, handleMessage, Option.some.injEq, Prod.mk.injEq] at h
      rw [← h.1, hsends]
      simp only [spawns, sends, opMessages, opsMessages_nil]
      split <;> simp [aliveWait, opMessages]
    | victory | state | stateUpdated =>
      simp only [exec, handleMessage, handleState, Option.some.injEq, Prod.mk.injEq] at h
      rw [← h.1, hsends]
      simp [spawns, sends, opMessages]
    | recovered nodeId =>
      simp only [exec, handleMessage, Option.some.injEq, Prod.mk.injEq] at h
      rw [← h.1, hsends]
      split <;> simp [spawns, sends, opMessages, enableComm]
  | waitForVictory =>
    simp only [exec, Option.ite_none_left_eq_some, Option.some.injEq, Prod.mk.injEq] at h
    rw [← h.2.1, hsends]
    simp [spawns, sends, opMessages]
  | lockClientConn k =>
    simp only [exec] at h
    split at h
    · cases h
      simp [spawns, opMessages]
    · contradiction
  | declareIfNoLeader =>
    simp only [exec, Option.some.injEq, Prod.mk.injEq] at h
    rw [← h.1, hsends]
    simp only [spawns, sends, opMessages]
    split
    · simp
    · simp only [opsMessages_append, opsMessages_cons, opsMessages_nil, opMessages]
      simp
      omega
  | broadcastIfNoLeader =>
    simp only [exec, Option.some.injEq, Prod.mk.injEq] at h
    rw [← h.1, hsends]
    simp only [spawns, sends, opMessages]
    split
    · simp
    · simp
      omega
  | electIfLeader j =>
    simp only [exec, Option.some.injEq, Prod.mk.injEq] at h
    rw [← h.1, hsends]
    simp only [spawns, sends, opMessages]
    split <;> simp [htrigger]
  | updateChecked src b k =>
    simp only [exec, Option.some.injEq, Prod.mk.injEq] at h
    rw [← h.1, hsends]
    simpa [spawns, sends, opMessages] using updateChecked_messages rank node src b k
  | send dst m =>
    simp only [exec, Option.some.injEq, Prod.mk.injEq] at h
    rw [← h.1]
    simp [spawns, opMessages, hsend]
  | restartElection | enableClientConn | setLeaderNodeId | setAliveReceived | setIsAlive
    | setNodeStatus | startRecovery | readState | clearRecoveryId | unlockClientConn =>
    simp only [exec, Option.some.injEq, Prod.mk.injEq] at h
    rw [← h.1, hsends]
    simp [spawns, sends, opMessages, pausedRecovery]

/-- The most messages that a call of `startConsensus` still leads to, with the SUCCESS that
follows it. -/
def callMessages : Consensus.Thread n → Nat
  | .idle => 0
  | .logWait consensusReached => consensusReached.toNat
  | .prepare _ _ rest => rest.length + 2 * n
  | .majorityPromised _ => 2 * n
  | .propose _ _ rest => rest.length + n
  | .majorityAccepted _ | .logWritten _ => n
  | .accepted _ _ rest => rest.length + 1

/-- The values answered with SUCCESS. -/
def answersAmong (events : List (Server.Event n)) : List String :=
  events.filterMap (fun e => match e with
    | .success value => some value
    | .replaced _ _ _ => none)

@[simp] theorem answersAmong_nil : answersAmong ([] : List (Server.Event n)) = [] := rfl

/-- No section of a thread answers a client. -/
theorem Frame.answersAmong_eq {node : Server.Node n} {out : Server.Result n} (h : Frame node op out) :
    answersAmong out.events = [] := by
  rw [h.events]
  cases installs op <;> rfl

/-- The SUCCESS of a call that has returned. -/
def answerMessages : Server.Client → Nat
  | .replying _ consensusReached => consensusReached.toNat
  | _ => 0

theorem call_pays {node : Consensus.Node n} {out : Consensus.Result n}
    (h : Acts rank node (.proceed now) out) :
    out.send.toList.length + callMessages out.state.thread ≤ callMessages node.thread := by
  have hlt := others_length_lt rank
  cases h with
  | promisesSampled value m ht | acceptsSampled value m ht =>
    rw [ht]
    dsimp only
    split <;> simp [callMessages]
  | proposed value now ht | announced value now ht =>
    rw [ht]
    simp only [callMessages, Option.toList_none, List.length_nil]
    omega
  | sentPrepare value m dst rest ht | sentPropose value m dst rest ht
    | sentAccepted value m dst rest ht =>
    rw [ht]
    simp only [callMessages, Option.toList_some, List.length_cons, List.length_nil]
    omega
  | appended value ht | reached value m ht | returned b ht =>
    rw [ht]
    simp [callMessages]

/-- A step of a call pays for its SUCCESS as well, once it has returned. -/
theorem session_pays {node : Consensus.Node n} {out : Consensus.Result n}
    (h : Acts rank node (.proceed now) out)
    (hd : (c = .replicating value ∧ ∀ b, node.thread ≠ .logWait b) ∨
      ∃ b, c = .replying value b ∧ node.thread = .logWait b) :
    out.send.toList.length + callMessages out.state.thread + answerMessages c ≤
      callMessages node.thread := by
  rcases hd with ⟨rfl,-⟩ | ⟨b,rfl,ht⟩
  · exact call_pays h
  · cases h with
    | returned b' ht' =>
      rw [ht] at ht' ⊢
      cases ht'
      simp [callMessages, answerMessages]
    | _ => simp_all

theorem ofConsensus_send_le (rank : Fin n) (node : Server.Node n) (out : Consensus.Result n) :
    (ofConsensus rank node out).send.toList.length ≤ out.send.toList.length := by
  unfold ofConsensus Server.Node.send
  cases out.send with
  | none => simp
  | some p =>
    dsimp only [Option.bind_some]
    split <;> simp

/-- The most messages that a section of `pingCheck` leads to. -/
def pingMessages : Heartbeat.PingOp n → Nat
  | .checkTimeStamp _ => 2 * n
  | .send _ => 1

/-- What a thread of a server may still send: a receiver's, only while it handles a message. -/
def threadMessages (control : Lifecycle.Server) : ThreadId → List (Op n) → Nat
  | .electionReceiver, ops =>
    if control.phase (.receiver .leaderElection) = .handling then opsMessages ops else 0
  | .failureReceiver, ops =>
    if control.phase (.receiver .failureDetection) = .handling then opsMessages ops else 0
  | .spawned _, ops => opsMessages ops

/-- What the consensus receiver may still send. -/
def replyMessages (control : Lifecycle.Server) (received : Option (Fin n × Consensus.Packet)) :
    Nat :=
  if control.phase (.receiver .consensus) = .handling ∧ received.isSome then 1 else 0

/-- What a request leads to that the client receiver is about to handle. -/
def requestMessages (n : Nat) (control : Lifecycle.Server) (request : Option String) : Nat :=
  if control.phase (.receiver .client) = .handling ∧ request.isSome then 3 * n else 0

/-- What the election leads to that `ElectionManager::init` is about to start. -/
def initMessages (n : Nat) (control : Lifecycle.Server) : Nat :=
  if control.phase (.receiver .leaderElection) = .initializing then 2 * n else 0

/-- The most messages that a server still sends once its threads are held up. -/
def outstanding (node : Controlled.Node n) : Nat :=
  weigh (threadMessages node.control) node.work.server +
  callMessages node.work.server.consensus.thread +
  answerMessages node.work.server.client +
  (node.work.pingThread.map pingMessages).sum +
  replyMessages node.control node.work.server.received +
  requestMessages n node.control node.request +
  initMessages n node.control

/-! What the server's work takes out of this. -/

/-- A thread that may run pays for its section. -/
theorem section_pays {control : Lifecycle.Server} {node : Server.Node n} (hu : Unborn node)
    (ht : node.threads t = op::rest) (hw : threadMessages (n := n) control t = opsMessages)
    (he : exec rank node timedOut now op = some (ops,out)) :
    out.send.toList.length +
        weigh (threadMessages control) (out.state.setThread t (ops ++ rest)) ≤
      weigh (threadMessages control) node := by
  have hrun := weigh_run (w := threadMessages control) hu ht he
  have hpays := exec_pays he
  have hnew : weighNew (threadMessages control) node (spawns rank node op) =
      ((spawns rank node op).map opsMessages).getD 0 := rfl
  rw [hw, opsMessages_append, opsMessages_cons, hnew] at hrun
  omega

theorem threadMessages_permitted {node : Controlled.Node n}
    (hp : Controlled.permits node (.server (.run t timedOut k) now) = true) :
    threadMessages (n := n) node.control t = opsMessages := by
  cases t with
  | electionReceiver | failureReceiver =>
    have hphase : node.control.phase _ = .handling := eq_of_beq hp
    funext ops
    simp [threadMessages, hphase]
  | spawned k => rfl

/-- Work that no section of a thread is part of. -/
theorem outstanding_paid {node node' : Controlled.Node n} (hcontrol : node'.control = node.control)
    (hthreads : weigh (threadMessages node.control) node'.work.server =
      weigh (threadMessages node.control) node.work.server)
    (hping : node'.work.pingThread = node.work.pingThread)
    (hpays : sent + callMessages node'.work.server.consensus.thread +
        answerMessages node'.work.server.client +
        replyMessages node.control node'.work.server.received +
        requestMessages n node.control node'.request ≤
      callMessages node.work.server.consensus.thread +
        answerMessages node.work.server.client +
        replyMessages node.control node.work.server.received +
        requestMessages n node.control node.request) :
    sent + outstanding node' ≤ outstanding node := by
  unfold outstanding
  rw [hcontrol, hthreads, hping]
  omega

/-- What a server does besides its heartbeats pays for what it sends. -/
theorem server_pays {node : Controlled.Node n} {out : Server.Result n}
    (hu : Unborn node.work.server) (hp : Controlled.permits node (.server a now) = true)
    (h : ServerActs rank node.work.server a out) (timeStamps : Fin n → Int) :
    out.send.toList.length + (answersAmong out.events).length + outstanding { node with
      work := { node.work with server := out.state, timeStamps := timeStamps }
      request := Controlled.requestAfter node (.server a now) } ≤ outstanding node := by
  cases h with
  | connects hc | locks hc | hangsUp hc =>
    refine outstanding_paid ?_ ?_ ?_ ?_
    any_goals rfl
    simp [hc, answersAmong, answerMessages, Controlled.requestAfter]
  | replies value b hc =>
    refine outstanding_paid ?_ ?_ ?_ ?_
    any_goals rfl
    cases b with
    | false => simp [hc, answersAmong, answerMessages, Controlled.requestAfter]
    | true =>
      simp [hc, answersAmong, answerMessages, Controlled.requestAfter]
      omega
  | calls value k cout hc ha =>
    simp only [Controlled.permits, Controlled.Node.works, Bool.and_eq_true, beq_iff_eq] at hp
    obtain ⟨hphase,hrequest⟩ := hp
    have hbefore : requestMessages n node.control node.request = 3 * n := by
      simp [requestMessages, hphase, hrequest]
    have hafter : requestMessages n node.control none = 0 := by simp [requestMessages]
    have hlt := others_length_lt rank
    refine outstanding_paid ?_ ?_ ?_ ?_
    any_goals rfl
    cases ha with
    | called _ _ ht =>
      rw [ht, hbefore]
      simp only [ofConsensus, Option.bind_none, Option.toList_none, List.length_nil,
        Controlled.requestAfter, hafter, callMessages, answerMessages, answersAmong_nil]
      omega
  | proceeds value k c cout hc ha hd =>
    have hsend := ofConsensus_send_le rank { node.work.server with client := c } cout
    have hpays := session_pays ha hd
    refine outstanding_paid ?_ ?_ ?_ ?_
    any_goals rfl
    simp only [Controlled.requestAfter, ofConsensus, answersAmong_nil, List.length_nil] at hsend ⊢
    omega
  | handles k src packet cout hr ha =>
    have hphase : node.control.phase (.receiver .consensus) = .handling := eq_of_beq hp
    have hbefore : replyMessages node.control node.work.server.received = 1 := by
      simp [replyMessages, hphase, hr]
    have hsend := ofConsensus_send_le rank { node.work.server with received := none } cout
    have hone : cout.send.toList.length ≤ 1 := by cases cout.send <;> simp
    refine outstanding_paid ?_ ?_ ?_ ?_
    any_goals rfl
    rw [hbefore]
    simp only [ofConsensus, handles_thread ha, replyMessages, Controlled.requestAfter] at hsend ⊢
    simp
    omega
  | resets cout ha =>
    cases ha
    exact Nat.le_of_eq (Nat.zero_add _)
  | elects | fails | recovers => contradiction
  | runs t timedOut k op rest ops out' ht he =>
    have hpays := section_pays hu ht (threadMessages_permitted hp) he
    have hframe := exec_frame he
    have hreceived := (exec_consensus he).2
    unfold outstanding
    simp only [Server.Node.setThread_consensus, Server.Node.setThread_received,
      Server.Node.setThread_client, hframe.thread, hframe.client, hreceived,
      hframe.answersAmong_eq, List.length_nil, Controlled.requestAfter]
    omega

/-- A round of `checkTimeStamps` pays for the thread that it detaches. -/
theorem checkTimeStamp_pays (control : Lifecycle.Server) (rank : Fin n) (node : Heartbeat.Node n)
    (j : Fin n) (cur : Int) : weigh (threadMessages control)
      (Heartbeat.checkTimeStamp rank node j cur).server ≤
    weigh (threadMessages control) node.server + 2 * n := by
  have hn := rank.pos
  unfold Heartbeat.checkTimeStamp
  split
  · rw [weigh_spawn]
    simp [threadMessages, handleNodeFailure, opMessages]
  · split
    · split
      · rw [weigh_spawn]
        simp only [threadMessages, handleNodeRecovery, opsMessages_cons, opsMessages_nil, opMessages]
        omega
      · exact Nat.le_add_right _ _
    · exact Nat.le_add_right _ _

theorem checkTimeStamp_consensus (rank : Fin n) (node : Heartbeat.Node n) (j : Fin n) (cur : Int) :
    (Heartbeat.checkTimeStamp rank node j cur).server.consensus = node.server.consensus ∧
      (Heartbeat.checkTimeStamp rank node j cur).server.received = node.server.received ∧
      (Heartbeat.checkTimeStamp rank node j cur).server.client = node.server.client := by
  unfold Heartbeat.checkTimeStamp
  split
  · exact ⟨rfl,rfl,rfl⟩
  · split
    · split <;> exact ⟨rfl,rfl,rfl⟩
    · exact ⟨rfl,rfl,rfl⟩

/-- All work that a server may do pays for what it sends. -/
theorem work_pays {node : Controlled.Node n} {out : Heartbeat.Result n}
    (hu : Unborn node.work.server) (hp : Controlled.permits node a = true)
    (ho : Heartbeat.act rank node.work a = some out) :
    out.send.toList.length + (answersAmong out.events).length + outstanding { node with
      work := out.state, request := Controlled.requestAfter node a } ≤ outstanding node := by
  cases a with
  | pingCheck cur =>
    simp only [Controlled.permits, Bool.and_eq_true, Bool.not_eq_true', List.isEmpty_eq_false_iff]
      at hp
    simp only [Heartbeat.act, Heartbeat.pingCheck, Option.some.injEq] at ho
    split at ho
    · rename_i ht
      exact absurd ht hp.2
    · rename_i j rest ht
      subst ho
      have hpays := checkTimeStamp_pays node.control rank node.work j cur
      obtain ⟨hconsensus,hreceived,hclient⟩ := checkTimeStamp_consensus rank node.work j cur
      unfold outstanding
      simp only [hconsensus, hreceived, hclient, ht, List.map_cons, List.sum_cons, pingMessages,
        Controlled.requestAfter, Option.toList_none, List.length_nil, answersAmong_nil]
      omega
    · rename_i dst rest ht
      subst ho
      unfold outstanding
      simp only [ht, List.map_cons, List.sum_cons, pingMessages, Controlled.requestAfter,
        Option.toList_some, List.length_cons, List.length_nil, answersAmong_nil]
      omega
  | handlePing now =>
    obtain ⟨src,-,rfl⟩ := Option.map_eq_some_iff.mp ho
    exact Nat.le_of_eq (Nat.zero_add _)
  | server a now =>
    simp only [Heartbeat.act, Heartbeat.serve] at ho
    split at ho
    · contradiction
    · contradiction
    · obtain ⟨sout,hs,rfl⟩ := Option.map_eq_some_iff.mp ho
      have hpays := server_pays hu hp (serverActs_of_act hs)
        (if Heartbeat.resetsTimeStamps rank node.work.server a then now else node.work.timeStamps)
      cases hsend : sout.send with
      | none =>
        rw [hsend] at hpays
        exact hpays
      | some p =>
        rw [hsend] at hpays
        exact hpays

/-! A server that is held up. -/

/-- What a thread is at is not begun while `m_shouldBlock` is set. -/
theorem Becomes.unbegun (h : Becomes s s' u phase) (hblock : s.shouldBlock = true)
    (hp : phase = .handling ∨ phase = .initializing) : s.phase u = phase := by
  cases h with
  | same => rfl
  | notified =>
    revert hp
    unfold Lifecycle.Phase.notified
    split <;> simp_all
  | started tag => cases tag <;> simp [Lifecycle.firstPhase] at hp
  | tested phase ht =>
    unfold Lifecycle.Phase.tested at ht
    rw [hblock] at ht
    split at ht
    · cases ht
      simp at hp
    · cases ht
      simp at hp
    · contradiction
  | stopping | ended | finished | took | ready | pings | pinged => simp at hp

/-- No thread begins what it was not at before. -/
def NothingBegun (before after : Lifecycle.Server) : Prop :=
  ∀ t, after.phase t = .handling ∨ after.phase t = .initializing → before.phase t = after.phase t

theorem LifeStep.nothingBegun (h : LifeStep s l t) (hblock : s.shouldBlock = true) :
    NothingBegun s t :=
  fun u hu => (h.becomes u).unbegun hblock hu

section NothingBegun
variable {before after : Lifecycle.Server}

theorem threadMessages_le (h : NothingBegun before after) (t : ThreadId) (ops : List (Op n)) :
    threadMessages after t ops ≤ threadMessages before t ops := by
  cases t with
  | electionReceiver =>
    simp only [threadMessages]
    split
    · rename_i hp
      rw [if_pos ((h _ (.inl hp)).trans hp)]
    · exact Nat.zero_le _
  | failureReceiver =>
    simp only [threadMessages]
    split
    · rename_i hp
      rw [if_pos ((h _ (.inl hp)).trans hp)]
    · exact Nat.zero_le _
  | spawned k => exact Nat.le_refl _

theorem replyMessages_le (h : NothingBegun before after)
    (received : Option (Fin n × Consensus.Packet)) :
    replyMessages after received ≤ replyMessages before received := by
  unfold replyMessages
  split
  · rename_i hp
    rw [if_pos ⟨(h _ (.inl hp.1)).trans hp.1,hp.2⟩]
  · exact Nat.zero_le _

theorem requestMessages_le (h : NothingBegun before after) (request : Option String) :
    requestMessages n after request ≤ requestMessages n before request := by
  unfold requestMessages
  split
  · rename_i hp
    rw [if_pos ⟨(h _ (.inl hp.1)).trans hp.1,hp.2⟩]
  · exact Nat.zero_le _

theorem initMessages_le (h : NothingBegun before after) :
    initMessages n after ≤ initMessages n before := by
  unfold initMessages
  split
  · rename_i hp
    rw [if_pos ((h _ (.inr hp)).trans hp)]
  · exact Nat.zero_le _

/-- Threads that begin nothing have no more to send. -/
theorem outstanding_heldUp {node : Controlled.Node n} (h : NothingBegun node.control after) :
    outstanding { node with control := after } ≤ outstanding node := by
  have hthreads := weigh_le (threadMessages_le h) node.work.server
  have hreply := replyMessages_le h node.work.server.received
  have hrequest := requestMessages_le (n := n) h node.request
  have hinit := initMessages_le (n := n) h
  simp only [outstanding]
  omega

end NothingBegun

/-- The commands that let the threads of a server go on. -/
def awakens : Controlled.Action n → Bool
  | .control (.fetch (some .start)) | .control (.fetch (some .recover)) => true
  | _ => false

theorem blocked_step {s t : Lifecycle.Server} (hs : Lifecycle.step s l = some t)
    (hblock : s.shouldBlock = true) (hl : awakens (.control l : Controlled.Action n) = false) :
    t.shouldBlock = true := by
  cases (lifeStep_of_step hs).2 with
  | obeys code hp hcode =>
    cases code with
    | start | recover => simp [awakens] at hl
    | crash => rfl
    | shutdown | speedLow | speedMedium | speedHigh => exact hblock
  | main call rest hm hc => cases hc <;> exact hblock
  | stops call rest hp hc => cases hc <;> exact hblock
  | _ => exact hblock

theorem tested_blocked {s t : Lifecycle.Server} (hs : Lifecycle.step s (.test u) = some t)
    (hblock : s.shouldBlock = true) : t.phase u ≠ .handling := by
  cases (lifeStep_of_step hs).2 with
  | tests u phase hp =>
    rw [setPhase_self]
    rintro rfl
    unfold Lifecycle.Phase.tested at hp
    rw [hblock] at hp
    split at hp <;> simp at hp

/-- `ElectionManager::init` has paid for the election that it starts. -/
theorem elects_pays {node : Controlled.Node n} {after : Lifecycle.Server}
    {out : Heartbeat.Result n} (hblock : node.control.shouldBlock = true)
    (hs : Lifecycle.step node.control (.proceed (.receiver .leaderElection)) = some after)
    (hp : node.control.phase (.receiver .leaderElection) = .initializing)
    (ho : Heartbeat.act rank node.work (.server .startElection now) = some out) :
    out.send = none ∧ out.events = [] ∧
      outstanding { node with control := after, work := out.state } ≤ outstanding node := by
  have hstep := (lifeStep_of_step hs).2
  have hbegun := hstep.nothingBegun hblock
  have hphase : after.phase (.receiver .leaderElection) = .receiving := by
    cases hstep with
    | inits tag hp' => exact setPhase_self _ _ _
    | handles tag hp' => simp [hp] at hp'
  have hinit : initMessages n node.control = 2 * n := if_pos hp
  have hdone : initMessages n after = 0 := by simp [initMessages, hphase]
  have hthreads := weigh_le (threadMessages_le hbegun) node.work.server
  have hreply := replyMessages_le hbegun node.work.server.received
  have hrequest := requestMessages_le (n := n) hbegun node.request
  have htrigger := triggerElection_messages rank
  simp only [Heartbeat.act, Heartbeat.serve, Server.act, Option.map_some, Option.some.injEq] at ho
  subst ho
  refine ⟨rfl,rfl,?_⟩
  have hreceived : (node.work.server.spawn (triggerElection rank)).received =
      node.work.server.received := rfl
  simp only [outstanding, weigh_spawn, threadMessages, Server.Node.spawn_consensus,
    Server.Node.spawn_client, hreceived, hinit, hdone]
  omega

/-- What a server sends: a message of its consensus, election or failure manager to a peer, or
SUCCESS to its client. -/
inductive Sent (n : Nat)
  | message (dstNodeId : Fin n) (message : Heartbeat.Message n)
  | success (value : String)
deriving DecidableEq

def sent (out : Controlled.Result n) : List (Sent n) :=
  out.send.toList.map (fun p => .message p.1 p.2) ++ (answersAmong out.events).map .success

theorem length_sent (out : Controlled.Result n) :
    (sent out).length = out.send.toList.length + (answersAmong out.events).length := by
  rw [sent, List.length_append, List.length_map, List.length_map]

/-- Nothing that a server does while it is held up adds to what it may still send. -/
theorem controlled_pays {node : Controlled.Node n} (hu : Unborn node.work.server)
    (hblock : node.control.shouldBlock = true) (ha : awakens a = false)
    (h : ControlledActs rank node a out) :
    (sent out).length + outstanding out.state ≤ outstanding node ∧
      out.state.control.shouldBlock = true := by
  rw [length_sent]
  cases h with
  | moves l control hs =>
    refine ⟨?_,blocked_step hs hblock ha⟩
    have hle := outstanding_heldUp ((lifeStep_of_step hs).2.nothingBegun hblock)
    exact Nat.le_trans (Nat.le_of_eq (Nat.zero_add _)) hle
  | elects control o hs hp ho =>
    obtain ⟨hsend,hevents,hle⟩ := elects_pays hblock hs hp ho
    refine ⟨?_,blocked_step hs hblock ha⟩
    simpa [Controlled.onward, hsend, hevents] using hle
  | beats control hs hp => exact absurd hp (tested_blocked hs hblock)
  | reads value control hc hs =>
    have hstep := (lifeStep_of_step hs).2
    have hphase : control.phase (.receiver .client) = .pausing .testing := by
      cases hstep with
      | takes tag htag hp => exact setPhase_self _ _ _
    have hrequest : ∀ request, requestMessages n control request = 0 := by
      simp [requestMessages, hphase]
    have hle := outstanding_heldUp (hstep.nothingBegun hblock)
    refine ⟨?_,blocked_step (n := n) hs hblock rfl⟩
    simp only [outstanding, hrequest] at hle ⊢
    simpa using hle
  | works a o hrunning hp ho => exact ⟨work_pays hu hp ho,hblock⟩

/-- What a receiver has taken weighs nothing before it is handled. -/
theorem taken_weighs_nothing {control : Lifecycle.Server} {node y : Server.Node n}
    (hphase : control.phase (.receiver tag) ≠ .handling) (h : Accepts rank node tag src m y) :
    weigh (threadMessages control) y ≤ weigh (threadMessages control) node ∧
      replyMessages control y.received ≤ replyMessages control node.received ∧
      y.consensus = node.consensus ∧ y.client = node.client := by
  cases h with
  | dropped => exact ⟨Nat.le_refl _,Nat.le_refl _,rfl,rfl⟩
  | consensus =>
    refine ⟨Nat.le_refl _,?_,rfl,rfl⟩
    simp [replyMessages, hphase]
  | election =>
    have hmem : .electionReceiver ∈ threadsOf node := by simp [threadsOf]
    have hsame := weigh_weightless (w := threadMessages control) hmem
      (by simp [threadMessages, hphase])
    exact ⟨Nat.le_of_eq (hsame _),Nat.le_refl _,rfl,rfl⟩
  | failure =>
    have hmem : .failureReceiver ∈ threadsOf node := by simp [threadsOf]
    have hsame := weigh_weightless (w := threadMessages control) hmem
      (by simp [threadMessages, hphase])
    exact ⟨Nat.le_of_eq (hsame _),Nat.le_refl _,rfl,rfl⟩

theorem heartbeat_taken {control : Lifecycle.Server} {node y : Heartbeat.Node n}
    (hphase : control.phase (.receiver tag) ≠ .handling)
    (h : Heartbeat.accept rank node tag src m = some y) :
    weigh (threadMessages control) y.server ≤ weigh (threadMessages control) node.server ∧
      replyMessages control y.server.received ≤ replyMessages control node.server.received ∧
      y.server.consensus = node.server.consensus ∧ y.server.client = node.server.client ∧
      y.pingThread = node.pingThread := by
  cases m with
  | ping =>
    simp only [Heartbeat.accept, Option.ite_none_right_eq_some, Option.some.injEq] at h
    obtain ⟨-,rfl⟩ := h
    exact ⟨Nat.le_refl _,Nat.le_refl _,rfl,rfl,rfl⟩
  | server m =>
    simp only [Heartbeat.accept, Option.ite_none_left_eq_some] at h
    obtain ⟨-,h⟩ := h
    obtain ⟨x,hx,rfl⟩ := Option.map_eq_some_iff.mp h
    obtain ⟨hthreads,hreply,hconsensus,hclient⟩ :=
      taken_weighs_nothing hphase (accepts_of_accept hx)
    exact ⟨hthreads,hreply,hconsensus,hclient,rfl⟩

/-- A receiver that takes a message does not handle it while it is held up. -/
theorem accept_adds_nothing {node x : Controlled.Node n}
    (hblock : node.control.shouldBlock = true)
    (h : Controlled.accept rank node tag src m = some x) :
    outstanding x ≤ outstanding node ∧ x.control.shouldBlock = true := by
  obtain ⟨after,y,hs,hy,rfl⟩ := controlled_accept_cases h
  have hstep := (lifeStep_of_step hs).2
  have hcontrol : ∃ c,
      (if node.work.server.dropsFrom rank src tag then node.control else after) = c ∧
      NothingBegun node.control c ∧ c.phase (.receiver tag) ≠ .handling ∧
      c.shouldBlock = true := by
    cases hstep with
    | takes tag htag hp =>
      cases node.work.server.dropsFrom rank src tag with
      | true => exact ⟨_,rfl,fun _ _ => rfl,by simp [hp],hblock⟩
      | false =>
        refine ⟨_,rfl,(lifeStep_of_step hs).2.nothingBegun hblock,?_,hblock⟩
        simp [setPhase_self]
  obtain ⟨c,hc,hbegun,hphase,hblock'⟩ := hcontrol
  rw [hc]
  obtain ⟨hthreads,hreply,hconsensus,hclient,hping⟩ := heartbeat_taken hphase hy
  have hle := outstanding_heldUp hbegun
  refine ⟨Nat.le_trans ?_ hle,hblock'⟩
  simp only [outstanding, hconsensus, hclient, hping]
  omega

/-! Runs. -/

/-- A run of the cluster as its moves, each with the state it was made in. -/
abbrev ControlledTrace (n : Nat) := List (Controlled.Cluster n × Controlled.Move n)

/-- What an action of a server sends. -/
def sentIn (rank : Fin n) (node : Controlled.Node n) (a : Controlled.Action n) : List (Sent n) :=
  ((Controlled.act rank node a).map sent).getD []

/-- What server `i` sends in a run, in order. -/
def allSentBy (i : Fin n) (es : ControlledTrace n) : List (Sent n) := toldBy (sentIn i) i es

/-- Server `i` reads no START and no RECOVER. -/
def staysBlocked (i : Fin n) (_ : ControlledTrace n) (_ : Controlled.Cluster n)
    (l : Controlled.Move n) : Prop :=
  ∀ a, l = .act i a → awakens a = false

theorem controlled_unborn {s : Controlled.Cluster n}
    (hr : (Controlled.process n).network.traced.Reach Machine.free s es) (i : Fin n) :
    Unborn (s.nodes i).work.server := by
  obtain ⟨hist,-,hworks⟩ := controlled_works hr
  exact (heartbeat_recoveryBusy hworks i).unborn

theorem allSentBy_le {u s : Controlled.Cluster n}
    (hu : (Controlled.process n).network.traced.Reach Machine.free u before)
    (hblock : (u.nodes i).control.shouldBlock = true)
    (hr : ((Controlled.process n).network.traced.startingAt u).Reach (staysBlocked i) s es) :
    (allSentBy i es).length + outstanding (s.nodes i) ≤ outstanding (u.nodes i) ∧
      (s.nodes i).control.shouldBlock = true := by
  refine LaneProcess.told_le (f := outstanding)
    (K := fun node => node.control.shouldBlock = true) ?_ ?_ hblock hr
  · intro s es a out hr hok hk ho
    have hacts : Controlled.act i (s.nodes i) a = some out := ho
    have hsent : sentIn i (s.nodes i) a = sent out := by simp [sentIn, hacts]
    rw [hsent]
    exact controlled_pays (controlled_unborn (hu.goesOn hr) i) hk (hok a rfl)
      (controlledActs_of_act hacts)
  · intro k src x m y hk hy
    exact accept_adds_nothing hk hy

/-- From a CRASH on, up to the next START or RECOVER, the managers of a server send, PORT and
SHUTDOWN aside, no more than what its threads were at, when the command reached it, may still
lead to. -/
theorem crashed_managers_fall_silent {u s : Controlled.Cluster n}
    (hu : (Controlled.process n).network.traced.Reach Machine.free u before) (i : Fin n)
    (hblock : (u.nodes i).control.shouldBlock = true)
    (hr : ((Controlled.process n).network.traced.startingAt u).Reach (staysBlocked i) s es) :
    (allSentBy i es).length + outstanding (s.nodes i) ≤ outstanding (u.nodes i) :=
  (allSentBy_le hu hblock hr).1

def controls (i : Fin n) (moves : List Lifecycle.Move) : List (Controlled.Move n) :=
  moves.map (fun l => .act i (.control l))

def works (i : Fin n) (actions : List (Server.Action n)) : List (Controlled.Move n) :=
  actions.map (fun a => .act i (.work (.server a (fun _ => 0))))

/-- A server is started and elects itself, and crashes once a client's command has reached it. -/
def crashesInCall (i : Fin n) (value : String) : List (Controlled.Move n) :=
  controls i (startsWith .start ++ [Lifecycle.Move.test (.receiver .leaderElection),
    Lifecycle.Move.proceed (.receiver .leaderElection)]) ++
  works i (List.replicate 6 (.run (.spawned 0) true 0) ++ [.connect,.disallowRecovery]) ++
  .act i (.read value)::controls i [Lifecycle.Move.test (.receiver .client)] ++
  works i [.replicate value 7] ++ controls i [Lifecycle.Move.fetch (some .crash)]

/-- The client receiver goes on to the end of the call, and waits for the next command. -/
def endsCall (i : Fin n) : List (Controlled.Move n) :=
  works i (List.replicate 10 (.proceed 7) ++ [.reply]) ++
  controls i [Lifecycle.Move.proceed (.receiver .client)]

def staysBlockedTest (i : Fin n) : Controlled.Move n → Bool
  | .act j a => i != j || !awakens a
  | .receive _ _ _ => true

theorem staysBlocked_of_test (h : staysBlockedTest i l = true) : staysBlocked i es s l := by
  rintro a rfl
  simpa [staysBlockedTest] using h

theorem crashesInCall_end : ((Controlled.process 2).network.traced.follow (fun _ _ _ => true)
    (crashesInCall 1 "v") (Controlled.process 2).network.traced.start []).map (fun p =>
      ((p.1.nodes 1).control.shouldBlock,outstanding (p.1.nodes 1),
        (((Controlled.process 2).network.traced.startingAt p.1).follow
          (fun _ _ l => staysBlockedTest 1 l) (endsCall 1) p.1 []).map (fun q =>
            (allSentBy 1 q.2,outstanding (q.1.nodes 1))))) =
    some (true,5,some ([.message 0 (.server (.consensus ⟨.prepare 7,1⟩)),
      .message 0 (.server (.consensus ⟨.propose 7 7 "v",1⟩)),
      .message 0 (.server (.consensus ⟨.accepted 7 7 "v",1⟩)),.success "v"],0)) := by
  decide

theorem crashed_managers_fall_silent_endsCall : ∃ (u s : Controlled.Cluster 2)
    (before es : ControlledTrace 2),
    (Controlled.process 2).network.traced.Reach Machine.free u before ∧
    (u.nodes 1).control.shouldBlock = true ∧
    ((Controlled.process 2).network.traced.startingAt u).Reach (staysBlocked 1) s es ∧
    .success "v" ∈ allSentBy 1 es ∧ (allSentBy 1 es).length = 4 ∧
    (allSentBy 1 es).length + outstanding (s.nodes 1) ≤ outstanding (u.nodes 1) := by
  obtain ⟨u,before,hu,h⟩ := Machine.exists_reach (fun _ _ _ _ => trivial) crashesInCall_end
  simp only [Prod.mk.injEq] at h
  obtain ⟨hblock,-,hend⟩ := h
  obtain ⟨s,es,hr,h⟩ := Machine.exists_reach (fun _ _ _ => staysBlocked_of_test) hend
  obtain ⟨hsent,-⟩ := Prod.mk.inj h
  exact ⟨u,s,before,es,hu,hblock,hr,by simp [hsent],by simp [hsent],
    crashed_managers_fall_silent hu 1 hblock hr⟩

end Algorep.Proofs
