import Algorep.Proofs.ConsensusSteps
import Algorep.Program.Server

namespace Algorep.Proofs
open Kit Program Program.Server

/-- The section a move runs. -/
def sectionOf (s : Server.Cluster n) : Server.Move n → Option (Op n)
  | .act i (.run t _ _) => ((s.nodes i).threads t).head?
  | _ => none

/-- The moving node. -/
def mover : Server.Move n → Fin n
  | .act i _ => i
  | .receive _ _ dst => dst

/-- The client manager's thread is inside `handleMessage`. -/
def serving : Client → Bool
  | .replicating _ | .replying _ _ => true
  | .accepting | .connected | .session => false

/-- No thread of the node has anything to run. -/
def resting (node : Server.Node n) : Bool :=
  node.received.isNone && (node.threads .electionReceiver).isEmpty &&
    (node.threads .failureReceiver).isEmpty &&
    (List.range node.spawned).all (fun k => (node.threads (.spawned k)).isEmpty)

/-- No message with one of the tags is on its way. -/
def silent (tags : List MessageTag) (s : Server.Cluster n) : Bool :=
  tags.all (fun k => (List.finRange n).all (fun a =>
    (List.finRange n).all (fun b => (s.chan k a b).isEmpty)))

theorem silent_chan {s : Server.Cluster n} (h : silent tags s = true) (hk : k ∈ tags)
    (a b : Fin n) : s.chan k a b = [] := by
  have hab := List.all_eq_true.mp (List.all_eq_true.mp (List.all_eq_true.mp h k hk) a
    (List.mem_finRange a)) b (List.mem_finRange b)
  exact List.isEmpty_iff.mp hab

/-- The section a thread runs, and what it leaves for the thread to run. -/
theorem run_cases {node : Server.Node n} (h : run rank node t timedOut now = some out) :
    ∃ op rest ops out', node.threads t = op::rest ∧
      exec rank node timedOut now op = some (ops,out') ∧
      out = { out' with state := out'.state.setThread t (ops ++ rest) } := by
  unfold run at h
  split at h
  · contradiction
  · rename_i op rest ht
    rw [Option.map_eq_some_iff] at h
    obtain ⟨⟨ops,out'⟩,he,rfl⟩ := h
    exact ⟨op,rest,ops,out',ht,he,rfl⟩

/-! The sections each function leaves to its thread. -/

theorem mem_broadcastElection (hx : x ∈ broadcastElection rank) :
    x = .restartElection ∨ ∃ j, x = .send j .election := by
  simp only [broadcastElection, List.mem_cons, List.mem_map] at hx
  rcases hx with rfl | ⟨j,-,rfl⟩
  · exact .inl rfl
  · exact .inr ⟨j,rfl⟩

theorem mem_declareVictory (hx : x ∈ declareVictory rank) :
    (∃ j, x = .send j .victory) ∨ x = .setLeaderNodeId rank := by
  simp only [declareVictory, List.mem_append, List.mem_map, List.mem_singleton] at hx
  rcases hx with ⟨j,-,rfl⟩ | rfl
  · exact .inl ⟨j,rfl⟩
  · exact .inr rfl

theorem mem_enableComm (hx : x ∈ enableComm nodeId answers) :
    x = .setNodeStatus nodeId true answers ∨ x = .setIsAlive nodeId true := by
  simpa [enableComm] using hx

theorem mem_pausedRecovery (hx : x ∈ pausedRecovery nodeId id' k) :
    x = .lockClientConn k ∨ x = .readState nodeId id' k ∨ x = .clearRecoveryId ∨
      x = .unlockClientConn := by
  simpa [pausedRecovery] using hx

theorem mem_updateChecked {node : Server.Node n} (hx : x ∈ updateChecked rank node src b k) :
    (∃ j, j ≠ rank ∧ x = .send j (.recovered src)) ∨ x ∈ enableComm src (some k) ∨
      x = .send src .victory := by
  rcases List.mem_append.mp hx with hx | hx
  · split at hx
    · rcases List.mem_append.mp hx with hx | hx
      · simp only [broadcastRecovered, List.mem_map, mem_others] at hx
        obtain ⟨j,hj,rfl⟩ := hx
        exact .inl ⟨j,hj,rfl⟩
      · exact .inr (.inl hx)
    · contradiction
  · exact .inr (.inr (List.mem_singleton.mp hx))

/-- The snapshot a section installs as the log, and its sender. -/
def installs : Op n → Option (Fin n × List String)
  | .handleMessage srcNodeId (.state _ _ state) => some (srcNodeId,state)
  | _ => none

/-- The node a section makes the leader. -/
def names : Op n → Option (Fin n)
  | .setLeaderNodeId value => some value
  | .handleMessage srcNodeId .victory => some srcNodeId
  | _ => none

/-- What a section does to the log, the request being served and the history. -/
structure Frame (node : Server.Node n) (op : Op n) (out : Server.Result n) : Prop where
  log : out.state.log = ((installs op).map Prod.snd).getD node.log
  events : out.events = ((installs op).map (fun p => Event.replaced p.1 node.log p.2)).toList
  client : out.state.client = node.client
  thread : out.state.consensus.thread = node.consensus.thread

theorem exec_frame {node : Server.Node n}
    (h : exec rank node timedOut now op = some (ops,out)) : Frame node op out := by
  cases op with
  | handleMessage src m =>
    cases m with
    | consensus packet => simp [exec, handleMessage] at h
    | alive =>
      simp only [exec, handleMessage, Option.some.injEq, Prod.mk.injEq] at h
      rcases h with ⟨-,rfl⟩
      by_cases hs : rank < src <;> constructor <;> simp [hs, installs]
    | election | victory | state | stateUpdated | recovered =>
      simp only [exec, handleMessage, handleState, Option.some.injEq, Prod.mk.injEq] at h
      rcases h with ⟨-,rfl⟩
      constructor <;> simp [installs, Server.Node.log]
  | waitForVictory =>
    simp only [exec, Option.ite_none_left_eq_some, Option.some.injEq, Prod.mk.injEq] at h
    rcases h with ⟨-,-,rfl⟩
    constructor <;> simp [installs]
  | lockClientConn k =>
    simp only [exec] at h
    split at h
    · cases h
      constructor <;> simp [installs, Server.Node.log]
    · contradiction
  | electIfLeader j =>
    simp only [exec, Option.some.injEq, Prod.mk.injEq] at h
    rcases h with ⟨-,rfl⟩
    by_cases hl : node.leaderNodeId = some j <;> constructor <;> simp [hl, installs]
  | send | restartElection | declareIfNoLeader | enableClientConn | setLeaderNodeId
    | setAliveReceived | broadcastIfNoLeader | setIsAlive | setNodeStatus | startRecovery
    | readState | clearRecoveryId | unlockClientConn | updateChecked =>
    simp only [exec, Option.some.injEq, Prod.mk.injEq] at h
    rcases h with ⟨-,rfl⟩
    constructor <;> simp [installs, Server.Node.log]

/-- Everything a server can do, with what it has checked. -/
inductive ServerActs (rank : Fin n) (node : Server.Node n) :
    Server.Action n → Server.Result n → Prop
  | connects (hc : node.client = .accepting) (hp : node.portPublished = true) :
      ServerActs rank node .connect { state := { node with client := .connected } }
  | locks (hc : node.client = .connected) (hm : node.clientConnMutex = none) :
      ServerActs rank node .disallowRecovery {
      state := { node with client := .session, clientConnMutex := some .client } }
  | calls (value : String) (now : Nat) (out : Consensus.Result n) (hc : node.client = .session)
      (ha : Acts rank node.consensus (.startConsensus value now) out) :
      ServerActs rank node (.replicate value now)
        (ofConsensus rank { node with client := .replicating value } out)
  | proceeds (value : String) (now : Nat) (c : Client) (out : Consensus.Result n)
      (hc : node.client = .replicating value) (ha : Acts rank node.consensus (.proceed now) out)
      (hd : (c = .replicating value ∧ ∀ b, node.consensus.thread ≠ .logWait b) ∨
        ∃ b, c = .replying value b ∧ node.consensus.thread = .logWait b) :
      ServerActs rank node (.proceed now) (ofConsensus rank { node with client := c } out)
  | replies (value : String) (b : Bool) (hc : node.client = .replying value b) :
      ServerActs rank node .reply {
      state := { node with client := .session }
      events := if b then [.success value] else [] }
  | hangsUp (hc : node.client = .session) : ServerActs rank node .disconnect {
      state := { node with client := .accepting, clientConnMutex := none } }
  | handles (now : Nat) (src : Fin n) (packet : Consensus.Packet) (out : Consensus.Result n)
      (hr : node.received = some (src,packet))
      (ha : Handles rank node.consensus src packet now out) :
      ServerActs rank node (.handleConsensus now)
        (ofConsensus rank { node with received := none } out)
  | resets (out : Consensus.Result n) (ha : Acts rank node.consensus .resetContext out) :
      ServerActs rank node .resetContext (ofConsensus rank node out)
  | elects : ServerActs rank node .startElection { state := node.spawn (triggerElection rank) }
  | fails (nodeId : Fin n) (hj : nodeId ≠ rank) (hi : node.isAlive nodeId = true) :
      ServerActs rank node (.detectFailure nodeId) {
      state := node.spawn (handleNodeFailure nodeId) }
  | recovers (nodeId : Fin n) (hj : nodeId ≠ rank) (hi : node.isAlive nodeId = false)
      (hid : node.curRecoveryId = -1) (hl : node.leaderNodeId = some rank) :
      ServerActs rank node (.detectRecovery nodeId) {
      state := node.spawn (handleNodeRecovery nodeId node.spawned) }
  | runs (t : ThreadId) (timedOut : Bool) (now : Nat) (op : Op n) (rest ops : List (Op n))
      (out : Server.Result n) (ht : node.threads t = op::rest)
      (he : exec rank node timedOut now op = some (ops,out)) :
      ServerActs rank node (.run t timedOut now) {
      out with state := out.state.setThread t (ops ++ rest) }

theorem serverActs_of_act {node : Server.Node n} (h : Server.act rank node a = some out) :
    ServerActs rank node a out := by
  cases a with
  | connect =>
    simp only [Server.act, connect, Option.ite_none_right_eq_some, Option.some.injEq] at h
    obtain ⟨⟨hc,hp⟩,rfl⟩ := h
    exact .connects hc hp
  | disallowRecovery =>
    simp only [Server.act, disallowRecovery, Option.ite_none_right_eq_some, Option.some.injEq] at h
    obtain ⟨⟨hc,hm⟩,rfl⟩ := h
    exact .locks hc hm
  | disconnect =>
    simp only [Server.act, disconnect, Option.ite_none_right_eq_some, Option.some.injEq] at h
    obtain ⟨hc,rfl⟩ := h
    exact .hangsUp hc
  | replicate value now =>
    simp only [Server.act, replicate] at h
    split at h
    · rename_i hc
      rw [Option.map_eq_some_iff] at h
      obtain ⟨cout,hs,rfl⟩ := h
      exact .calls value now cout hc (acts_of_act hs)
    · contradiction
  | proceed now =>
    simp only [Server.act, Server.proceed] at h
    split at h
    · rename_i value hc
      rw [Option.map_eq_some_iff] at h
      obtain ⟨cout,hp,rfl⟩ := h
      refine .proceeds value now _ cout hc (acts_of_act hp) ?_
      split
      · rename_i b ht
        exact .inr ⟨b,rfl,ht⟩
      · rename_i hno
        exact .inl ⟨rfl,hno⟩
    · contradiction
  | reply =>
    simp only [Server.act, reply] at h
    split at h
    · rename_i value b hc
      cases h
      exact .replies value b hc
    · contradiction
  | handleConsensus now =>
    simp only [Server.act, handleConsensus] at h
    split at h
    · rename_i src packet hr
      rw [Option.map_eq_some_iff] at h
      obtain ⟨cout,hc,rfl⟩ := h
      exact .handles now src packet cout hr (handles_of_handle hc).2
    · contradiction
  | resetContext =>
    simp only [Server.act, Option.map_eq_some_iff] at h
    obtain ⟨cout,hc,rfl⟩ := h
    exact .resets cout (acts_of_act hc)
  | startElection =>
    simp only [Server.act, Option.some.injEq] at h
    subst h
    exact .elects
  | detectFailure nodeId =>
    simp only [Server.act, detectFailure, Option.ite_none_right_eq_some, Option.some.injEq] at h
    obtain ⟨⟨hj,hi⟩,rfl⟩ := h
    exact .fails nodeId hj hi
  | detectRecovery nodeId =>
    simp only [Server.act, detectRecovery, Option.ite_none_right_eq_some, Option.some.injEq] at h
    obtain ⟨⟨hj,hi,hid,hl⟩,rfl⟩ := h
    exact .recovers nodeId hj hi hid hl
  | run t timedOut now =>
    obtain ⟨op,rest,ops,out',ht,he,rfl⟩ := run_cases h
    exact .runs t timedOut now op rest ops out' ht he

/-- What a receiver thread can do with the message at the head of a channel. -/
inductive Accepts (rank : Fin n) (node : Server.Node n) :
    MessageTag → Fin n → Server.Message n → Server.Node n → Prop
  | dropped (tag : MessageTag) (src : Fin n) (m : Server.Message n)
      (hd : node.dropsFrom rank src tag = true) : Accepts rank node tag src m node
  | consensus (src : Fin n) (packet : Consensus.Packet) (hr : node.received = none)
      (hb : node.consensus.resetting = false) :
      Accepts rank node .consensus src (.consensus packet)
        { node with received := some (src,packet) }
  | election (src : Fin n) (m : Server.Message n) (ht : node.threads .electionReceiver = []) :
      Accepts rank node .leaderElection src m
        (node.setThread .electionReceiver [.handleMessage src m])
  | failure (src : Fin n) (m : Server.Message n) (ht : node.threads .failureReceiver = []) :
      Accepts rank node .failureDetection src m
        (node.setThread .failureReceiver [.handleMessage src m])

theorem accepts_of_accept {node : Server.Node n} (h : accept rank node tag src m = some x) :
    Accepts rank node tag src m x := by
  unfold accept at h
  dsimp only at h
  split at h
  · simp only [Option.ite_none_right_eq_some, Bool.and_eq_true, Option.isNone_iff_eq_none,
      Bool.not_eq_eq_eq_not, Bool.not_true, Option.some.injEq] at h
    obtain ⟨⟨hr,hb⟩,rfl⟩ := h
    split
    · rename_i hd
      exact .dropped _ _ _ hd
    · exact .consensus _ _ hr hb
  · simp only [Option.ite_none_right_eq_some, List.isEmpty_iff, Option.some.injEq] at h
    obtain ⟨ht,rfl⟩ := h
    split
    · rename_i hd
      exact .dropped _ _ _ hd
    · exact .election _ _ ht
  · simp only [Option.ite_none_right_eq_some, List.isEmpty_iff, Option.some.injEq] at h
    obtain ⟨ht,rfl⟩ := h
    split
    · rename_i hd
      exact .dropped _ _ _ hd
    · exact .failure _ _ ht
  · contradiction

/-- What taking a message leaves alone. -/
theorem accept_frame {node : Server.Node n} (h : accept rank node tag src m = some x) :
    x.leaderNodeId = node.leaderNodeId ∧ x.client = node.client ∧
    x.consensus = node.consensus := by
  cases accepts_of_accept h <;> exact ⟨rfl,rfl,rfl⟩

end Algorep.Proofs
