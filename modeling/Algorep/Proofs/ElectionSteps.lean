import Algorep.Proofs.ServerSteps

namespace Algorep.Proofs
open Kit Program Program.Server

/-- A run as its moves, each with the state it was made in. -/
abbrev Trace (n : Nat) := List (Server.Cluster n × Server.Move n)

/-- Runs that are told by their moves, under a guard that sees the moves so far. -/
abbrev TraceReach (elected : Option (Fin n))
    (ok : Trace n → Server.Cluster n → Server.Move n → Prop) : Server.Cluster n → Trace n → Prop :=
  (Server.process elected).network.traced.Reach ok

/-- Induction on a run, each step of it as a step of the cluster. -/
@[elab_as_elim]
theorem TraceReach.run {ok : Trace n → Server.Cluster n → Server.Move n → Prop}
    {motive : ∀ s es, TraceReach elected ok s es → Prop} (start : motive _ _ .start)
    (step : ∀ {s es l t e} (hr : TraceReach elected ok s es) (hok : ok es s l)
      (hs : (Server.process elected).network.traced.step s l = some (t,[(s,l)])),
      motive s es hr → (Server.process elected).Step s l t e →
        motive t (es ++ [(s,l)]) (.step hr hok hs))
    (hr : TraceReach elected ok s es) : motive s es hr := by
  induction hr with
  | start => exact start
  | step hr hok hs ih =>
    obtain ⟨rfl,e,he⟩ := Machine.traced_step hs
    exact step hr hok hs ih (LaneProcess.step_of_eq he)

def traceOutcome (elected : Option (Fin n))
    (test : Trace n → Server.Cluster n → Server.Move n → Bool) (moves : List (Server.Move n))
    (look : Server.Cluster n × Trace n → β) : Option β :=
  ((Server.process elected).network.traced.follow test moves
    (Server.process elected).network.traced.start []).map look

def leaderAfter (node : Server.Node n) : Op n → Option (Fin n)
  | .restartElection => none
  | .setLeaderNodeId value => some value
  | .handleMessage srcNodeId .victory => some srcNodeId
  | _ => node.leaderNodeId

def aliveAfter (node : Server.Node n) : Op n → Bool
  | .restartElection => false
  | .setAliveReceived value => value
  | _ => node.aliveReceived

def statusAfter (node : Server.Node n) : Op n → Fin n → Bool
  | .setNodeStatus nodeId value _ => Function.update node.processIsAlive nodeId value
  | _ => node.processIsAlive

def isAliveAfter (node : Server.Node n) : Op n → Fin n → Bool
  | .setIsAlive nodeId value => Function.update node.isAlive nodeId value
  | _ => node.isAlive

/-- The thread a section detaches. -/
def spawns (rank : Fin n) (node : Server.Node n) : Op n → Option (List (Op n))
  | .handleMessage srcNodeId .alive => if rank < srcNodeId then some aliveWait else none
  | .electIfLeader failedNodeId =>
    if node.leaderNodeId = some failedNodeId then some (triggerElection rank) else none
  | _ => none

/-- The message a section hands over for sending. -/
def sends (rank : Fin n) (node : Server.Node n) : Op n → Option (Fin n × Server.Message n)
  | .handleMessage srcNodeId .election => node.send rank srcNodeId .alive
  | .send dstNodeId message => node.send rank dstNodeId message
  | _ => none

/-- What a section does to the state that elections live in. -/
structure Ran (rank : Fin n) (node : Server.Node n) (op : Op n) (out : Server.Result n) : Prop where
  leader : out.state.leaderNodeId = leaderAfter node op
  alive : out.state.aliveReceived = aliveAfter node op
  status : out.state.processIsAlive = statusAfter node op
  isAlive : out.state.isAlive = isAliveAfter node op
  client : out.state.client = node.client
  threads : out.state.threads = match spawns rank node op with
    | some ops => Function.update node.threads (.spawned node.spawned) ops
    | none => node.threads
  spawned : out.state.spawned = match spawns rank node op with
    | some _ => node.spawned + 1
    | none => node.spawned
  send : out.send = sends rank node op

/-- The sections that another one leaves for its thread to run. -/
inductive Continues (rank : Fin n) (node : Server.Node n) : Op n → Op n → Prop
  | answered (src : Fin n) (hx : x ∈ broadcastElection rank) :
      Continues rank node (.handleMessage src .election) x
  | again (hl : node.leaderNodeId = none) (hx : x ∈ broadcastElection rank) :
      Continues rank node .broadcastIfNoLeader x
  | declared (hl : node.leaderNodeId = none)
      (hx : x ∈ declareVictory rank ++ [.enableClientConn]) :
      Continues rank node .declareIfNoLeader x
  | installed (src : Fin n) (id : Int) (k : Nat) (state : List String) :
      Continues rank node (.handleMessage src (.state id k state)) (.send src (.stateUpdated id k))
  | updated (src : Fin n) (id : Int) (k : Nat) (b : Bool) :
      Continues rank node (.handleMessage src (.stateUpdated id k)) (.updateChecked src b k)
  | recovered (src nodeId : Fin n) (hx : x ∈ enableComm nodeId none) :
      Continues rank node (.handleMessage src (.recovered nodeId)) x
  | recovering (dst : Fin n) (id : Int) (k : Nat) (hx : x ∈ pausedRecovery dst id k) :
      Continues rank node (.startRecovery dst k) x
  | read (dst : Fin n) (id : Int) (k : Nat) (state : List String) :
      Continues rank node (.readState dst id k) (.send dst (.state id k state))
  | checked (src : Fin n) (b : Bool) (k : Nat) (hx : x ∈ updateChecked rank node src b k) :
      Continues rank node (.updateChecked src b k) x

theorem exec_ran {node : Server.Node n} (h : exec rank node timedOut now op = some (ops,out)) :
    Ran rank node op out := by
  cases op with
  | handleMessage src m =>
    cases m with
    | consensus packet => simp [exec, handleMessage] at h
    | alive =>
      simp only [exec, handleMessage, Option.some.injEq, Prod.mk.injEq] at h
      rcases h with ⟨-,rfl⟩
      by_cases hs : rank < src <;> constructor <;>
        simp [hs, leaderAfter, aliveAfter, statusAfter, isAliveAfter, spawns, sends,
          Server.Node.spawn, Server.Node.setThread]
    | election | victory | state | stateUpdated | recovered =>
      simp only [exec, handleMessage, handleState, Option.some.injEq, Prod.mk.injEq] at h
      rcases h with ⟨-,rfl⟩
      constructor <;> rfl
  | waitForVictory =>
    simp only [exec, Option.ite_none_left_eq_some, Option.some.injEq, Prod.mk.injEq] at h
    rcases h with ⟨-,-,rfl⟩
    constructor <;> rfl
  | lockClientConn k =>
    simp only [exec] at h
    split at h
    · cases h
      constructor <;> rfl
    · contradiction
  | electIfLeader j =>
    simp only [exec, Option.some.injEq, Prod.mk.injEq] at h
    rcases h with ⟨-,rfl⟩
    by_cases hl : node.leaderNodeId = some j <;> constructor <;>
      simp [hl, leaderAfter, aliveAfter, statusAfter, isAliveAfter, spawns, sends,
        Server.Node.spawn, Server.Node.setThread]
  | send | restartElection | declareIfNoLeader | enableClientConn | setLeaderNodeId
    | setAliveReceived | broadcastIfNoLeader | setIsAlive | setNodeStatus | startRecovery
    | readState | clearRecoveryId | unlockClientConn | updateChecked =>
    simp only [exec, Option.some.injEq, Prod.mk.injEq] at h
    rcases h with ⟨-,rfl⟩
    constructor <;> rfl

theorem exec_continues {node : Server.Node n}
    (h : exec rank node timedOut now op = some (ops,out)) :
    ∀ x ∈ ops, Continues rank node op x := by
  intro x hx
  cases op with
  | handleMessage src m =>
    cases m with
    | consensus packet => simp [exec, handleMessage] at h
    | election =>
      simp only [exec, handleMessage, Option.some.injEq, Prod.mk.injEq] at h
      rcases h with ⟨rfl,-⟩
      exact .answered src hx
    | recovered nodeId =>
      simp only [exec, handleMessage, Option.some.injEq, Prod.mk.injEq] at h
      rcases h with ⟨rfl,-⟩
      split at hx
      · contradiction
      · exact .recovered src nodeId hx
    | state id k state =>
      simp only [exec, handleMessage, handleState, Option.some.injEq, Prod.mk.injEq] at h
      rcases h with ⟨rfl,-⟩
      rw [List.mem_singleton.mp hx]
      exact .installed src id k state
    | stateUpdated id k =>
      simp only [exec, handleMessage, Option.some.injEq, Prod.mk.injEq] at h
      rcases h with ⟨rfl,-⟩
      rw [List.mem_singleton.mp hx]
      exact .updated src id k _
    | alive | victory =>
      simp only [exec, handleMessage, Option.some.injEq, Prod.mk.injEq] at h
      rcases h with ⟨rfl,-⟩
      contradiction
  | waitForVictory =>
    simp only [exec, Option.ite_none_left_eq_some, Option.some.injEq, Prod.mk.injEq] at h
    rcases h with ⟨-,rfl,-⟩
    contradiction
  | lockClientConn k =>
    simp only [exec] at h
    split at h
    · cases h
      contradiction
    · contradiction
  | declareIfNoLeader =>
    simp only [exec, Option.some.injEq, Prod.mk.injEq] at h
    rcases h with ⟨rfl,-⟩
    split at hx
    · contradiction
    · rename_i hl
      exact .declared (by simpa [gotLeader] using hl) hx
  | broadcastIfNoLeader =>
    simp only [exec, Option.some.injEq, Prod.mk.injEq] at h
    rcases h with ⟨rfl,-⟩
    split at hx
    · contradiction
    · rename_i hl
      exact .again (by simpa [gotLeader] using hl) hx
  | startRecovery dst k =>
    simp only [exec, Option.some.injEq, Prod.mk.injEq] at h
    rcases h with ⟨rfl,-⟩
    exact .recovering dst _ k hx
  | readState dst id k =>
    simp only [exec, Option.some.injEq, Prod.mk.injEq] at h
    rcases h with ⟨rfl,-⟩
    rw [List.mem_singleton.mp hx]
    exact .read dst id k _
  | updateChecked src b k =>
    simp only [exec, Option.some.injEq, Prod.mk.injEq] at h
    rcases h with ⟨rfl,-⟩
    exact .checked src b k hx
  | send | restartElection | enableClientConn | setLeaderNodeId | setAliveReceived | setIsAlive
    | setNodeStatus | clearRecoveryId | unlockClientConn | electIfLeader =>
    simp only [exec, Option.some.injEq, Prod.mk.injEq] at h
    rcases h with ⟨rfl,-⟩
    contradiction

/-- The thread an action other than a section detaches. -/
def births (rank : Fin n) (node : Server.Node n) : Server.Action n → Option (List (Op n))
  | .startElection => some (triggerElection rank)
  | .detectFailure nodeId => some (handleNodeFailure nodeId)
  | .detectRecovery nodeId => some (handleNodeRecovery nodeId node.spawned)
  | _ => none

/-- The client manager's thread is inside `startConsensus`. -/
def replicating : Client → Bool
  | .replicating _ => true
  | _ => false

structure Untouched (node node' : Server.Node n) : Prop where
  leader : node'.leaderNodeId = node.leaderNodeId
  alive : node'.aliveReceived = node.aliveReceived
  status : node'.processIsAlive = node.processIsAlive
  isAlive : node'.isAlive = node.isAlive
  threads : node'.threads = node.threads
  spawned : node'.spawned = node.spawned

/-- What an action does to the state that elections live in. -/
inductive Turns (rank : Fin n) (node : Server.Node n) :
    Server.Action n → Server.Result n → Prop
  | ran (t : ThreadId) (timedOut : Bool) (now : Nat) (op : Op n) (rest ops : List (Op n))
      (out : Server.Result n) (ht : node.threads t = op::rest)
      (he : exec rank node timedOut now op = some (ops,out)) :
      Turns rank node (.run t timedOut now)
        { out with state := out.state.setThread t (ops ++ rest) }
  | born (a : Server.Action n) (ops : List (Op n)) (hb : births rank node a = some ops) :
      Turns rank node a { state := node.spawn ops }
  | client (a : Server.Action n) (out : Server.Result n)
      (hr : ∀ t timedOut now, a ≠ .run t timedOut now) (hb : births rank node a = none)
      (hu : Untouched node out.state)
      (hm : ∀ dst m, out.send = some (dst,m) → m.tag = .consensus)
      (hc : replicating out.state.client = true →
        replicating node.client = true ∨ ∃ v now, a = .replicate v now)
      (hv : ∀ v now, a = .replicate v now → replicating out.state.client = true) :
      Turns rank node a out

theorem ofConsensus_tag {node : Server.Node n} {out : Consensus.Result n}
    (h : (ofConsensus rank node out).send = some (dst,m)) : m.tag = .consensus := by
  simp only [ofConsensus, Option.bind_eq_some_iff, Server.Node.send,
    Option.ite_none_left_eq_some, Option.some.injEq, Prod.mk.injEq] at h
  obtain ⟨p,-,-,-,rfl⟩ := h
  rfl

theorem turns_of_act {node : Server.Node n} (h : Server.act rank node a = some out) :
    Turns rank node a out := by
  have hacts := serverActs_of_act h
  cases hacts with
  | connects | locks | hangsUp | replies =>
    exact .client _ _ (by simp) rfl ⟨rfl,rfl,rfl,rfl,rfl,rfl⟩ (by simp) (by simp [replicating])
      (by simp)
  | calls value now cout hc ha =>
    exact .client _ _ (by simp) rfl ⟨rfl,rfl,rfl,rfl,rfl,rfl⟩ (fun _ _ => ofConsensus_tag)
      (fun _ => .inr ⟨value,now,rfl⟩) (fun _ _ _ => rfl)
  | proceeds value now c cout hc ha hd =>
    exact .client _ _ (by simp) rfl ⟨rfl,rfl,rfl,rfl,rfl,rfl⟩ (fun _ _ => ofConsensus_tag)
      (fun _ => .inl (by simp [hc, replicating])) (by simp)
  | handles | resets =>
    exact .client _ _ (by simp) rfl ⟨rfl,rfl,rfl,rfl,rfl,rfl⟩ (fun _ _ => ofConsensus_tag) .inl
      (by simp)
  | elects | fails | recovers => exact .born _ _ rfl
  | runs t timedOut now op rest ops out' ht he => exact .ran t timedOut now op rest ops out' ht he

/-- What taking a message may change: one receiver thread, which was waiting. -/
inductive Taken (rank : Fin n) (node : Server.Node n) (src : Fin n) (m : Server.Message n) :
    MessageTag → Server.Node n → Prop
  | kept (hd : node.dropsFrom rank src tag = true ∨ tag = .consensus) (hu : Untouched node x)
      (hc : x.client = node.client) : Taken rank node src m tag x
  | election (ht : node.threads .electionReceiver = []) : Taken rank node src m .leaderElection
      (node.setThread .electionReceiver [.handleMessage src m])
  | failure (ht : node.threads .failureReceiver = []) : Taken rank node src m .failureDetection
      (node.setThread .failureReceiver [.handleMessage src m])

theorem taken_of_accept {node : Server.Node n} (h : accept rank node tag src m = some x) :
    Taken rank node src m tag x := by
  cases accepts_of_accept h with
  | dropped _ _ _ hd => exact .kept (.inl hd) ⟨rfl,rfl,rfl,rfl,rfl,rfl⟩ rfl
  | consensus => exact .kept (.inr rfl) ⟨rfl,rfl,rfl,rfl,rfl,rfl⟩ rfl
  | election _ _ ht => exact .election ht
  | failure _ _ ht => exact .failure ht

/-- The section an action runs. -/
def sectionAt (node : Server.Node n) : Server.Action n → Option (Op n)
  | .run t _ _ => (node.threads t).head?
  | _ => none

/-- Only `run` runs a section. -/
theorem sectionAt_run {node : Server.Node n} (h : sectionAt node a = some op) :
    ∃ t timedOut now, a = .run t timedOut now ∧ op ∈ node.threads t := by
  cases a with
  | run t timedOut now => exact ⟨t,timedOut,now,rfl,List.mem_of_mem_head? h⟩
  | _ => simp [sectionAt] at h

/-- The thread an action detaches. -/
def newThread (rank : Fin n) (node : Server.Node n) (a : Server.Action n) : Option (List (Op n)) :=
  match sectionAt node a with
  | some op => spawns rank node op
  | none => births rank node a

/-- What an action makes of one thread. -/
inductive ThreadAfter (rank : Fin n) (node : Server.Node n) (a : Server.Action n) (t : ThreadId) :
    List (Op n) → Prop
  | same (ha : ∀ timedOut now, a ≠ .run t timedOut now)
      (hn : t = .spawned node.spawned → newThread rank node a = none) :
      ThreadAfter rank node a t (node.threads t)
  | next (timedOut : Bool) (now : Nat) (op : Op n) (rest ops : List (Op n))
      (out : Server.Result n) (ha : a = .run t timedOut now) (ht : node.threads t = op::rest)
      (he : exec rank node timedOut now op = some (ops,out)) :
      ThreadAfter rank node a t (ops ++ rest)
  | first (ops : List (Op n)) (ha : ∀ timedOut now, a ≠ .run t timedOut now)
      (ht : t = .spawned node.spawned) (hn : newThread rank node a = some ops) :
      ThreadAfter rank node a t ops

/-- The state that elections live in, after an action. -/
structure Turned (rank : Fin n) (node : Server.Node n) (a : Server.Action n)
    (out : Server.Result n) : Prop where
  leader : out.state.leaderNodeId =
    ((sectionAt node a).map (leaderAfter node)).getD node.leaderNodeId
  alive : out.state.aliveReceived =
    ((sectionAt node a).map (aliveAfter node)).getD node.aliveReceived
  status : out.state.processIsAlive =
    ((sectionAt node a).map (statusAfter node)).getD node.processIsAlive
  isAlive : out.state.isAlive = ((sectionAt node a).map (isAliveAfter node)).getD node.isAlive
  spawned : out.state.spawned = match newThread rank node a with
    | some _ => node.spawned + 1
    | none => node.spawned
  thread : ∀ t, ThreadAfter rank node a t (out.state.threads t)
  send : ∀ dst m, out.send = some (dst,m) → m.tag = .consensus ∨
    (sectionAt node a).bind (sends rank node) = some (dst,m)
  sent : ∀ op, sectionAt node a = some op → out.send = sends rank node op

theorem births_run (rank : Fin n) {node : Server.Node n} (hb : births rank node a = some ops) :
    sectionAt node a = none := by
  cases a with
  | run => simp [births] at hb
  | _ => rfl

theorem update_thread (node : Server.Node n) (t : ThreadId) (ops : List (Op n)) (t' : ThreadId) :
    Function.update node.threads t ops t' = if t' = t then ops else node.threads t' := by
  by_cases h : t' = t
  · subst h
    simp
  · simp [h]

/-- A section leaves the other threads alone, or detaches one. -/
theorem ran_threadAfter {node : Server.Node n} (ht : node.threads t = op::rest)
    (he : exec rank node timedOut now op = some (ops,out)) (t' : ThreadId) :
    ThreadAfter rank node (.run t timedOut now) t'
      ((out.state.setThread t (ops ++ rest)).threads t') := by
  have hnew : newThread rank node (.run t timedOut now) = spawns rank node op := by
    simp [newThread, sectionAt, ht]
  by_cases htt : t' = t
  · subst htt
    rw [Server.Node.setThread_self]
    exact .next timedOut now op rest ops out rfl ht he
  · have ha : ∀ b k, (.run t timedOut now : Server.Action n) ≠ .run t' b k := by
      intro b k he
      cases he
      exact htt rfl
    rw [Server.Node.setThread_other _ _ _ htt, (exec_ran he).threads]
    cases hs : spawns rank node op with
    | none => exact .same ha (fun _ => hnew.trans hs)
    | some new =>
      dsimp only
      rw [update_thread]
      split
      · rename_i hk
        exact .first new ha hk (hnew.trans hs)
      · rename_i hk
        exact .same ha (fun he => absurd he hk)

theorem turned_of_turns {node : Server.Node n} (h : Turns rank node a out) :
    Turned rank node a out := by
  cases h with
  | ran t timedOut now op rest ops out ht he =>
    have hran := exec_ran he
    have hop : sectionAt node (.run t timedOut now) = some op := by simp [sectionAt, ht]
    have hnew : newThread rank node (.run t timedOut now) = spawns rank node op := by
      simp [newThread, hop]
    refine ⟨?_,?_,?_,?_,?_,ran_threadAfter ht he,?_,?_⟩
    · rw [hop]
      exact hran.leader
    · rw [hop]
      exact hran.alive
    · rw [hop]
      exact hran.status
    · rw [hop]
      exact hran.isAlive
    · rw [hnew]
      exact hran.spawned
    · intro dst m hm
      right
      rw [hop]
      exact hran.send.symm.trans hm
    · intro op' hop'
      rw [hop] at hop'
      cases hop'
      exact hran.send
  | born a ops hb =>
    have hop := births_run rank hb
    have hnew : newThread rank node a = some ops := by simp [newThread, hop, hb]
    refine ⟨by rw [hop]; rfl,by rw [hop]; rfl,by rw [hop]; rfl,by rw [hop]; rfl,by rw [hnew]; rfl,
      ?_,by simp,by simp [hop]⟩
    intro t
    have ha : ∀ b k, a ≠ .run t b k := by
      rintro b k rfl
      simp [births] at hb
    rw [show (node.spawn ops).threads t = Function.update node.threads (.spawned node.spawned) ops t
      from rfl, update_thread]
    split
    · rename_i hk
      exact .first ops ha hk hnew
    · rename_i hk
      exact .same ha (fun he => absurd he hk)
  | client a out hr hb hu hm hc hv =>
    have hop : sectionAt node a = none := by
      cases a with
      | run t timedOut now => exact absurd rfl (hr t timedOut now)
      | _ => rfl
    have hnew : newThread rank node a = none := by simp [newThread, hop, hb]
    refine ⟨by rw [hop]; exact hu.leader,by rw [hop]; exact hu.alive,by rw [hop]; exact hu.status,
      by rw [hop]; exact hu.isAlive,by rw [hnew]; exact hu.spawned,?_,
      fun dst m h => .inl (hm dst m h),by simp [hop]⟩
    intro t
    rw [hu.threads]
    exact .same (hr t) (fun _ => hnew)

theorem setThread_threads (node : Server.Node n) (t : ThreadId) (ops : List (Op n))
    (t' : ThreadId) :
    (node.setThread t ops).threads t' = if t' = t then ops else node.threads t' :=
  update_thread node t ops t'

/-- Threads that have not been detached have nothing to run. -/
def Unborn (node : Server.Node n) : Prop :=
  ∀ k, node.spawned ≤ k → node.threads (.spawned k) = []

/-- The threads that may have something to run. -/
def threadsOf (node : Server.Node n) : List ThreadId :=
  .electionReceiver::.failureReceiver::(List.range node.spawned).map .spawned

theorem mem_threadsOf {node : Server.Node n} (hu : Unborn node) (hx : x ∈ node.threads t) :
    t ∈ threadsOf node := by
  cases t with
  | electionReceiver | failureReceiver => simp [threadsOf]
  | spawned k =>
    have hk : k < node.spawned := by
      apply Nat.lt_of_not_le
      intro hle
      simp [hu k hle] at hx
    simp [threadsOf, hk]

theorem Turned.spawned_le {node : Server.Node n} (h : Turned rank node a out) :
    node.spawned ≤ out.state.spawned := by
  rw [h.spawned]
  split
  · exact Nat.le_succ _
  · exact Nat.le_refl _

theorem Turned.unborn {node : Server.Node n} (h : Turned rank node a out) (hu : Unborn node) :
    Unborn out.state := by
  intro k hk
  have hle := h.spawned_le
  have hold : node.threads (.spawned k) = [] := hu k (by omega)
  generalize hops : out.state.threads (.spawned k) = ops
  have hthread := h.thread (.spawned k)
  rw [hops] at hthread
  cases hthread with
  | same => exact hold
  | next timedOut now op rest ops out ha ht he => simp [hold] at ht
  | first ops ha ht hn =>
    have hspawned := h.spawned
    rw [hn] at hspawned
    have he : k = node.spawned := by simpa using ht
    rw [hspawned, he] at hk
    exact absurd hk (Nat.not_succ_le_self _)

/-- Where the sections of a thread come from. -/
theorem Turned.came {node : Server.Node n} (h : Turned rank node a out)
    (hx : x ∈ out.state.threads t) :
    x ∈ node.threads t ∨
    (∃ timedOut now op, a = .run t timedOut now ∧ sectionAt node a = some op ∧
      Continues rank node op x) ∨
    ∃ ops, t = .spawned node.spawned ∧ newThread rank node a = some ops ∧ x ∈ ops := by
  have hthread := h.thread t
  generalize out.state.threads t = ops at hthread hx
  cases hthread with
  | same => exact .inl hx
  | next timedOut now op rest ops out ha ht he =>
    rcases List.mem_append.mp hx with hx | hx
    · exact .inr (.inl ⟨timedOut,now,op,ha,by simp [ha, sectionAt, ht],exec_continues he x hx⟩)
    · exact .inl (ht ▸ List.mem_cons_of_mem _ hx)
  | first ops ha ht hn => exact .inr (.inr ⟨ops,ht,hn,hx⟩)

/-- A section stays in its thread until it is run. -/
theorem Turned.kept {node : Server.Node n} (h : Turned rank node a out) (hu : Unborn node)
    (hx : x ∈ node.threads t) : x ∈ out.state.threads t ∨
      ∃ timedOut now, a = .run t timedOut now ∧ (node.threads t).head? = some x := by
  have hthread := h.thread t
  generalize out.state.threads t = ops at hthread
  cases hthread with
  | same => exact .inl hx
  | next timedOut now op rest ops out ha ht he =>
    rw [ht] at hx
    rcases List.mem_cons.mp hx with rfl | hx
    · exact .inr ⟨timedOut,now,ha,by rw [ht]; rfl⟩
    · exact .inl (List.mem_append_right _ hx)
  | first ops ha ht hn =>
    rw [ht, hu _ (Nat.le_refl _)] at hx
    contradiction

theorem Turned.newborn {node : Server.Node n} (h : Turned rank node a out) (hu : Unborn node)
    (hn : newThread rank node a = some ops) : out.state.threads (.spawned node.spawned) = ops := by
  have hthread := h.thread (.spawned node.spawned)
  generalize out.state.threads (.spawned node.spawned) = x at hthread
  cases hthread with
  | same ha hsame => simp [hsame rfl] at hn
  | next timedOut now op rest ops' out' ha ht he => simp [hu _ (Nat.le_refl _)] at ht
  | first x ha ht hn' => exact Option.some.inj (hn'.symm.trans hn)

/-- A declaration that starts leaves all of it to its thread. -/
theorem Turned.declared {node : Server.Node n}
    (h : Turned rank node (.run t timedOut now) out)
    (ht : (node.threads t).head? = some .declareIfNoLeader) (hl : node.leaderNodeId = none)
    (hx : x ∈ declareVictory rank ++ [.enableClientConn]) : x ∈ out.state.threads t := by
  have hthread := h.thread t
  generalize out.state.threads t = ops at hthread
  cases hthread with
  | same ha hn => exact absurd rfl (ha timedOut now)
  | first ops ha => exact absurd rfl (ha timedOut now)
  | next b k op rest ops out' ha hops he =>
    rw [hops, List.head?_cons, Option.some.injEq] at ht
    subst ht
    simp only [exec, gotLeader, hl, Option.isSome_none, Bool.false_eq_true, ↓reduceIte,
      Option.some.injEq, Prod.mk.injEq] at he
    rw [← he.1]
    exact List.mem_append_left _ hx

/-- What taking a message leaves alone. -/
structure Undisturbing (node node' : Server.Node n) : Prop where
  leader : node'.leaderNodeId = node.leaderNodeId
  alive : node'.aliveReceived = node.aliveReceived
  status : node'.processIsAlive = node.processIsAlive
  spawned : node'.spawned = node.spawned
  detached : ∀ k, node'.threads (.spawned k) = node.threads (.spawned k)

theorem Taken.frame {node x : Server.Node n} (h : Taken rank node src m tag x) :
    Undisturbing node x := by
  cases h with
  | kept _ h _ => exact ⟨h.leader,h.alive,h.status,h.spawned,fun k => by rw [h.threads]⟩
  | election | failure =>
    exact ⟨rfl,rfl,rfl,rfl,fun k => Server.Node.setThread_other _ _ _ (by simp)⟩

theorem Taken.unborn {node x : Server.Node n} (h : Taken rank node src m tag x) (hu : Unborn node) :
    Unborn x := by
  unfold Unborn
  rw [h.frame.spawned]
  intro k hk
  rw [h.frame.detached, hu k hk]

/-- A taken message adds its handling to a thread that had nothing to run. -/
theorem Taken.came {node x : Server.Node n} (h : Taken rank node src m tag x)
    (hop : op ∈ x.threads t) : op ∈ node.threads t ∨
      (op = .handleMessage src m ∧ (t = .electionReceiver ∨ t = .failureReceiver)) := by
  cases h with
  | kept _ h _ => exact .inl (h.threads ▸ hop)
  | election | failure =>
    rw [setThread_threads] at hop
    split at hop
    · rename_i ht
      exact .inr ⟨List.mem_singleton.mp hop,by simp [ht]⟩
    · exact .inl hop

/-- A thread with something to run does not wait for a message. -/
theorem Taken.busy {node x : Server.Node n} (h : Taken rank node src m tag x)
    (hop : op ∈ node.threads t) : x.threads t = node.threads t := by
  cases h with
  | kept _ h _ => rw [h.threads]
  | election ht | failure ht =>
    rw [setThread_threads, if_neg]
    rintro rfl
    simp [ht] at hop

/-- What one step of a run does to one server. -/
inductive StepAt (s t : Server.Cluster n) (i : Fin n) : Server.Move n → Prop
  | other (hm : mover l ≠ i) (he : t.nodes i = s.nodes i) : StepAt s t i l
  | act (a : Server.Action n) (out : Server.Result n) (h : Turned i (s.nodes i) a out)
      (he : t.nodes i = out.state) : StepAt s t i (.act i a)
  | receive (tag : MessageTag) (src : Fin n) (m : Server.Message n) (hm : m ∈ s.chan tag src i)
      (h : Taken i (s.nodes i) src m tag (t.nodes i)) : StepAt s t i (.receive tag src i)

theorem step_at {s t : Server.Cluster n} (h : (Server.process elected).Step s l t e) (i : Fin n) :
    StepAt s t i l := by
  cases h with
  | act j a out ho =>
    by_cases hj : i = j
    · subst hj
      exact .act a out (turned_of_turns (turns_of_act ho)) (LaneNet.commit_self _ _ _ _)
    · exact .other (Ne.symm hj) (LaneNet.commit_other _ _ _ hj)
  | receive tag src dst m rest x hc hx =>
    by_cases hj : i = dst
    · subst hj
      refine .receive tag src m (hc ▸ List.mem_cons_self) ?_
      rw [LaneNet.take_self]
      exact taken_of_accept hx
    · exact .other (Ne.symm hj) (LaneNet.take_other _ _ _ _ _ hj)

theorem step_unborn {s t : Server.Cluster n} (h : (Server.process elected).Step s l t e)
    (hu : ∀ i, Unborn (s.nodes i)) (i : Fin n) : Unborn (t.nodes i) := by
  cases step_at h i with
  | other hm he => exact he ▸ hu i
  | act a out ht he => exact he ▸ ht.unborn (hu i)
  | receive tag src m hm ht => exact ht.unborn (hu i)

theorem reach_unborn (hr : TraceReach elected ok s es) : ∀ i, Unborn (s.nodes i) := by
  induction hr using TraceReach.run with
  | start => exact fun i k hk => rfl
  | step _ _ _ ih hs => exact step_unborn hs ih

/-- Sections that are all their thread has to run. -/
def standsAlone : Op n → Bool
  | .handleMessage _ _ | .updateChecked _ _ _ => true
  | _ => false

/-- Sections that only the receiver of the failure manager runs. -/
def byFailureReceiver : Op n → Bool
  | .handleMessage _ message => message.tag == .failureDetection
  | .updateChecked _ _ _ | .setNodeStatus _ true _ => true
  | _ => false

/-- The threads of a server keep to their own sections. -/
structure Threaded (node : Server.Node n) : Prop where
  unborn : Unborn node
  alone : ∀ t, ∀ x ∈ node.threads t, standsAlone x = true → node.threads t = [x]
  failure : ∀ t, ∀ x ∈ node.threads t, byFailureReceiver x = true → t = .failureReceiver

theorem continues_kinds {node : Server.Node n} (h : Continues rank node op x) :
    (standsAlone x = true → ∃ src id k, op = .handleMessage src (.stateUpdated id k)) ∧
    (byFailureReceiver x = true → byFailureReceiver op = true) := by
  cases h with
  | answered src hx | again hl hx =>
    rcases mem_broadcastElection hx with rfl | ⟨j,rfl⟩ <;> simp [standsAlone, byFailureReceiver]
  | declared hl hx =>
    rcases List.mem_append.mp hx with hx | hx
    · rcases mem_declareVictory hx with ⟨j,rfl⟩ | rfl <;> simp [standsAlone, byFailureReceiver]
    · rw [List.mem_singleton.mp hx]
      simp [standsAlone, byFailureReceiver]
  | installed => simp [standsAlone, byFailureReceiver]
  | updated src id k b => exact ⟨fun _ => ⟨src,id,k,rfl⟩,fun _ => rfl⟩
  | recovered src nodeId hx =>
    refine ⟨?_,fun _ => rfl⟩
    rcases mem_enableComm hx with rfl | rfl <;> simp [standsAlone]
  | recovering dst id k hx =>
    rcases mem_pausedRecovery hx with rfl | rfl | rfl | rfl <;>
      simp [standsAlone, byFailureReceiver]
  | read => simp [standsAlone, byFailureReceiver]
  | checked src b k hx =>
    refine ⟨?_,fun _ => rfl⟩
    rcases mem_updateChecked hx with ⟨j,-,rfl⟩ | hx | rfl
    · simp [standsAlone]
    · rcases mem_enableComm hx with rfl | rfl <;> simp [standsAlone]
    · simp [standsAlone]

/-- What a detached thread starts with. -/
theorem newThread_cases {node : Server.Node n} (hn : newThread rank node a = some ops) :
    ops = aliveWait ∨ ops = triggerElection rank ∨
      (∃ j, a = .detectFailure j ∧ ops = handleNodeFailure j) ∨
      ∃ j, a = .detectRecovery j ∧ ops = handleNodeRecovery j node.spawned := by
  unfold newThread at hn
  split at hn
  · unfold spawns at hn
    split at hn
    · split at hn
      · exact .inl (Option.some.inj hn).symm
      · contradiction
    · split at hn
      · exact .inr (.inl (Option.some.inj hn).symm)
      · contradiction
    · contradiction
  · cases a with
    | startElection => exact .inr (.inl (Option.some.inj hn).symm)
    | detectFailure j => exact .inr (.inr (.inl ⟨j,rfl,(Option.some.inj hn).symm⟩))
    | detectRecovery j => exact .inr (.inr (.inr ⟨j,rfl,(Option.some.inj hn).symm⟩))
    | _ => simp [births] at hn

/-- The sections that detached threads start with. -/
inductive Opening (n : Nat) : Op n → Prop
  | restart : Opening n .restartElection
  | ask (j : Fin n) : Opening n (.send j .election)
  | wait : Opening n .waitForVictory
  | declare : Opening n .declareIfNoLeader
  | flag (value : Bool) : Opening n (.setAliveReceived value)
  | again : Opening n .broadcastIfNoLeader
  | mark (j : Fin n) : Opening n (.setIsAlive j false)
  | cut (j : Fin n) : Opening n (.setNodeStatus j false none)
  | elect (j : Fin n) : Opening n (.electIfLeader j)
  | recover (j : Fin n) (k : Nat) : Opening n (.startRecovery j k)

theorem aliveWait_opening (hx : x ∈ aliveWait (n := n)) : Opening n x := by
  simp only [aliveWait, List.mem_cons, List.not_mem_nil, or_false] at hx
  rcases hx with rfl | rfl | rfl
  · exact .flag true
  · exact .again
  · exact .flag false

theorem triggerElection_opening {rank : Fin n} (hx : x ∈ triggerElection rank) : Opening n x := by
  rcases List.mem_append.mp hx with hx | hx
  · rcases mem_broadcastElection hx with rfl | ⟨j,rfl⟩
    · exact .restart
    · exact .ask j
  · simp only [List.mem_cons, List.not_mem_nil, or_false] at hx
    rcases hx with rfl | rfl
    · exact .wait
    · exact .declare

theorem newThread_opening {node : Server.Node n} (hn : newThread rank node a = some ops)
    (hx : x ∈ ops) : Opening n x := by
  rcases newThread_cases hn with rfl | rfl | ⟨j,-,rfl⟩ | ⟨j,-,rfl⟩
  · exact aliveWait_opening hx
  · exact triggerElection_opening hx
  · simp only [handleNodeFailure, List.mem_cons, List.not_mem_nil, or_false] at hx
    rcases hx with rfl | rfl | rfl
    · exact .mark j
    · exact .cut j
    · exact .elect j
  · rw [List.mem_singleton.mp hx]
    exact .recover j node.spawned

theorem newThread_kinds {node : Server.Node n} (hn : newThread rank node a = some ops)
    (hx : x ∈ ops) : standsAlone x = false ∧ byFailureReceiver x = false := by
  cases newThread_opening hn hx <;> exact ⟨rfl,rfl⟩

theorem Turned.threaded {node : Server.Node n} (h : Turned rank node a out)
    (hs : Threaded node) : Threaded out.state := by
  refine ⟨h.unborn hs.unborn,?_,?_⟩
  · intro t x hx halone
    have hthread := h.thread t
    generalize out.state.threads t = ops at hthread hx
    cases hthread with
    | same ha hn => exact hs.alone t x hx halone
    | first ops ha ht hn => simp [(newThread_kinds hn hx).1] at halone
    | next timedOut now op rest ops out' ha ht he =>
      rcases List.mem_append.mp hx with hx | hx
      · obtain ⟨src,id,k,rfl⟩ := (continues_kinds (exec_continues he x hx)).1 halone
        have hsingle := hs.alone t _ (by rw [ht]; exact List.mem_cons_self) rfl
        have hrest : rest = [] := by
          rw [ht] at hsingle
          exact (List.cons.inj hsingle).2
        simp only [exec, handleMessage, Option.some.injEq, Prod.mk.injEq] at he
        obtain ⟨rfl,-⟩ := he
        rw [hrest, List.mem_singleton.mp hx, List.append_nil]
      · have hsingle := hs.alone t x (by rw [ht]; exact List.mem_cons_of_mem _ hx) halone
        rw [ht] at hsingle
        rw [(List.cons.inj hsingle).2] at hx
        contradiction
  · intro t x hx hfail
    rcases h.came hx with hold | ⟨timedOut,now,op,ha,hop,hcont⟩ | ⟨ops,ht,hn,hx⟩
    · exact hs.failure t x hold hfail
    · have hfail' := (continues_kinds hcont).2 hfail
      subst ha
      exact hs.failure t op (List.mem_of_mem_head? hop) hfail'
    · simp [(newThread_kinds hn hx).2] at hfail

/-- A receiver thread takes messages of its own tag. -/
theorem Taken.threaded {node x : Server.Node n} (h : Taken rank node src m tag x)
    (htag : m.tag = tag) (hs : Threaded node) : Threaded x := by
  refine ⟨h.unborn hs.unborn,?_,?_⟩
  · intro t y hy halone
    cases h with
    | kept _ h _ =>
      rw [h.threads] at hy ⊢
      exact hs.alone t y hy halone
    | election ht | failure ht =>
      rw [setThread_threads] at hy ⊢
      split
      · rename_i he
        rw [if_pos he] at hy
        rw [List.mem_singleton.mp hy]
      · rename_i he
        rw [if_neg he] at hy
        exact hs.alone t y hy halone
  · intro t y hy hfail
    cases h with
    | kept _ h _ => exact hs.failure t y (h.threads ▸ hy) hfail
    | election ht =>
      rw [setThread_threads] at hy
      split at hy
      · rw [List.mem_singleton.mp hy] at hfail
        simp [byFailureReceiver, htag] at hfail
      · exact hs.failure t y hy hfail
    | failure ht =>
      rw [setThread_threads] at hy
      split at hy
      · rename_i he
        exact he
      · exact hs.failure t y hy hfail

/-- Every server's threads keep to their own sections, and messages to their lanes. -/
theorem reach_threaded (hr : TraceReach elected ok s es) :
    s.InLane Server.Message.tag ∧ ∀ i, Threaded (s.nodes i) := by
  induction hr using TraceReach.run with
  | start =>
    constructor
    · intro k a b m hm
      contradiction
    · exact fun i => ⟨fun k hk => rfl,fun t x hx => absurd hx List.not_mem_nil,
        fun t x hx => absurd hx List.not_mem_nil⟩
  | step _ _ _ ih hs =>
    obtain ⟨hlane,hthreads⟩ := ih
    constructor
    · cases hs with
      | act i a out ho => exact hlane.commit
      | receive k src dst m rest x hc hx => exact hlane.take hc
    · intro i
      cases step_at hs i with
      | other hm he => exact he ▸ hthreads i
      | act a out ht he => exact he ▸ ht.threaded (hthreads i)
      | receive tag src m hm ht => exact ht.threaded (hlane tag src i m hm) (hthreads i)

/-! The same for a step of the cluster. -/

theorem sectionOf_act (s : Server.Cluster n) (i : Fin n) (a : Server.Action n) :
    sectionOf s (.act i a) = sectionAt (s.nodes i) a := by
  cases a <;> rfl

theorem section_mem {s : Server.Cluster n} (h : sectionOf s l = some op) :
    ∃ t, op ∈ (s.nodes (mover l)).threads t := by
  cases l with
  | receive => simp [sectionOf] at h
  | act i a =>
    rw [sectionOf_act] at h
    obtain ⟨t,timedOut,now,-,hx⟩ := sectionAt_run h
    exact ⟨t,hx⟩

theorem step_leader {s t : Server.Cluster n} (h : (Server.process elected).Step s l t e)
    (i : Fin n) : (t.nodes i).leaderNodeId =
      if mover l = i then ((sectionOf s l).map (leaderAfter (s.nodes i))).getD
        (s.nodes i).leaderNodeId
      else (s.nodes i).leaderNodeId := by
  cases step_at h i with
  | other hm he => rw [if_neg hm, he]
  | act a out hturn he =>
    simp only [mover, ↓reduceIte]
    rw [he, sectionOf_act, hturn.leader]
  | receive tag src m hm htaken =>
    simp only [mover, ↓reduceIte]
    exact htaken.frame.leader

/-- A section is run or stays where it is. -/
theorem step_kept_section {s t : Server.Cluster n} (h : (Server.process elected).Step s l t e)
    (hu : Unborn (s.nodes i)) (hx : x ∈ (s.nodes i).threads u) :
    x ∈ (t.nodes i).threads u ∨ (mover l = i ∧ sectionOf s l = some x) := by
  cases step_at h i with
  | other hm he => exact .inl (he ▸ hx)
  | act a out hturn he =>
    rcases hturn.kept hu hx with hold | ⟨timedOut,now,rfl,hop⟩
    · exact .inl (he ▸ hold)
    · exact .inr ⟨rfl,hop⟩
  | receive tag src m hm htaken => exact .inl (htaken.busy hx ▸ hx)

/-- Where a section comes from. -/
theorem step_came_section {s t : Server.Cluster n} (h : (Server.process elected).Step s l t e)
    (hx : x ∈ (t.nodes i).threads u) :
    x ∈ (s.nodes i).threads u ∨
    (mover l = i ∧ ∃ op, sectionOf s l = some op ∧ Continues i (s.nodes i) op x) ∨
    (∃ a ops, l = .act i a ∧ newThread i (s.nodes i) a = some ops ∧ x ∈ ops) ∨
    ∃ tag src m, l = .receive tag src i ∧ m ∈ s.chan tag src i ∧ x = .handleMessage src m := by
  cases step_at h i with
  | other hm he => exact .inl (he ▸ hx)
  | act a out hturn he =>
    rw [he] at hx
    rcases hturn.came hx with hold | ⟨timedOut,now,op,rfl,hop,hcont⟩ | ⟨ops,-,hn,hx⟩
    · exact .inl hold
    · exact .inr (.inl ⟨rfl,op,hop,hcont⟩)
    · exact .inr (.inr (.inl ⟨a,ops,rfl,hn,hx⟩))
  | receive tag src m hm htaken =>
    rcases htaken.came hx with hold | ⟨heq,-⟩
    · exact .inl hold
    · exact .inr (.inr (.inr ⟨tag,src,m,rfl,hm,heq⟩))

/-- A message of the managers in flight is not new, or the section that was run sent it. -/
theorem step_came_message {s t : Server.Cluster n} (h : (Server.process elected).Step s l t e)
    (hm : m ∈ t.chan k a b) (hc : m.tag ≠ .consensus) :
    m ∈ s.chan k a b ∨
      (mover l = a ∧ ∃ op, sectionOf s l = some op ∧ sends a (s.nodes a) op = some (b,m)) := by
  rcases h.came hm with hold | ⟨x,out,rfl,ho,hsend⟩
  · exact .inl hold
  · have hturn := turned_of_turns (turns_of_act ho)
    have hbind := (hturn.send b m hsend).resolve_left hc
    obtain ⟨op,hop,hsends⟩ := Option.bind_eq_some_iff.mp hbind
    exact .inr ⟨rfl,op,(sectionOf_act s a x).trans hop,hsends⟩

theorem step_sent_message {s t : Server.Cluster n} (h : (Server.process elected).Step s l t e)
    (hop : sectionOf s l = some op)
    (hs : sends (mover l) (s.nodes (mover l)) op = some (b,m)) :
    m ∈ t.chan m.tag (mover l) b := by
  cases l with
  | receive => simp [sectionOf] at hop
  | act i a =>
    have hsec := hop
    rw [sectionOf_act] at hsec
    have hact := h
    cases hact with
    | act _ _ out ho =>
      have hturn := turned_of_turns (turns_of_act ho)
      exact h.sent ho ((hturn.sent op hsec).trans hs)

theorem step_declared {s t : Server.Cluster n} (h : (Server.process elected).Step s l t e)
    (hop : sectionOf s l = some .declareIfNoLeader)
    (hl : (s.nodes (mover l)).leaderNodeId = none) :
    ∃ u, ∀ x ∈ declareVictory (mover l) ++ [.enableClientConn],
      x ∈ (t.nodes (mover l)).threads u := by
  cases h with
  | receive => simp [sectionOf] at hop
  | act i a out ho =>
    rw [sectionOf_act] at hop
    cases a with
    | run u timedOut now =>
      refine ⟨u,?_⟩
      intro x hx
      dsimp only [mover] at hx hl ⊢
      rw [LaneNet.commit_self]
      have ho' : Server.act i (s.nodes i) (.run u timedOut now) = some out := ho
      exact (turned_of_turns (turns_of_act ho')).declared hop hl hx
    | _ => simp [sectionAt] at hop

theorem sends_victory {node : Server.Node n} (h : sends rank node op = some (dst,.victory)) :
    op = .send dst .victory ∧ node.dropsFrom rank dst .leaderElection = false := by
  cases op with
  | send j m =>
    simp only [sends, Server.Node.send, Option.ite_none_left_eq_some, Option.some.injEq,
      Prod.mk.injEq] at h
    obtain ⟨hd,rfl,rfl⟩ := h
    exact ⟨rfl,(Bool.not_eq_true _).mp hd⟩
  | handleMessage src m => cases m <;> simp [sends, Server.Node.send] at h
  | _ => simp [sends] at h

end Algorep.Proofs
