import Algorep.Proofs.ServerSteps

namespace Algorep.Proofs
open Kit Program Program.Server

/-- One node leads and is the only one to serve requests: nobody suspects it, and no
election is started. -/
def fixedLeader (L : Fin n) : Server.Move n → Bool
  | .act i (.replicate _ _) => i == L
  | .act _ .startElection => false
  | .act _ (.detectFailure nodeId) => nodeId != L
  | _ => true

/-- The value of an ACCEPTED. -/
def acceptedValue : Consensus.Message → Option String
  | .accepted _ _ value => some value
  | _ => none

/-! What there is to see while `L` leads. `spent` holds of the recovery threads that
have sent their STATE. -/

/-- The messages that travel. -/
inductive Travels (L : Fin n) (spent : Nat → Prop) : Fin n → Fin n → Server.Message n → Prop
  | taught (dst : Fin n) (packet : Consensus.Packet) (hd : dst ≠ L) :
      Travels L spent L dst (.consensus packet)
  | consensus (src dst : Fin n) (packet : Consensus.Packet) (hp : acceptedValue packet.message = none) :
      Travels L spent src dst (.consensus packet)
  | victory (dst : Fin n) : Travels L spent L dst .victory
  | state (dst : Fin n) (id : Int) (k : Nat) (state : List String) (hd : dst ≠ L)
      (hk : spent k) : Travels L spent L dst (.state id k state)
  | stateUpdated (src : Fin n) (id : Int) (k : Nat) (hs : src ≠ L) (hk : spent k) :
      Travels L spent src L (.stateUpdated id k)
  | recovered (dst nodeId : Fin n) (hd : dst ≠ L) : Travels L spent L dst (.recovered nodeId)

/-- The sections of `handleNodeFailure`. -/
inductive FailureOp (L : Fin n) : Op n → Prop
  | isAlive (nodeId : Fin n) : FailureOp L (.setIsAlive nodeId false)
  | status (nodeId : Fin n) (hj : nodeId ≠ L) : FailureOp L (.setNodeStatus nodeId false none)
  | elect (nodeId : Fin n) (hj : nodeId ≠ L) : FailureOp L (.electIfLeader nodeId)

/-- The sections of a follower's failure manager. -/
inductive FollowerOp (L : Fin n) (spent : Nat → Prop) : Op n → Prop
  | install (id : Int) (k : Nat) (state : List String) (hk : spent k) :
      FollowerOp L spent (.handleMessage L (.state id k state))
  | answer (id : Int) (k : Nat) (hk : spent k) : FollowerOp L spent (.send L (.stateUpdated id k))
  | told (nodeId : Fin n) : FollowerOp L spent (.handleMessage L (.recovered nodeId))
  | status (nodeId : Fin n) : FollowerOp L spent (.setNodeStatus nodeId true none)
  | isAlive (nodeId : Fin n) : FollowerOp L spent (.setIsAlive nodeId true)

/-- The sections of the leader's failure manager. -/
inductive LeaderOp (L : Fin n) (spent : Nat → Prop) : Op n → Prop
  | check (src : Fin n) (id : Int) (k : Nat) (hs : src ≠ L) (hk : spent k) :
      LeaderOp L spent (.handleMessage src (.stateUpdated id k))
  | decide (src : Fin n) (b : Bool) (k : Nat) (hs : src ≠ L) (hk : spent k) :
      LeaderOp L spent (.updateChecked src b k)
  | tell (dst nodeId : Fin n) (hd : dst ≠ L) : LeaderOp L spent (.send dst (.recovered nodeId))
  | relink (nodeId : Fin n) (k : Nat) (hj : nodeId ≠ L) (hk : spent k) :
      LeaderOp L spent (.setNodeStatus nodeId true (some k))
  | isAlive (nodeId : Fin n) : LeaderOp L spent (.setIsAlive nodeId true)
  | name (dst : Fin n) : LeaderOp L spent (.send dst .victory)

def followerRuns (L : Fin n) (spent : Nat → Prop) : ThreadId → Op n → Prop
  | .electionReceiver, op => op = .handleMessage L .victory
  | .failureReceiver, op => FollowerOp L spent op
  | .spawned _, op => FailureOp L op

def leaderRuns (L : Fin n) (spent : Nat → Prop) : ThreadId → Op n → Prop
  | .electionReceiver, op => op = .handleMessage L .victory
  | .failureReceiver, op => LeaderOp L spent op
  | .spawned _, _ => True

/-- Each thread has only sections of its own kind left. -/
def RunsOnly (R : ThreadId → Op n → Prop) (node : Server.Node n) : Prop :=
  ∀ t, ∀ op ∈ node.threads t, R t op

/-- How far thread `k` of the leader is, and whether it holds the lock: a thread of
`handleNodeFailure`, or a recovery. -/
inductive Stage (L : Fin n) (log : List String) (k : Nat) : Bool → List (Op n) → Prop
  | failing (ops : List (Op n)) (h : ∀ op ∈ ops, FailureOp L op) : Stage L log k false ops
  | starting (dst : Fin n) (hd : dst ≠ L) : Stage L log k false [.startRecovery dst k]
  | locking (dst : Fin n) (id : Int) (hd : dst ≠ L) :
      Stage L log k false (pausedRecovery dst id k)
  | reading (dst : Fin n) (id : Int) (hd : dst ≠ L) :
      Stage L log k true [.readState dst id k,.clearRecoveryId,.unlockClientConn]
  | sending (dst : Fin n) (id : Int) (hd : dst ≠ L) :
      Stage L log k true [.send dst (.state id k log),.clearRecoveryId,.unlockClientConn]
  | clearing : Stage L log k true [.clearRecoveryId,.unlockClientConn]
  | unlocking : Stage L log k true [.unlockClientConn]

/-- Sections of a recovery up to its STATE. -/
def beforeState : Op n → Bool
  | .startRecovery _ _ | .lockClientConn _ | .readState _ _ _ | .send _ (.state _ _ _) => true
  | _ => false

/-- Thread `k` exists and is past the STATE it had to send, if it had one. -/
def Spent (node : Server.Node n) (k : Nat) : Prop :=
  k < node.spawned ∧ ∀ op ∈ node.threads (.spawned k), beforeState op = false

/-- The messages `startConsensus` still has to send: ACCEPTED in its last broadcast
only, with the value it has written, and to every node once. -/
def Teaches (L : Fin n) : Consensus.Thread n → Prop
  | .prepare _ m _ | .propose _ m _ => acceptedValue m = none
  | .accepted value m rest =>
    acceptedValue m = some value ∧ (∀ dst ∈ rest, dst ≠ L) ∧ rest.Nodup
  | _ => True

structure FollowerOk (L : Fin n) (spent : Nat → Prop) (i : Fin n) (node : Server.Node n) :
    Prop where
  led : node.leaderNodeId = some L
  linked : node.processIsAlive L = true
  runs : RunsOnly (followerRuns L spent) node
  held : ∀ p, node.received = some p → Travels L spent p.1 i (.consensus p.2)
  idle : node.consensus.thread = .idle

structure LeaderOk (L : Fin n) (node : Server.Node n) : Prop where
  led : node.leaderNodeId = some L
  runs : RunsOnly (leaderRuns L (Spent node)) node
  held : ∀ p, node.received = some p → acceptedValue p.2.message = none
  stage : ∀ k, ∃ holding, Stage L node.log k holding (node.threads (.spawned k)) ∧
    (holding = true ↔ node.clientConnMutex = some (.recovery k))
  unborn : ∀ k, node.spawned ≤ k → node.threads (.spawned k) = []
  idle : (∀ value, node.client ≠ .replicating value) → node.consensus.thread = .idle
  session : node.client ≠ .accepting → node.client ≠ .connected →
    node.clientConnMutex = some .client
  teaches : Teaches L node.consensus.thread

theorem Travels.mono {spent spent' : Nat → Prop} {m : Server.Message n}
    (h : Travels L spent src dst m) (hs : ∀ k, spent k → spent' k) :
    Travels L spent' src dst m := by
  cases h with
  | taught _ packet hd => exact .taught _ packet hd
  | consensus _ _ packet hp => exact .consensus _ _ packet hp
  | victory => exact .victory _
  | state _ id k state hd hk => exact .state _ id k state hd (hs k hk)
  | stateUpdated _ id k hsrc hk => exact .stateUpdated _ id k hsrc (hs k hk)
  | recovered _ nodeId hd => exact .recovered _ nodeId hd

theorem FollowerOp.mono {spent spent' : Nat → Prop} (h : FollowerOp L spent op)
    (hs : ∀ k, spent k → spent' k) : FollowerOp L spent' op := by
  cases h with
  | install id k state hk => exact .install id k state (hs k hk)
  | answer id k hk => exact .answer id k (hs k hk)
  | told nodeId => exact .told nodeId
  | status nodeId => exact .status nodeId
  | isAlive nodeId => exact .isAlive nodeId

theorem LeaderOp.mono {spent spent' : Nat → Prop} (h : LeaderOp L spent op)
    (hs : ∀ k, spent k → spent' k) : LeaderOp L spent' op := by
  cases h with
  | check src id k hsrc hk => exact .check src id k hsrc (hs k hk)
  | decide src b k hsrc hk => exact .decide src b k hsrc (hs k hk)
  | tell dst nodeId hd => exact .tell dst nodeId hd
  | relink nodeId k hj hk => exact .relink nodeId k hj (hs k hk)
  | isAlive nodeId => exact .isAlive nodeId
  | name dst => exact .name dst

theorem RunsOnly.mono {R R' : ThreadId → Op n → Prop} {node : Server.Node n} (h : RunsOnly R node)
    (hr : ∀ t op, R t op → R' t op) : RunsOnly R' node :=
  fun t op hop => hr t op (h t op hop)

theorem RunsOnly.set {R : ThreadId → Op n → Prop} {node : Server.Node n} (h : RunsOnly R node)
    (hops : ∀ op ∈ ops, R t op) : RunsOnly R (node.setThread t ops) := by
  intro t' op hop
  by_cases ht : t' = t
  · subst ht
    rw [Server.Node.setThread_self] at hop
    exact hops op hop
  · rw [Server.Node.setThread_other _ _ _ ht] at hop
    exact h t' op hop

theorem RunsOnly.tail {R : ThreadId → Op n → Prop} {node : Server.Node n} (h : RunsOnly R node)
    (ht : node.threads t = op::rest) : ∀ op ∈ rest, R t op :=
  fun op' hop => h t op' (ht ▸ List.mem_cons_of_mem _ hop)

theorem RunsOnly.head {R : ThreadId → Op n → Prop} {node : Server.Node n} (h : RunsOnly R node)
    (ht : node.threads t = op::rest) : R t op :=
  h t op (ht ▸ List.mem_cons_self)

theorem FollowerOk.mono {spent spent' : Nat → Prop} {node : Server.Node n}
    (h : FollowerOk L spent i node) (hs : ∀ k, spent k → spent' k) :
    FollowerOk L spent' i node := by
  refine ⟨h.led,h.linked,h.runs.mono ?_,fun p hp => (h.held p hp).mono hs,h.idle⟩
  intro t op hop
  cases t with
  | failureReceiver => exact hop.mono hs
  | electionReceiver | spawned => exact hop

end Algorep.Proofs
