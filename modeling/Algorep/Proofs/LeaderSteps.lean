import Algorep.Proofs.FollowerSteps

namespace Algorep.Proofs
open Kit Program Program.Server

/-- Everything the leader can do while it stays the only one. -/
inductive LeaderActs (L : Fin n) (node : Server.Node n) :
    Server.Action n → Server.Result n → Prop
  | client (a : Server.Action n) (c : Client) (m : Option Holder) (e : List (Event n))
      (hi : ∀ value, node.client ≠ .replicating value) (hs : c ≠ .accepting → c ≠ .connected →
        m = some .client) (hm : ∀ k, m = some (.recovery k) ↔
        node.clientConnMutex = some (.recovery k)) : LeaderActs L node a {
      state := { node with client := c, clientConnMutex := m }
      events := e }
  | called (value : String) (now : Nat) (out : Consensus.Result n) (hc : node.client = .session)
      (ha : Acts L node.consensus (.startConsensus value now) out) :
      LeaderActs L node (.replicate value now)
        (ofConsensus L { node with client := .replicating value } out)
  | proceeded (value : String) (now : Nat) (c : Client) (out : Consensus.Result n)
      (hc : node.client = .replicating value)
      (ha : Acts L node.consensus (.proceed now) out)
      (hd : c = .replicating value ∨
        (∃ b, c = .replying value b) ∧ out.state.thread = .idle) :
      LeaderActs L node (.proceed now) (ofConsensus L { node with client := c } out)
  | handled (now : Nat) (src : Fin n) (packet : Consensus.Packet) (out : Consensus.Result n)
      (hr : node.received = some (src,packet))
      (ha : Handles L node.consensus src packet now out) :
      LeaderActs L node (.handleConsensus now) (ofConsensus L { node with received := none } out)
  | reset (out : Consensus.Result n) (ha : Acts L node.consensus .resetContext out) :
      LeaderActs L node .resetContext (ofConsensus L node out)
  | failing (nodeId : Fin n) (hj : nodeId ≠ L) : LeaderActs L node
      (.detectFailure nodeId) { state := node.spawn (handleNodeFailure nodeId) }
  | recovering (nodeId : Fin n) (hj : nodeId ≠ L) : LeaderActs L node
      (.detectRecovery nodeId) { state := node.spawn (handleNodeRecovery nodeId node.spawned) }
  | victory (timedOut : Bool) (now : Nat) (rest : List (Op n))
      (ht : node.threads .electionReceiver = .handleMessage L .victory::rest) :
      LeaderActs L node (.run .electionReceiver timedOut now) {
      state := { node with leaderNodeId := some L }.setThread .electionReceiver rest }
  | checked (timedOut : Bool) (now : Nat) (src : Fin n) (id : Int) (k : Nat) (b : Bool)
      (rest : List (Op n))
      (ht : node.threads .failureReceiver = .handleMessage src (.stateUpdated id k)::rest) :
      LeaderActs L node (.run .failureReceiver timedOut now) {
      state := node.setThread .failureReceiver (.updateChecked src b k::rest) }
  | decided (timedOut : Bool) (now : Nat) (src : Fin n) (k : Nat) (b : Bool) (rest : List (Op n))
      (ht : node.threads .failureReceiver = .updateChecked src b k::rest) :
      LeaderActs L node (.run .failureReceiver timedOut now) {
      state := node.setThread .failureReceiver (updateChecked L node src b k ++ rest) }
  | told (timedOut : Bool) (now : Nat) (dst nodeId : Fin n) (rest : List (Op n)) (hd : dst ≠ L)
      (ht : node.threads .failureReceiver = .send dst (.recovered nodeId)::rest) :
      LeaderActs L node (.run .failureReceiver timedOut now) {
      state := node.setThread .failureReceiver rest
      send := some (dst,.recovered nodeId) }
  | named (timedOut : Bool) (now : Nat) (dst : Fin n) (rest : List (Op n))
      (ht : node.threads .failureReceiver = .send dst .victory::rest) :
      LeaderActs L node (.run .failureReceiver timedOut now) {
      state := node.setThread .failureReceiver rest
      send := node.send L dst .victory }
  | relinked (timedOut : Bool) (now : Nat) (nodeId : Fin n) (k : Nat) (rest : List (Op n))
      (ht : node.threads .failureReceiver = .setNodeStatus nodeId true (some k)::rest) :
      LeaderActs L node (.run .failureReceiver timedOut now) {
      state := { node with
        processIsAlive := Function.update node.processIsAlive nodeId true }.setThread
          .failureReceiver rest }
  | isAlive (timedOut : Bool) (now : Nat) (t : ThreadId) (nodeId : Fin n) (b : Bool)
      (rest : List (Op n)) (ht : node.threads t = .setIsAlive nodeId b::rest) :
      LeaderActs L node (.run t timedOut now) {
      state := { node with isAlive := Function.update node.isAlive nodeId b }.setThread t rest }
  | unlinked (timedOut : Bool) (now : Nat) (k : Nat) (nodeId : Fin n) (rest : List (Op n))
      (ht : node.threads (.spawned k) = .setNodeStatus nodeId false none::rest) :
      LeaderActs L node (.run (.spawned k) timedOut now) {
      state := { node with
        processIsAlive := Function.update node.processIsAlive nodeId false }.setThread
          (.spawned k) rest }
  | elect (timedOut : Bool) (now : Nat) (t : ThreadId) (nodeId : Fin n) (rest : List (Op n))
      (ht : node.threads t = .electIfLeader nodeId::rest) :
      LeaderActs L node (.run t timedOut now) { state := node.setThread t rest }
  | started (timedOut : Bool) (now : Nat) (k : Nat) (dst : Fin n) (id : Int) (hd : dst ≠ L)
      (ht : node.threads (.spawned k) = [.startRecovery dst k]) :
      LeaderActs L node (.run (.spawned k) timedOut now) {
      state := { node with curRecoveryId := id }.setThread (.spawned k)
        (pausedRecovery dst id k) }
  | locked (timedOut : Bool) (now : Nat) (k : Nat) (dst : Fin n) (id : Int) (hd : dst ≠ L)
      (hm : node.clientConnMutex = none)
      (ht : node.threads (.spawned k) = pausedRecovery dst id k) :
      LeaderActs L node (.run (.spawned k) timedOut now) {
      state := { node with clientConnMutex := some (.recovery k) }.setThread (.spawned k)
        [.readState dst id k,.clearRecoveryId,.unlockClientConn] }
  | read (timedOut : Bool) (now : Nat) (k : Nat) (dst : Fin n) (id : Int) (hd : dst ≠ L)
      (ht : node.threads (.spawned k) =
        [.readState dst id k,.clearRecoveryId,.unlockClientConn]) :
      LeaderActs L node (.run (.spawned k) timedOut now) {
      state := node.setThread (.spawned k)
        [.send dst (.state id k node.log),.clearRecoveryId,.unlockClientConn] }
  | sent (timedOut : Bool) (now : Nat) (k : Nat) (dst : Fin n) (id : Int) (hd : dst ≠ L)
      (ht : node.threads (.spawned k) =
        [.send dst (.state id k node.log),.clearRecoveryId,.unlockClientConn]) :
      LeaderActs L node (.run (.spawned k) timedOut now) {
      state := node.setThread (.spawned k) [.clearRecoveryId,.unlockClientConn]
      send := some (dst,.state id k node.log) }
  | cleared (timedOut : Bool) (now : Nat) (k : Nat)
      (ht : node.threads (.spawned k) = [.clearRecoveryId,.unlockClientConn]) :
      LeaderActs L node (.run (.spawned k) timedOut now) {
      state := { node with curRecoveryId := -1 }.setThread (.spawned k) [.unlockClientConn] }
  | unlocked (timedOut : Bool) (now : Nat) (k : Nat)
      (ht : node.threads (.spawned k) = [.unlockClientConn]) :
      LeaderActs L node (.run (.spawned k) timedOut now) {
      state := { node with clientConnMutex := none }.setThread (.spawned k) [] }

theorem leader_run_failure {node : Server.Node n} (hok : LeaderOk L node)
    (h : run L node .failureReceiver timedOut now = some out) :
    LeaderActs L node (.run .failureReceiver timedOut now) out := by
  obtain ⟨op,rest,ops,out',ht,he,rfl⟩ := run_cases h
  have hop : LeaderOp L (Spent node) op := hok.runs.head ht
  cases hop with
  | check src id k hs hk =>
    simp only [exec, handleMessage, Option.some.injEq, Prod.mk.injEq] at he
    rcases he with ⟨rfl,rfl⟩
    exact .checked timedOut now src id k _ rest ht
  | decide src b k hs hk =>
    simp only [exec, Option.some.injEq, Prod.mk.injEq] at he
    rcases he with ⟨rfl,rfl⟩
    exact .decided timedOut now src k b rest ht
  | tell dst nodeId hd =>
    simp only [exec, Option.some.injEq, Prod.mk.injEq] at he
    rcases he with ⟨rfl,rfl⟩
    rw [send_failure node L dst rfl]
    exact .told timedOut now dst nodeId rest hd ht
  | name dst =>
    simp only [exec, Option.some.injEq, Prod.mk.injEq] at he
    rcases he with ⟨rfl,rfl⟩
    exact .named timedOut now dst rest ht
  | relink nodeId k hj hk =>
    simp only [exec, Option.some.injEq, Prod.mk.injEq] at he
    rcases he with ⟨rfl,rfl⟩
    exact .relinked timedOut now nodeId k rest ht
  | isAlive nodeId =>
    simp only [exec, Option.some.injEq, Prod.mk.injEq] at he
    rcases he with ⟨rfl,rfl⟩
    exact .isAlive timedOut now _ nodeId true rest ht

theorem leader_run_spawned {node : Server.Node n} (hok : LeaderOk L node)
    (h : run L node (.spawned k) timedOut now = some out) :
    LeaderActs L node (.run (.spawned k) timedOut now) out := by
  obtain ⟨op,rest,ops,out',ht,he,rfl⟩ := run_cases h
  obtain ⟨holding,hstage,-⟩ := hok.stage k
  rw [ht] at hstage
  cases hstage with
  | failing _ hops =>
    cases hops op List.mem_cons_self with
    | isAlive nodeId =>
      simp only [exec, Option.some.injEq, Prod.mk.injEq] at he
      rcases he with ⟨rfl,rfl⟩
      exact .isAlive timedOut now _ nodeId false rest ht
    | status nodeId hj =>
      simp only [exec, Option.some.injEq, Prod.mk.injEq] at he
      rcases he with ⟨rfl,rfl⟩
      exact .unlinked timedOut now k nodeId rest ht
    | elect nodeId hj =>
      have hne : node.leaderNodeId ≠ some nodeId := by
        rw [hok.led]
        exact fun hl => hj (Option.some.inj hl).symm
      simp only [exec, hne, ↓reduceIte, Option.some.injEq, Prod.mk.injEq] at he
      rcases he with ⟨rfl,rfl⟩
      exact .elect timedOut now _ nodeId rest ht
  | starting dst hd =>
    simp only [exec, Option.some.injEq, Prod.mk.injEq] at he
    rcases he with ⟨rfl,rfl⟩
    exact .started timedOut now k dst _ hd ht
  | locking dst id hd =>
    simp only [exec] at he
    split at he
    · rename_i hm
      simp only [Option.some.injEq, Prod.mk.injEq] at he
      rcases he with ⟨rfl,rfl⟩
      exact .locked timedOut now k dst id hd hm ht
    · contradiction
  | reading dst id hd =>
    simp only [exec, Option.some.injEq, Prod.mk.injEq] at he
    rcases he with ⟨rfl,rfl⟩
    exact .read timedOut now k dst id hd ht
  | sending dst id hd =>
    simp only [exec, Option.some.injEq, Prod.mk.injEq] at he
    rcases he with ⟨rfl,rfl⟩
    rw [send_failure node L dst rfl]
    exact .sent timedOut now k dst id hd ht
  | clearing =>
    simp only [exec, Option.some.injEq, Prod.mk.injEq] at he
    rcases he with ⟨rfl,rfl⟩
    exact .cleared timedOut now k ht
  | unlocking =>
    simp only [exec, Option.some.injEq, Prod.mk.injEq] at he
    rcases he with ⟨rfl,rfl⟩
    exact .unlocked timedOut now k ht

theorem leader_run {node : Server.Node n} (hok : LeaderOk L node)
    (h : run L node t timedOut now = some out) :
    LeaderActs L node (.run t timedOut now) out := by
  cases t with
  | failureReceiver => exact leader_run_failure hok h
  | spawned k => exact leader_run_spawned hok h
  | electionReceiver =>
    obtain ⟨op,rest,ops,out',ht,he,rfl⟩ := run_cases h
    have hop : op = .handleMessage L .victory := hok.runs.head ht
    subst hop
    simp only [exec, handleMessage, Option.some.injEq, Prod.mk.injEq] at he
    rcases he with ⟨rfl,rfl⟩
    exact .victory timedOut now rest ht

theorem leader_acts {node : Server.Node n} (hok : LeaderOk L node)
    (hg : fixedLeader L (.act L a) = true) (h : Server.act L node a = some out) :
    LeaderActs L node a out := by
  have hacts := serverActs_of_act h
  cases hacts with
  | connects hc hp =>
    exact .client _ .connected node.clientConnMutex [] (by simp [hc])
      (fun _ hn => absurd rfl hn) (fun _ => Iff.rfl)
  | locks hc hm =>
    exact .client _ .session (some .client) [] (by simp [hc]) (fun _ _ => rfl) (by simp [hm])
  | hangsUp hc =>
    have hm : node.clientConnMutex = some .client := hok.session (by simp [hc]) (by simp [hc])
    exact .client _ .accepting none [] (by simp [hc]) (fun hn => absurd rfl hn) (by simp [hm])
  | calls value now cout hc ha => exact .called value now cout hc ha
  | proceeds value now c cout hc ha hd =>
    refine .proceeded value now c cout hc ha ?_
    rcases hd with ⟨rfl,-⟩ | ⟨b,rfl,ht⟩
    · exact .inl rfl
    · exact .inr ⟨⟨b,rfl⟩,acts_returns ha ht⟩
  | replies value b hc =>
    exact .client _ .session node.clientConnMutex _ (by simp [hc])
      (fun _ _ => hok.session (by simp [hc]) (by simp [hc])) (fun _ => Iff.rfl)
  | handles now src packet cout hr ha => exact .handled now src packet cout hr ha
  | resets cout ha => exact .reset cout ha
  | elects => simp [fixedLeader] at hg
  | fails nodeId hj hi => exact .failing nodeId hj
  | recovers nodeId hj hi hid hl => exact .recovering nodeId hj
  | runs t timedOut now op rest ops out' ht he => exact leader_run hok h

theorem acts_teaches {node : Consensus.Node n} (ha : Acts L node (.proceed now) out)
    (h : Teaches L node.thread) : Teaches L out.state.thread := by
  cases ha with
  | sentPrepare value m dst rest ht => rw [ht] at h; exact h
  | promisesSampled value m ht => dsimp only; split <;> trivial
  | proposed value now ht => rfl
  | sentPropose value m dst rest ht => rw [ht] at h; exact h
  | acceptsSampled value m ht => dsimp only; split <;> trivial
  | appended value ht => trivial
  | announced value now ht => exact ⟨rfl,fun dst hd => mem_others.mp hd,others_nodup L⟩
  | sentAccepted value m dst rest ht =>
    rw [ht] at h
    obtain ⟨hm,hne,hnodup⟩ := h
    exact ⟨hm,fun d hd => hne d (List.mem_cons_of_mem _ hd),(List.nodup_cons.mp hnodup).2⟩
  | reached value m ht => trivial
  | returned b ht => trivial

theorem acts_travels {node : Consensus.Node n} (ha : Acts L node (.proceed now) out)
    (h : Teaches L node.thread) (hs : out.send = some (dst,p)) :
    Travels L spent L dst (.consensus p) := by
  cases ha with
  | sentPrepare value m d rest ht =>
    cases hs
    rw [ht] at h
    exact .consensus _ _ _ h
  | sentPropose value m d rest ht =>
    cases hs
    rw [ht] at h
    exact .consensus _ _ _ h
  | sentAccepted value m d rest ht =>
    cases hs
    rw [ht] at h
    exact .taught _ _ (h.2.1 _ List.mem_cons_self)
  | _ => simp at hs

theorem handles_log_eq {node : Consensus.Node n} (ha : Handles rank node src packet now out)
    (hp : acceptedValue packet.message = none) : out.state.log = node.log := by
  cases ha with
  | learned id roundId value hm => simp [hm, acceptedValue] at hp
  | _ => rfl

theorem Stage.log_free {ops : List (Op n)} (h : Stage L log k false ops)
    (log' : List String) : Stage L log' k false ops := by
  cases h with
  | failing _ hops => exact .failing _ hops
  | starting dst hd => exact .starting dst hd
  | locking dst id hd => exact .locking dst id hd

/-- What only the liveness tables and the recovery id know does not matter. -/
theorem LeaderOk.tables {node : Server.Node n} (h : LeaderOk L node)
    (isAlive processIsAlive : Fin n → Bool) (id : Int) : LeaderOk L { node with
      isAlive := isAlive, processIsAlive := processIsAlive, curRecoveryId := id } :=
  ⟨h.led,h.runs,h.held,h.stage,h.unborn,h.idle,h.session,h.teaches⟩

/-- The log may grow while the client manager has the lock. -/
theorem LeaderOk.consensus {node : Server.Node n} (h : LeaderOk L node) {c : Consensus.Node n}
    {client : Client} {received : Option (Fin n × Consensus.Packet)}
    (hlog : c.log = node.log ∨ node.clientConnMutex = some .client)
    (hidle : (∀ value, client ≠ .replicating value) → c.thread = .idle)
    (hsession : client ≠ .accepting → client ≠ .connected →
      node.clientConnMutex = some .client)
    (hteaches : Teaches L c.thread)
    (hheld : ∀ p, received = some p → acceptedValue p.2.message = none) :
    LeaderOk L { node with consensus := c, client := client, received := received } := by
  refine ⟨h.led,h.runs,hheld,?_,h.unborn,hidle,hsession,hteaches⟩
  intro k
  obtain ⟨holding,hst,hiff⟩ := h.stage k
  refine ⟨holding,?_,hiff⟩
  rcases hlog with hlog | hm
  · exact (show Server.Node.log { node with
      consensus := c, client := client, received := received } = node.log from hlog) ▸ hst
  · cases holding with
    | true => simp [hm] at hiff
    | false => exact hst.log_free _

/-- A receiver of the leader moves on. -/
theorem LeaderOk.receiver {node : Server.Node n} (h : LeaderOk L node)
    (ht : ∀ k, ThreadId.spawned k ≠ t) (hops : ∀ op ∈ ops, leaderRuns L (Spent node) t op) :
    LeaderOk L (node.setThread t ops) ∧
    ∀ k, Spent node k → Spent (node.setThread t ops) k := by
  have hsame : ∀ k, (node.setThread t ops).threads (.spawned k) = node.threads (.spawned k) :=
    fun k => Server.Node.setThread_other _ _ _ (ht k)
  have hspent : Spent (node.setThread t ops) = Spent node := by
    funext k
    simp [Spent, hsame]
  refine ⟨⟨h.led,?_,h.held,?_,?_,h.idle,h.session,h.teaches⟩,fun k hk => hspent ▸ hk⟩
  · rw [hspent]
    exact h.runs.set hops
  · intro k
    rw [hsame]
    exact h.stage k
  · intro k hk
    rw [hsame]
    exact h.unborn k hk

/-- A thread of the leader moves on, and may take or give back the lock. -/
theorem LeaderOk.thread {node : Server.Node n} (h : LeaderOk L node) {m : Option Holder}
    (hk : node.threads (.spawned k) ≠ []) (hst : Stage L node.log k holding ops)
    (hm : holding = true ↔ m = some (.recovery k))
    (hother : ∀ k', k' ≠ k → (m = some (.recovery k') ↔
      node.clientConnMutex = some (.recovery k')))
    (hsession : node.client ≠ .accepting → node.client ≠ .connected → m = some .client)
    (hspent : (∀ op ∈ node.threads (.spawned k), beforeState op = false) →
      ∀ op ∈ ops, beforeState op = false) :
    LeaderOk L ({ node with clientConnMutex := m }.setThread (.spawned k) ops) ∧
    ∀ k', Spent node k' →
      Spent ({ node with clientConnMutex := m }.setThread (.spawned k) ops) k' := by
  have hborn : k < node.spawned := by
    by_contra hn
    exact hk (h.unborn k (Nat.le_of_not_lt hn))
  have hsame : ∀ k', k' ≠ k → ({ node with clientConnMutex := m }.setThread (.spawned k)
      ops).threads (.spawned k') = node.threads (.spawned k') :=
    fun k' hne => Server.Node.setThread_other _ _ _ (by simpa using hne)
  have hmono : ∀ k', Spent node k' →
      Spent ({ node with clientConnMutex := m }.setThread (.spawned k) ops) k' := by
    intro k' hs
    refine ⟨hs.1,?_⟩
    by_cases hkk : k' = k
    · subst hkk
      rw [Server.Node.setThread_self]
      exact hspent hs.2
    · rw [hsame k' hkk]
      exact hs.2
  refine ⟨⟨h.led,?_,h.held,?_,?_,h.idle,hsession,h.teaches⟩,hmono⟩
  · refine RunsOnly.set (h.runs.mono ?_) (fun _ _ => trivial)
    intro t op hop
    cases t with
    | failureReceiver => exact hop.mono hmono
    | electionReceiver | spawned => exact hop
  · intro k'
    by_cases hkk : k' = k
    · subst hkk
      rw [Server.Node.setThread_self]
      exact ⟨holding,hst,hm⟩
    · rw [hsame k' hkk]
      obtain ⟨holding',hst',hiff'⟩ := h.stage k'
      exact ⟨holding',hst',hiff'.trans (hother k' hkk).symm⟩
  · intro k' hle
    rw [hsame k' (fun he => absurd hborn (by subst he; exact Nat.not_lt_of_le hle))]
    exact h.unborn k' hle

theorem Stage.nil_idle {L : Fin n} (h : Stage L log k holding []) : holding = false := by
  cases h
  rfl

theorem LeaderOk.spawn {node : Server.Node n} (h : LeaderOk L node)
    (hst : Stage L node.log node.spawned false ops) :
    LeaderOk L (node.spawn ops) ∧ ∀ k, Spent node k → Spent (node.spawn ops) k := by
  have hself : (node.spawn ops).threads (.spawned node.spawned) = ops :=
    Server.Node.setThread_self _ _ _
  have hsame : ∀ t, t ≠ .spawned node.spawned → (node.spawn ops).threads t = node.threads t :=
    fun t ht => Server.Node.setThread_other _ _ _ ht
  have hmono : ∀ k, Spent node k → Spent (node.spawn ops) k := by
    intro k hk
    refine ⟨Nat.lt_succ_of_lt hk.1,?_⟩
    rw [hsame _ (by simpa using Nat.ne_of_lt hk.1)]
    exact hk.2
  refine ⟨⟨h.led,?_,h.held,?_,?_,h.idle,h.session,h.teaches⟩,hmono⟩
  · have hruns : RunsOnly (leaderRuns L (Spent (node.spawn ops))) node := by
      refine h.runs.mono ?_
      intro t op hop
      cases t with
      | failureReceiver => exact hop.mono hmono
      | electionReceiver | spawned => exact hop
    exact hruns.set (fun _ _ => trivial)
  · intro k
    by_cases hk : k = node.spawned
    · subst hk
      rw [hself]
      refine ⟨false,hst,?_⟩
      obtain ⟨holding,hold,hiff⟩ := h.stage node.spawned
      rw [h.unborn _ (Nat.le_refl _)] at hold
      rw [← hold.nil_idle]
      exact hiff
    · rw [hsame _ (by simpa using hk)]
      exact h.stage k
  · intro k hk
    have hlt : node.spawned < k := hk
    rw [hsame _ (by simpa using Nat.ne_of_gt hlt)]
    exact h.unborn k (Nat.le_of_lt hlt)

/-- A thread of `handleNodeFailure` stays one. -/
theorem LeaderOk.failing {node : Server.Node n} (h : LeaderOk L node) (hop : FailureOp L op)
    (ht : node.threads (.spawned k) = op::rest) :
    LeaderOk L (node.setThread (.spawned k) rest) ∧
    ∀ k', Spent node k' → Spent (node.setThread (.spawned k) rest) k' := by
  obtain ⟨holding,hst,hiff⟩ := h.stage k
  rw [ht] at hst
  cases hst with
  | failing _ hops =>
    refine h.thread (m := node.clientConnMutex) (by simp [ht])
      (.failing rest fun op hop => hops op (List.mem_cons_of_mem _ hop)) hiff
      (fun _ _ => Iff.rfl) h.session ?_
    intro hb op hop
    exact hb op (ht ▸ List.mem_cons_of_mem _ hop)
  | _ => cases hop

theorem LeaderOk.pop {node : Server.Node n} (h : LeaderOk L node)
    (ht : node.threads t = op::rest)
    (hop : ∀ k holding, Stage L node.log k holding (op::rest) → FailureOp L op) :
    LeaderOk L (node.setThread t rest) ∧
    ∀ k, Spent node k → Spent (node.setThread t rest) k := by
  cases t with
  | spawned k =>
    obtain ⟨holding,hst,-⟩ := h.stage k
    rw [ht] at hst
    exact h.failing (hop k holding hst) ht
  | electionReceiver | failureReceiver => exact h.receiver (by simp) (h.runs.tail ht)

/-- What the leader is and has sent after one of its steps. -/
structure LeaderMoves (L : Fin n) (node : Server.Node n) (out : Server.Result n) : Prop where
  ok : LeaderOk L out.state
  spent : ∀ k, Spent node k → Spent out.state k
  sends : ∀ dst m, out.send = some (dst,m) → Travels L (Spent out.state) L dst m

theorem LeaderMoves.silent {node : Server.Node n}
    (h : LeaderOk L out.state ∧ ∀ k, Spent node k → Spent out.state k) (hs : out.send = none) :
    LeaderMoves L node out :=
  ⟨h.1,h.2,by simp [hs]⟩

/-- A step of the leader's failure receiver. -/
theorem failure_moves {node : Server.Node n} (ops : List (Op n)) (hok : LeaderOk L node)
    (ht : node.threads .failureReceiver = op::rest)
    (hops : ∀ op ∈ ops, LeaderOp L (Spent node) op) :
    LeaderOk L (node.setThread .failureReceiver (ops ++ rest)) ∧
    ∀ k, Spent node k → Spent (node.setThread .failureReceiver (ops ++ rest)) k := by
  refine hok.receiver (by simp) ?_
  intro op hop
  rcases List.mem_append.mp hop with hop | hop
  · exact hops op hop
  · exact hok.runs.tail ht op hop

theorem updateChecked_ops {node : Server.Node n} (hs : src ≠ L) (hk : Spent node k) :
    ∀ op ∈ updateChecked L node src b k, LeaderOp L (Spent node) op := by
  intro op hop
  rcases mem_updateChecked hop with ⟨dst,hd,rfl⟩ | hop | rfl
  · exact .tell dst src hd
  · rcases mem_enableComm hop with rfl | rfl
    · exact .relink src k hs hk
    · exact .isAlive src
  · exact .name src

/-- The client manager waits for a client, or for a request. -/
theorem client_moves {node : Server.Node n} (hok : LeaderOk L node) (e : List (Event n))
    (hi : ∀ value, node.client ≠ .replicating value)
    (hs : c ≠ .accepting → c ≠ .connected → m = some .client)
    (hm : ∀ k, m = some (.recovery k) ↔ node.clientConnMutex = some (.recovery k)) :
    LeaderMoves L node {
      state := { node with client := c, clientConnMutex := m }
      events := e } := by
  refine .silent ⟨⟨hok.led,hok.runs,hok.held,?_,hok.unborn,fun _ => hok.idle hi,hs,hok.teaches⟩,
    fun _ hk => hk⟩ rfl
  intro k
  obtain ⟨holding,hst,hiff⟩ := hok.stage k
  exact ⟨holding,hst,hiff.trans (hm k).symm⟩

theorem consensus_moves {node : Server.Node n} (ha : LeaderActs L node a out)
    (hok : LeaderOk L node) (hrun : ∀ t timedOut now, a ≠ .run t timedOut now) :
    LeaderMoves L node out := by
  cases ha with
  | client _ c m e hi hs hm => exact client_moves hok e hi hs hm
  | called value now cout hc ha =>
    have hm : node.clientConnMutex = some .client := hok.session (by simp [hc]) (by simp [hc])
    cases ha with
    | called =>
      exact .silent ⟨hok.consensus (.inl rfl) (fun hn => absurd rfl (hn value)) (fun _ _ => hm) rfl
        hok.held,fun _ hk => hk⟩ rfl
  | proceeded value now c cout hc ha hd =>
    have hm : node.clientConnMutex = some .client := hok.session (by simp [hc]) (by simp [hc])
    refine ⟨hok.consensus (.inr hm) ?_ (fun _ _ => hm) (acts_teaches ha hok.teaches) hok.held,
      fun _ hk => hk,?_⟩
    · intro hn
      rcases hd with hd | hd
      · exact absurd hd (hn value)
      · exact hd.2
    · intro dst m hs
      obtain ⟨p,hp,rfl⟩ := ofConsensus_send hs
      exact acts_travels ha hok.teaches hp
  | handled now src packet cout hr ha =>
    have hp : acceptedValue packet.message = none := hok.held _ hr
    refine ⟨hok.consensus (.inl (handles_log_eq ha hp)) ?_ hok.session ?_ (by simp),
      fun _ hk => hk,?_⟩
    · exact fun hn => (handles_thread ha).trans (hok.idle hn)
    · exact (handles_thread ha) ▸ hok.teaches
    · intro dst m hs
      obtain ⟨q,hq,rfl⟩ := ofConsensus_send hs
      exact .consensus _ _ _ (handles_send_value ha hq)
  | reset cout ha =>
    cases ha with
    | reset hb =>
      exact .silent ⟨hok.consensus (.inl rfl) hok.idle hok.session hok.teaches hok.held,
        fun _ hk => hk⟩ rfl
  | failing nodeId hj => exact .silent (hok.spawn (.failing _ (failureOps hj))) rfl
  | recovering nodeId hj => exact .silent (hok.spawn (.starting nodeId hj)) rfl
  | _ => exact absurd rfl (hrun _ _ _)

/-- The thread that holds the lock is the one whose recovery is past it. -/
theorem LeaderOk.holding {node : Server.Node n} (h : LeaderOk L node)
    (ht : node.threads (.spawned k) = ops)
    (hst : ∀ holding, Stage L node.log k holding ops → holding = b) :
    b = true ↔ node.clientConnMutex = some (.recovery k) := by
  obtain ⟨holding,hold,hiff⟩ := h.stage k
  rw [ht] at hold
  exact hst holding hold ▸ hiff

theorem Stage.locked_holding {L : Fin n} (h : Stage L log k holding ops)
    (hu : Op.unlockClientConn ∈ ops) (hl : Op.lockClientConn k ∉ ops) : holding = true := by
  cases h with
  | failing _ hops => cases hops _ hu
  | starting => simp at hu
  | locking => simp [pausedRecovery] at hl
  | _ => rfl

theorem run_moves {node : Server.Node n} (ha : LeaderActs L node (.run t timedOut now) out)
    (hok : LeaderOk L node) : LeaderMoves L node out := by
  cases ha with
  | client _ c m e hi hs hm => exact client_moves hok e hi hs hm
  | victory timedOut now rest ht =>
    have hled : node = { node with leaderNodeId := some L } := by
      rw [← hok.led]
    rw [← hled]
    exact .silent (hok.receiver (by simp) (hok.runs.tail ht)) rfl
  | checked timedOut now src id k b rest ht =>
    cases hok.runs.head ht with
    | check _ _ _ hs hk =>
      refine .silent (failure_moves [.updateChecked src b k] hok ht ?_) rfl
      intro op hop
      cases List.mem_singleton.mp hop
      exact .decide src b k hs hk
  | decided timedOut now src k b rest ht =>
    cases hok.runs.head ht with
    | decide _ _ _ hs hk => exact .silent (failure_moves _ hok ht (updateChecked_ops hs hk)) rfl
  | told timedOut now dst nodeId rest hd ht =>
    obtain ⟨hok',hmono⟩ := hok.receiver (by simp) (hok.runs.tail ht)
    refine ⟨hok',hmono,?_⟩
    intro d m hs
    cases hs
    exact .recovered _ nodeId hd
  | named timedOut now dst rest ht =>
    obtain ⟨hok',hmono⟩ := hok.receiver (by simp) (hok.runs.tail ht)
    refine ⟨hok',hmono,?_⟩
    intro d m hs
    simp only [Server.Node.send, Option.ite_none_left_eq_some, Option.some.injEq,
      Prod.mk.injEq] at hs
    obtain ⟨-,rfl,rfl⟩ := hs
    exact .victory _
  | relinked timedOut now nodeId k rest ht =>
    exact .silent ((hok.tables _ _ _).receiver (by simp) (hok.runs.tail ht)) rfl
  | isAlive timedOut now t nodeId b rest ht =>
    refine .silent ((hok.tables _ _ _).pop ht ?_) rfl
    intro k holding hst
    cases hst with
    | failing _ hops => exact hops _ List.mem_cons_self
  | unlinked timedOut now k nodeId rest ht =>
    refine .silent ((hok.tables _ _ _).pop ht ?_) rfl
    intro k holding hst
    cases hst with
    | failing _ hops => exact hops _ List.mem_cons_self
  | elect timedOut now t nodeId rest ht =>
    refine .silent (hok.pop ht ?_) rfl
    intro k holding hst
    cases hst with
    | failing _ hops => exact hops _ List.mem_cons_self
  | started timedOut now k dst id hd ht =>
    have hiff : false = true ↔ node.clientConnMutex = some (.recovery k) := by
      refine hok.holding ht ?_
      intro holding hst
      cases hst <;> rfl
    refine .silent ((hok.tables node.isAlive node.processIsAlive id).thread
      (m := node.clientConnMutex) (by simp [ht]) (.locking dst id hd) hiff
      (fun _ _ => Iff.rfl) hok.session ?_) rfl
    intro hb
    simp [ht, beforeState] at hb
  | locked timedOut now k dst id hd hm ht =>
    refine .silent (hok.thread (m := some (.recovery k)) (by simp [ht, pausedRecovery])
      (.reading dst id hd) (by simp) ?_ ?_ ?_) rfl
    · intro k' hne
      simp [hm, hne.symm]
    · intro ha hc
      have hm' := hok.session ha hc
      simp [hm] at hm'
    · intro hb
      simp [ht, pausedRecovery, beforeState] at hb
  | read timedOut now k dst id hd ht =>
    refine .silent (hok.thread (m := node.clientConnMutex) (by simp [ht])
      (.sending dst id hd) ?_ (fun _ _ => Iff.rfl) hok.session ?_) rfl
    · exact hok.holding ht (fun _ hst => hst.locked_holding (by simp) (by simp))
    · intro hb
      simp [ht, beforeState] at hb
  | sent timedOut now k dst id hd ht =>
    have hborn : k < node.spawned := by
      by_contra hn
      simp [hok.unborn k (Nat.le_of_not_lt hn)] at ht
    obtain ⟨hok',hmono⟩ := hok.thread (m := node.clientConnMutex) (by simp [ht]) .clearing
      (hok.holding ht (fun _ hst => hst.locked_holding (by simp) (by simp)))
      (fun _ _ => Iff.rfl) hok.session (by simp [beforeState])
    refine ⟨hok',hmono,?_⟩
    intro d m hs
    cases hs
    exact .state _ id k _ hd ⟨hborn,by simp [beforeState]⟩
  | cleared timedOut now k ht =>
    refine .silent ((hok.tables node.isAlive node.processIsAlive (-1)).thread
      (m := node.clientConnMutex) (by simp [ht]) .unlocking ?_ (fun _ _ => Iff.rfl) hok.session
      (by simp [beforeState])) rfl
    exact hok.holding ht (fun _ hst => hst.locked_holding (by simp) (by simp))
  | unlocked timedOut now k ht =>
    have hheld : node.clientConnMutex = some (.recovery k) :=
      (hok.holding ht (fun _ hst => hst.locked_holding (by simp) (by simp))).mp rfl
    refine .silent (hok.thread (m := none) (by simp [ht]) (.failing [] (by simp)) (by simp)
      ?_ ?_ (by simp)) rfl
    · intro k' hne
      simp [hheld, hne.symm]
    · intro ha hc
      have hm := hok.session ha hc
      simp [hheld] at hm

theorem leader_moves {node : Server.Node n} (ha : LeaderActs L node a out)
    (hok : LeaderOk L node) : LeaderMoves L node out := by
  cases a with
  | run t timedOut now => exact run_moves ha hok
  | _ => exact consensus_moves ha hok (by simp)

theorem leader_accepts {node : Server.Node n} (ha : Accepts L node tag src m x)
    (hok : LeaderOk L node) (hm : Travels L (Spent node) src L m) (ht : m.tag = tag) :
    LeaderOk L x ∧ ∀ k, Spent node k → Spent x k := by
  cases ha with
  | dropped => exact ⟨hok,fun _ hk => hk⟩
  | consensus _ packet hr hb =>
    refine ⟨hok.consensus (.inl rfl) hok.idle hok.session hok.teaches ?_,fun _ hk => hk⟩
    intro p hp
    cases hp
    cases hm with
    | taught _ _ hd => exact absurd rfl hd
    | consensus _ _ _ hp => exact hp
  | election =>
    refine hok.receiver (by simp) ?_
    intro op hop
    cases List.mem_singleton.mp hop
    cases hm with
    | victory => rfl
    | _ => simp [Message.tag] at ht
  | failure =>
    refine hok.receiver (by simp) ?_
    intro op hop
    cases List.mem_singleton.mp hop
    cases hm with
    | stateUpdated _ id k hs hk => exact .check src id k hs hk
    | state _ id k state hd hk => exact absurd rfl hd
    | recovered _ nodeId hd => exact absurd rfl hd
    | _ => simp [Message.tag] at ht

end Algorep.Proofs
