import Algorep.Proofs.FixedLeader

namespace Algorep.Proofs
open Kit Program Program.Server

/-- Everything a follower can do while `L` leads. -/
inductive FollowerActs (L : Fin n) (spent : Nat → Prop) (i : Fin n) (node : Server.Node n) :
    Server.Action n → Server.Result n → Prop
  | client (a : Server.Action n) (c : Client) (m : Option Holder) (e : List (Event n)) :
      FollowerActs L spent i node a {
      state := { node with client := c, clientConnMutex := m }
      events := e }
  | handled (now : Nat) (src : Fin n) (packet : Consensus.Packet) (out : Consensus.Result n)
      (hr : node.received = some (src,packet))
      (ha : Handles i node.consensus src packet now out) :
      FollowerActs L spent i node (.handleConsensus now)
        (ofConsensus i { node with received := none } out)
  | reset (out : Consensus.Result n) (ha : Acts i node.consensus .resetContext out) :
      FollowerActs L spent i node .resetContext (ofConsensus i node out)
  | failing (nodeId : Fin n) (hj : nodeId ≠ L) : FollowerActs L spent i node
      (.detectFailure nodeId) { state := node.spawn (handleNodeFailure nodeId) }
  | victory (timedOut : Bool) (now : Nat) (rest : List (Op n))
      (ht : node.threads .electionReceiver = .handleMessage L .victory::rest) :
      FollowerActs L spent i node (.run .electionReceiver timedOut now) {
      state := { node with leaderNodeId := some L }.setThread .electionReceiver rest }
  | installed (timedOut : Bool) (now : Nat) (id : Int) (k : Nat) (state : List String)
      (rest : List (Op n)) (hk : spent k)
      (ht : node.threads .failureReceiver = .handleMessage L (.state id k state)::rest) :
      FollowerActs L spent i node (.run .failureReceiver timedOut now) {
      state := { node with consensus := { node.consensus with log := state } }.setThread
        .failureReceiver (.send L (.stateUpdated id k)::rest)
      events := [.replaced L node.log state] }
  | answered (timedOut : Bool) (now : Nat) (id : Int) (k : Nat) (rest : List (Op n)) (hk : spent k)
      (ht : node.threads .failureReceiver = .send L (.stateUpdated id k)::rest) :
      FollowerActs L spent i node (.run .failureReceiver timedOut now) {
      state := node.setThread .failureReceiver rest
      send := some (L,.stateUpdated id k) }
  | told (timedOut : Bool) (now : Nat) (nodeId : Fin n) (rest : List (Op n))
      (ht : node.threads .failureReceiver = .handleMessage L (.recovered nodeId)::rest) :
      FollowerActs L spent i node (.run .failureReceiver timedOut now) {
      state := node.setThread .failureReceiver
        ((if i = nodeId then [] else enableComm nodeId none) ++ rest) }
  | status (timedOut : Bool) (now : Nat) (t : ThreadId) (nodeId : Fin n) (b : Bool)
      (rest : List (Op n)) (ht : node.threads t = .setNodeStatus nodeId b none::rest)
      (hb : b = true ∨ nodeId ≠ L) : FollowerActs L spent i node (.run t timedOut now) {
      state := { node with
        processIsAlive := Function.update node.processIsAlive nodeId b }.setThread t rest }
  | isAlive (timedOut : Bool) (now : Nat) (t : ThreadId) (nodeId : Fin n) (b : Bool)
      (rest : List (Op n)) (ht : node.threads t = .setIsAlive nodeId b::rest) :
      FollowerActs L spent i node (.run t timedOut now) {
      state := { node with isAlive := Function.update node.isAlive nodeId b }.setThread t rest }
  | elect (timedOut : Bool) (now : Nat) (t : ThreadId) (nodeId : Fin n) (rest : List (Op n))
      (ht : node.threads t = .electIfLeader nodeId::rest) :
      FollowerActs L spent i node (.run t timedOut now) { state := node.setThread t rest }

/-- FAILURE_DETECTION messages are never dropped by their sender. -/
theorem send_failure (node : Server.Node n) (rank dst : Fin n) {m : Server.Message n}
    (hm : m.tag = .failureDetection) : node.send rank dst m = some (dst,m) := by
  simp [Server.Node.send, Server.Node.dropsFrom, messageShouldDrop, hm]

theorem follower_run_failure {node : Server.Node n} (hok : FollowerOk L spent i node)
    (h : run i node .failureReceiver timedOut now = some out) :
    FollowerActs L spent i node (.run .failureReceiver timedOut now) out := by
  obtain ⟨op,rest,ops,out',ht,he,rfl⟩ := run_cases h
  have hop : FollowerOp L spent op := hok.runs.head ht
  cases hop with
  | install id k state hk =>
    simp only [exec, handleMessage, handleState, Option.some.injEq, Prod.mk.injEq] at he
    rcases he with ⟨rfl,rfl⟩
    exact .installed timedOut now id k state rest hk ht
  | answer id k hk =>
    simp only [exec, Option.some.injEq, Prod.mk.injEq] at he
    rcases he with ⟨rfl,rfl⟩
    rw [send_failure node i L rfl]
    exact .answered timedOut now id k rest hk ht
  | told nodeId =>
    simp only [exec, handleMessage, Option.some.injEq, Prod.mk.injEq] at he
    rcases he with ⟨rfl,rfl⟩
    exact .told timedOut now nodeId rest ht
  | status nodeId =>
    simp only [exec, Option.some.injEq, Prod.mk.injEq] at he
    rcases he with ⟨rfl,rfl⟩
    exact .status timedOut now .failureReceiver nodeId true rest ht (.inl rfl)
  | isAlive nodeId =>
    simp only [exec, Option.some.injEq, Prod.mk.injEq] at he
    rcases he with ⟨rfl,rfl⟩
    exact .isAlive timedOut now .failureReceiver nodeId true rest ht

theorem follower_run {node : Server.Node n} (hok : FollowerOk L spent i node)
    (h : run i node t timedOut now = some out) :
    FollowerActs L spent i node (.run t timedOut now) out := by
  cases t with
  | failureReceiver => exact follower_run_failure hok h
  | electionReceiver =>
    obtain ⟨op,rest,ops,out',ht,he,rfl⟩ := run_cases h
    have hop : op = .handleMessage L .victory := hok.runs.head ht
    subst hop
    simp only [exec, handleMessage, Option.some.injEq, Prod.mk.injEq] at he
    rcases he with ⟨rfl,rfl⟩
    exact .victory timedOut now rest ht
  | spawned k =>
    obtain ⟨op,rest,ops,out',ht,he,rfl⟩ := run_cases h
    have hop : FailureOp L op := hok.runs.head ht
    cases hop with
    | isAlive nodeId =>
      simp only [exec, Option.some.injEq, Prod.mk.injEq] at he
      rcases he with ⟨rfl,rfl⟩
      exact .isAlive timedOut now _ nodeId false rest ht
    | status nodeId hj =>
      simp only [exec, Option.some.injEq, Prod.mk.injEq] at he
      rcases he with ⟨rfl,rfl⟩
      exact .status timedOut now _ nodeId false rest ht (.inr hj)
    | elect nodeId hj =>
      have hne : node.leaderNodeId ≠ some nodeId := by
        rw [hok.led]
        exact fun hl => hj (Option.some.inj hl).symm
      simp only [exec, hne, ↓reduceIte, Option.some.injEq, Prod.mk.injEq] at he
      rcases he with ⟨rfl,rfl⟩
      exact .elect timedOut now _ nodeId rest ht

theorem follower_acts {node : Server.Node n} (hok : FollowerOk L spent i node) (hi : i ≠ L)
    (hg : fixedLeader L (.act i a) = true) (h : Server.act i node a = some out) :
    FollowerActs L spent i node a out := by
  have hacts := serverActs_of_act h
  cases hacts with
  | connects hc hp => exact .client _ .connected node.clientConnMutex []
  | locks hc hm => exact .client _ .session (some .client) []
  | hangsUp hc => exact .client _ .accepting none []
  | calls value now cout hc ha =>
    simp only [fixedLeader, beq_iff_eq] at hg
    exact absurd hg hi
  | proceeds value now c cout hc ha hd =>
    -- a follower's manager has no call to go on with
    exact absurd hok.idle (acts_busy ha)
  | replies value b hc => exact .client _ .session node.clientConnMutex _
  | handles now src packet cout hr ha => exact .handled now src packet cout hr ha
  | resets cout ha => exact .reset cout ha
  | elects => simp [fixedLeader] at hg
  | fails nodeId hj hd => exact .failing nodeId (by simpa [fixedLeader] using hg)
  | recovers nodeId hj hd hid hl =>
    rw [hok.led] at hl
    exact absurd (Option.some.inj hl).symm hi
  | runs t timedOut now op rest ops out' ht he => exact follower_run hok h

/-- No handler sends an ACCEPTED. -/
theorem handles_send_value {node : Consensus.Node n} (ha : Handles rank node src packet now out)
    (hs : out.send = some (dst,p)) : acceptedValue p.message = none := by
  cases ha with
  | promised => cases hs; rfl
  | accepted => cases hs; rfl
  | _ => simp at hs

/-- What the consensus manager sends is on its way, or was dropped. -/
theorem ofConsensus_send {node : Server.Node n} {out : Consensus.Result n}
    (h : (ofConsensus rank node out).send = some (dst,m)) :
    ∃ p, out.send = some (dst,p) ∧ m = .consensus p := by
  simp only [ofConsensus, Option.bind_eq_some_iff] at h
  obtain ⟨⟨d,p⟩,hs,hd⟩ := h
  simp only [Server.Node.send, Option.ite_none_left_eq_some, Option.some.injEq,
    Prod.mk.injEq] at hd
  obtain ⟨-,rfl,rfl⟩ := hd
  exact ⟨p,hs,rfl⟩

theorem failureOps (hj : nodeId ≠ L) : ∀ op ∈ handleNodeFailure nodeId, FailureOp L op := by
  intro op hop
  simp only [handleNodeFailure, List.mem_cons, List.not_mem_nil, or_false] at hop
  rcases hop with rfl | rfl | rfl
  · exact .isAlive nodeId
  · exact .status nodeId hj
  · exact .elect nodeId hj

theorem FollowerActs.ok {node : Server.Node n} (ha : FollowerActs L spent i node a out)
    (hok : FollowerOk L spent i node) (hi : i ≠ L) : FollowerOk L spent i out.state ∧
    ∀ dst m, out.send = some (dst,m) → Travels L spent i dst m := by
  obtain ⟨hled,hlinked,hruns,hheld,hidle⟩ := hok
  cases ha with
  | client c m e => exact ⟨⟨hled,hlinked,hruns,hheld,hidle⟩,by simp⟩
  | handled now src packet cout hr ha =>
    refine ⟨⟨hled,hlinked,hruns,by simp [ofConsensus],?_⟩,?_⟩
    · exact (handles_thread ha).trans hidle
    · intro dst m hs
      obtain ⟨p,hp,rfl⟩ := ofConsensus_send hs
      exact .consensus _ _ _ (handles_send_value ha hp)
  | reset cout ha =>
    cases ha with
    | reset hb => exact ⟨⟨hled,hlinked,hruns,hheld,hidle⟩,by simp [ofConsensus]⟩
  | failing nodeId hj =>
    exact ⟨⟨hled,hlinked,hruns.set (failureOps hj),hheld,hidle⟩,by simp⟩
  | victory timedOut now rest ht =>
    exact ⟨⟨rfl,hlinked,hruns.set (hruns.tail ht),hheld,hidle⟩,by simp⟩
  | installed timedOut now id k state rest hk ht =>
    refine ⟨⟨hled,hlinked,hruns.set ?_,hheld,hidle⟩,by simp⟩
    intro op hop
    rcases List.mem_cons.mp hop with rfl | hop
    · exact .answer id k hk
    · exact hruns.tail ht op hop
  | answered timedOut now id k rest hk ht =>
    refine ⟨⟨hled,hlinked,hruns.set (hruns.tail ht),hheld,hidle⟩,?_⟩
    intro dst m hs
    cases hs
    exact .stateUpdated i id k hi hk
  | told timedOut now nodeId rest ht =>
    refine ⟨⟨hled,hlinked,hruns.set ?_,hheld,hidle⟩,by simp⟩
    intro op hop
    rcases List.mem_append.mp hop with hop | hop
    · split at hop
      · simp at hop
      · rcases mem_enableComm hop with rfl | rfl
        · exact .status nodeId
        · exact .isAlive nodeId
    · exact hruns.tail ht op hop
  | status timedOut now t nodeId b rest ht hb =>
    refine ⟨⟨hled,?_,hruns.set (hruns.tail ht),hheld,hidle⟩,by simp⟩
    by_cases hn : L = nodeId
    · subst hn
      have hb : b = true := hb.resolve_right (fun h => h rfl)
      simp [hb]
    · simpa [hn] using hlinked
  | isAlive timedOut now t nodeId b rest ht =>
    exact ⟨⟨hled,hlinked,hruns.set (hruns.tail ht),hheld,hidle⟩,by simp⟩
  | elect timedOut now t nodeId rest ht =>
    exact ⟨⟨hled,hlinked,hruns.set (hruns.tail ht),hheld,hidle⟩,by simp⟩

theorem follower_accepts {node : Server.Node n} (ha : Accepts i node tag src m x)
    (hok : FollowerOk L spent i node) (hi : i ≠ L) (hm : Travels L spent src i m)
    (ht : m.tag = tag) : FollowerOk L spent i x := by
  obtain ⟨hled,hlinked,hruns,hheld,hidle⟩ := hok
  cases ha with
  | dropped => exact ⟨hled,hlinked,hruns,hheld,hidle⟩
  | consensus _ packet hr hb =>
    refine ⟨hled,hlinked,hruns,?_,hidle⟩
    intro p hp
    cases hp
    exact hm
  | election =>
    refine ⟨hled,hlinked,hruns.set ?_,hheld,hidle⟩
    intro op hop
    cases List.mem_singleton.mp hop
    cases hm with
    | victory => rfl
    | _ => simp [Message.tag] at ht
  | failure =>
    refine ⟨hled,hlinked,hruns.set ?_,hheld,hidle⟩
    intro op hop
    cases List.mem_singleton.mp hop
    cases hm with
    | state _ id k state hd hk => exact .install id k state hk
    | recovered _ nodeId hd => exact .told nodeId
    | stateUpdated => exact absurd rfl hi
    | _ => simp [Message.tag] at ht

end Algorep.Proofs
