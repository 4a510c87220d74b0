import Algorep.Kit.Replica
import Algorep.Proofs.SteadyLeader

namespace Algorep.Proofs
open Kit Program Program.Server

/-! What the leader and one follower look like as a log and its copy. -/

/-- The value of an ACCEPTED on its way. -/
def taughtBy : Server.Message n → Option String
  | .consensus packet => acceptedValue packet.message
  | _ => none

/-- The entry the leader has written and not yet sent to `j`. -/
def unsentTo (j : Fin n) : Consensus.Thread n → List String
  | .logWritten value => [value]
  | .accepted value _ rest => if rest.contains j then [value] else []
  | _ => []

/-- The recovery that holds the lock. -/
def lockHolder : Option Holder → Option Nat
  | some (.recovery k) => some k
  | _ => none

/-- The snapshot of a STATE on its way. -/
def snapshotIn : Server.Message n → Option (Nat × List String)
  | .state _ k state => some (k,state)
  | _ => none

/-- The snapshot a section is about to install. -/
def snapshotOf : Op n → Option (Nat × List String)
  | .handleMessage _ m => snapshotIn m
  | _ => none

/-- The recovery that a STATE_UPDATED on its way answers. -/
def answerIn : Server.Message n → Option Nat
  | .stateUpdated _ k => some k
  | _ => none

def answerOf : Op n → Option Nat
  | .send _ m => answerIn m
  | _ => none

/-- The recovery whose answer from `j` the leader is working on. -/
def answeredBy (j : Fin n) : Op n → Option Nat
  | .handleMessage src m => if src = j then answerIn m else none
  | .updateChecked src _ k => if src = j then some k else none
  | .setNodeStatus nodeId _ (some k) => if nodeId = j then some k else none
  | _ => none

/-- The ACCEPTED values that wait at `follower`, taken or on their way. -/
def waitingAt (follower : Server.Node n) (taught : List (Server.Message n)) : List String :=
  follower.received.toList.filterMap (fun p => acceptedValue p.2.message) ++
    taught.filterMap taughtBy

/-- The lists are what travels: from the leader in the consensus lane and in the
failure lane, and back in the failure lane. -/
def replica (leader follower : Server.Node n) (j : Fin n)
    (taught states answers : List (Server.Message n)) : Replica Nat String where
  leaderLog := leader.log
  log := follower.log
  waiting := waitingAt follower taught
  unsent := unsentTo j leader.consensus.thread
  linked := leader.processIsAlive j
  holder := lockHolder leader.clientConnMutex
  states := (follower.threads .failureReceiver).filterMap snapshotOf ++ states.filterMap snapshotIn
  answers := { k | k ∈ (follower.threads .failureReceiver).filterMap answerOf ∨
    k ∈ answers.filterMap answerIn ∨
    k ∈ (leader.threads .failureReceiver).filterMap (answeredBy j) }

/-- The log of `L` and its copy at `j`. -/
def copyAt (L j : Fin n) (s : Server.Cluster n) : Replica Nat String :=
  replica (s.nodes L) (s.nodes j) j (s.chan .consensus L j) (s.chan .failureDetection L j)
    (s.chan .failureDetection j L)

/-- Steps of the abstract copy, none of them if nothing is seen to change. -/
abbrev Copies : Replica Nat String → Replica Nat String → Prop :=
  Relation.ReflTransGen Replica.Step

theorem Copies.of_eq {r r' : Replica Nat String} (h : r' = r) : Copies r r' :=
  h ▸ .refl

theorem Copies.one {r r' r'' : Replica Nat String} (h : Replica.Step r r') (he : r'' = r') :
    Copies r r'' :=
  he ▸ .single h

/-- Nothing of a copy shows what else happens at a node. -/
theorem follower_same {leader follower follower' : Server.Node n} {j : Fin n}
    {taught taught' states answers : List (Server.Message n)}
    (hlog : follower'.log = follower.log)
    (hwaiting : waitingAt follower' taught' = waitingAt follower taught)
    (hstates : (follower'.threads .failureReceiver).filterMap snapshotOf =
      (follower.threads .failureReceiver).filterMap snapshotOf)
    (hanswers : (follower'.threads .failureReceiver).filterMap answerOf =
      (follower.threads .failureReceiver).filterMap answerOf) :
    Copies (replica leader follower j taught states answers)
      (replica leader follower' j taught' states answers) := by
  refine .of_eq ?_
  simp [replica, hlog, hwaiting, hstates, hanswers]

theorem leader_same {leader leader' follower : Server.Node n} {j : Fin n}
    {taught taught' states states' answers : List (Server.Message n)}
    (hlog : leader'.log = leader.log)
    (hwaiting : waitingAt follower taught' = waitingAt follower taught)
    (hunsent : unsentTo j leader'.consensus.thread = unsentTo j leader.consensus.thread)
    (hlinked : leader'.processIsAlive j = leader.processIsAlive j)
    (hholder : lockHolder leader'.clientConnMutex = lockHolder leader.clientConnMutex)
    (hstates : states'.filterMap snapshotIn = states.filterMap snapshotIn)
    (hanswers : (leader'.threads .failureReceiver).filterMap (answeredBy j) =
      (leader.threads .failureReceiver).filterMap (answeredBy j)) :
    Copies (replica leader follower j taught states answers)
      (replica leader' follower j taught' states' answers) := by
  refine .of_eq ?_
  simp [replica, hlog, hwaiting, hunsent, hlinked, hholder, hstates, hanswers]

/-- What a step of the follower hands to the leader in the failure lane. -/
abbrev report (L : Fin n) (out : Server.Result n) : List (Server.Message n) :=
  LaneNet.handed Message.tag out .failureDetection L

theorem handed_silent {out : Server.Result n} (h : out.send = none) (tag : MessageTag) (j : Fin n) :
    LaneNet.handed Message.tag out tag j = [] := by
  simp [LaneNet.handed, h]

theorem handed_some {out : Server.Result n} (h : out.send = some (dst,m)) (tag : MessageTag)
    (j : Fin n) : LaneNet.handed Message.tag out tag j =
      if dst = j ∧ m.tag = tag then [m] else [] := by
  simp [LaneNet.handed, h]

/-- The consensus manager sends in the consensus lane only. -/
theorem handed_ofConsensus {node : Server.Node n} {out : Consensus.Result n} (j : Fin n) :
    LaneNet.handed Message.tag (ofConsensus rank node out) .failureDetection j = [] := by
  unfold LaneNet.handed
  split
  · rfl
  · rename_i dst m hs
    obtain ⟨p,hp,rfl⟩ := ofConsensus_send hs
    simp [Message.tag]

theorem handles_copy {node : Consensus.Node n} (ha : Handles rank node src packet now out) :
    out.state.log = node.log ++ (acceptedValue packet.message).toList := by
  cases ha with
  | learned id roundId value hm => simp [hm, acceptedValue]
  | promised id hm | refusedPrepare id hm => simp [hm, acceptedValue]
  | countedPromise id roundId accepted hm => simp [hm, acceptedValue]
  | accepted id roundId value hm | refusedPropose id roundId value hm => simp [hm, acceptedValue]
  | countedAccept id roundId hm => simp [hm, acceptedValue]

/-- A section that no copy shows. -/
theorem follower_pop {leader node node' : Server.Node n} {j : Fin n}
    {taught states answers : List (Server.Message n)} (ops : List (Op n))
    (hlog : node'.log = node.log) (hrec : node'.received = node.received)
    (hthreads : node'.threads = node.threads) (ht : node.threads t = op::rest)
    (hs : snapshotOf op = none) (ha : answerOf op = none)
    (hops : ∀ op ∈ ops, snapshotOf op = none ∧ answerOf op = none) :
    Copies (replica leader node j taught states answers)
      (replica leader (node'.setThread t (ops ++ rest)) j taught states answers) := by
  have hsnap : ops.filterMap snapshotOf = [] :=
    List.filterMap_eq_nil_iff.mpr fun op hop => (hops op hop).1
  have hansw : ops.filterMap answerOf = [] :=
    List.filterMap_eq_nil_iff.mpr fun op hop => (hops op hop).2
  refine follower_same hlog (by simp [waitingAt, hrec]) ?_ ?_
  · by_cases hf : t = .failureReceiver
    · subst hf
      simp [ht, hs, hsnap]
    · rw [Server.Node.setThread_other _ _ _ (Ne.symm hf), hthreads]
  · by_cases hf : t = .failureReceiver
    · subst hf
      simp [ht, ha, hansw]
    · rw [Server.Node.setThread_other _ _ _ (Ne.symm hf), hthreads]

/-- A step of the follower seen as steps of its copy. -/
theorem FollowerActs.copies {leader node : Server.Node n}
    {taught states answers : List (Server.Message n)} (ha : FollowerActs L spent j node a out)
    (hinstall : ∀ timedOut now id k state rest, a = .run .failureReceiver timedOut now →
      node.threads .failureReceiver = .handleMessage L (.state id k state)::rest →
      (lockHolder leader.clientConnMutex = some k → waitingAt node taught = []) ∧
      (lockHolder leader.clientConnMutex ≠ some k → leader.processIsAlive j = false)) :
    Copies (replica leader node j taught states answers)
      (replica leader out.state j taught states (answers ++ report L out)) := by
  cases ha with
  | client _ c m e =>
    rw [report, handed_silent rfl, List.append_nil]
    exact follower_same rfl rfl rfl rfl
  | handled now src packet cout hr ha =>
    rw [report, handed_ofConsensus, List.append_nil]
    have hlog := handles_copy ha
    cases hv : acceptedValue packet.message with
    | none =>
      rw [hv] at hlog
      refine follower_same ?_ (by simp [waitingAt, ofConsensus, hr, hv]) rfl rfl
      simpa [Server.Node.log, ofConsensus] using hlog
    | some value =>
      rw [hv] at hlog
      refine .one (.deliver _ value (taught.filterMap taughtBy)
        (by simp [replica, waitingAt, hr, hv])) ?_
      simpa [replica, waitingAt, ofConsensus, Server.Node.log] using hlog
  | reset cout ha =>
    rw [report, handed_ofConsensus, List.append_nil]
    cases ha with
    | reset hb => exact follower_same rfl rfl rfl rfl
  | failing nodeId hj =>
    rw [report, handed_silent rfl, List.append_nil]
    exact follower_same rfl rfl rfl rfl
  | victory timedOut now rest ht =>
    rw [report, handed_silent rfl, List.append_nil]
    exact follower_pop [] rfl rfl rfl ht rfl rfl (by simp)
  | installed timedOut now id k state rest hk ht =>
    rw [report, handed_silent rfl, List.append_nil]
    obtain ⟨hw,hd⟩ := hinstall timedOut now id k state rest rfl ht
    have hstates : (replica leader node j taught states answers).states =
        (k,state)::(rest.filterMap snapshotOf ++ states.filterMap snapshotIn) := by
      simp [replica, ht, snapshotOf, snapshotIn]
    refine .one (.install _ k state _ hstates hw hd) ?_
    refine Replica.ext rfl rfl rfl rfl rfl rfl ?_ ?_
    · simp [replica, List.filterMap_cons, snapshotOf]
    · ext k'
      simp [replica, ht, answerOf, answerIn, or_assoc]
  | answered timedOut now id k rest hk ht =>
    rw [report, handed_some rfl, if_pos ⟨rfl,rfl⟩]
    refine .of_eq (Replica.ext rfl rfl rfl rfl rfl rfl ?_ ?_)
    · simp [replica, ht, List.filterMap_cons, snapshotOf]
    · ext k'
      have hop : answerOf (Op.send L (Message.stateUpdated id k)) = some k := rfl
      have hm : answerIn (Message.stateUpdated (n := n) id k) = some k := rfl
      simp only [replica, ht, Server.Node.setThread_self, Set.mem_ofPred_eq,
        List.filterMap_cons_some hop, List.filterMap_append, List.filterMap_cons_some hm,
        List.filterMap_nil, List.mem_cons, List.mem_append, List.not_mem_nil, or_false]
      tauto
  | told timedOut now nodeId rest ht =>
    rw [report, handed_silent rfl, List.append_nil]
    refine follower_pop _ rfl rfl rfl ht rfl rfl ?_
    intro op hop
    split at hop
    · simp at hop
    · rcases mem_enableComm hop with rfl | rfl <;> exact ⟨rfl,rfl⟩
  | status timedOut now t nodeId b rest ht hb =>
    rw [report, handed_silent rfl, List.append_nil]
    exact follower_pop [] rfl rfl rfl ht rfl rfl (by simp)
  | isAlive timedOut now t nodeId b rest ht =>
    rw [report, handed_silent rfl, List.append_nil]
    exact follower_pop [] rfl rfl rfl ht rfl rfl (by simp)
  | elect timedOut now t nodeId rest ht =>
    rw [report, handed_silent rfl, List.append_nil]
    exact follower_pop [] rfl rfl rfl ht rfl rfl (by simp)

theorem waitingAt_append (follower : Server.Node n) (q q' : List (Server.Message n)) :
    waitingAt follower (q ++ q') = waitingAt follower q ++ q'.filterMap taughtBy := by
  simp [waitingAt]

/-- A thread of the leader moves on, unseen in the copy of `j`. -/
theorem leader_thread {node node' follower : Server.Node n} {j : Fin n}
    {taught taught' states states' answers : List (Server.Message n)}
    (hcons : node'.consensus = node.consensus)
    (hlinked : node'.processIsAlive j = node.processIsAlive j)
    (hholder : node'.clientConnMutex = node.clientConnMutex)
    (hthreads : node'.threads = node.threads)
    (hwaiting : waitingAt follower taught' = waitingAt follower taught)
    (hstates : states'.filterMap snapshotIn = states.filterMap snapshotIn)
    (hans : t = .failureReceiver → ops.filterMap (answeredBy j) =
      (node.threads .failureReceiver).filterMap (answeredBy j)) :
    Copies (replica node follower j taught states answers)
      (replica (node'.setThread t ops) follower j taught' states' answers) := by
  refine leader_same ?_ hwaiting ?_ hlinked ?_ hstates ?_
  · exact congrArg Consensus.Node.log hcons
  · rw [Server.Node.setThread_consensus, hcons]
  · rw [Server.Node.setThread_clientConnMutex, hholder]
  · by_cases hf : t = .failureReceiver
    · subst hf
      rw [Server.Node.setThread_self]
      exact hans rfl
    · rw [Server.Node.setThread_other _ _ _ (Ne.symm hf), hthreads]

/-- What the consensus manager sends without being an ACCEPTED is not seen. -/
theorem untaught {node : Server.Node n} {out : Consensus.Result n}
    (h : ∀ dst p, out.send = some (dst,p) → acceptedValue p.message = none) (j : Fin n) :
    (LaneNet.handed Message.tag (ofConsensus rank node out) .consensus j).filterMap taughtBy =
      [] := by
  refine List.filterMap_eq_nil_iff.mpr ?_
  intro m hm
  obtain ⟨p,hp,rfl⟩ := ofConsensus_send (LaneNet.mem_handed.mp hm).1
  exact h j p hp

theorem handed_taught {node : Server.Node n} {out : Consensus.Result n} (hj : j ≠ L)
    (h : out.send = some (dst,p)) :
    LaneNet.handed Message.tag (ofConsensus L node out) .consensus j =
      if dst = j ∧ node.processIsAlive j = true then [.consensus p] else [] := by
  by_cases hd : dst = j
  · subst hd
    cases ha : node.processIsAlive dst with
    | true =>
      have hs : (ofConsensus L node out).send = some (dst,.consensus p) := by
        simp [ofConsensus, h, Server.Node.send, Server.Node.dropsFrom, messageShouldDrop, ha]
      rw [handed_some hs]
      simp [Message.tag]
    | false =>
      have hs : (ofConsensus L node out).send = none := by
        simp [ofConsensus, h, Server.Node.send, Server.Node.dropsFrom, messageShouldDrop, ha, hj,
          Message.tag]
      rw [handed_silent hs]
      simp
  · have hnone : ∀ m, m ∉ LaneNet.handed Message.tag (ofConsensus L node out) .consensus j := by
      intro m hm
      obtain ⟨q,hq,-⟩ := ofConsensus_send (LaneNet.mem_handed.mp hm).1
      rw [h] at hq
      exact hd (Prod.mk.inj (Option.some.inj hq)).1
    rw [List.eq_nil_iff_forall_not_mem.mpr hnone, if_neg (fun hc => hd hc.1)]

/-- The steps of `startConsensus` at the leader. -/
theorem proceed_copies {node follower : Server.Node n} {client : Client} {j : Fin n}
    {taught states answers : List (Server.Message n)} {out : Consensus.Result n}
    (ha : Acts L node.consensus (.proceed now) out) (hj : j ≠ L)
    (hm : node.clientConnMutex = some .client) (ht : Teaches L node.consensus.thread) :
    Copies (replica node follower j taught states answers)
      (replica (ofConsensus L { node with client := client } out).state follower j
        (taught ++ LaneNet.handed Message.tag
          (ofConsensus L { node with client := client } out) .consensus j) states answers) := by
  -- a step that sends no ACCEPTED and leaves log and debt as they are
  have hquiet : (∀ dst p, out.send = some (dst,p) → acceptedValue p.message = none) →
      out.state.log = node.log →
      unsentTo j out.state.thread = unsentTo j node.consensus.thread →
      Copies (replica node follower j taught states answers)
        (replica (ofConsensus L { node with client := client } out).state follower j
          (taught ++ LaneNet.handed Message.tag
            (ofConsensus L { node with client := client } out) .consensus j) states answers) := by
    intro hsend hlog hunsent
    refine leader_same hlog ?_ hunsent rfl rfl rfl rfl
    rw [waitingAt_append, untaught hsend, List.append_nil]
  cases ha with
  | sentPrepare value m dst rest hth =>
    rw [hth] at ht
    refine hquiet ?_ rfl (by simp [hth, unsentTo])
    intro d p hs
    cases hs
    exact ht
  | sentPropose value m dst rest hth =>
    rw [hth] at ht
    refine hquiet ?_ rfl (by simp [hth, unsentTo])
    intro d p hs
    cases hs
    exact ht
  | promisesSampled value m hth =>
    refine hquiet (by simp) rfl ?_
    rw [hth]
    dsimp only
    split <;> rfl
  | acceptsSampled value m hth =>
    refine hquiet (by simp) rfl ?_
    rw [hth]
    dsimp only
    split <;> rfl
  | proposed value now hth => exact hquiet (by simp) rfl (by simp [hth, unsentTo])
  | appended value hth =>
    rw [handed_silent rfl, List.append_nil]
    refine .one (.append _ value (by simp [replica, hm, lockHolder])
      (by simp [replica, hth, unsentTo])) ?_
    simp [replica, ofConsensus, Server.Node.log, unsentTo]
  | announced value now hth => exact hquiet (by simp) rfl (by simp [hth, unsentTo, hj])
  | sentAccepted value m dst rest hth =>
    rw [hth] at ht
    obtain ⟨hval,-,hnodup⟩ := ht
    rw [handed_taught hj rfl]
    by_cases hd : dst = j
    · subst hd
      have hnot : dst ∉ rest := (List.nodup_cons.mp hnodup).1
      refine .one (.hand _) ?_
      cases ha : node.processIsAlive dst <;>
        simp [replica, ofConsensus, Server.Node.log, hth, unsentTo, hnot, ha, waitingAt_append,
          taughtBy, hval]
    · rw [if_neg (fun hc => hd hc.1), List.append_nil]
      exact leader_same rfl rfl (by simp [hth, ofConsensus, unsentTo, Ne.symm hd]) rfl rfl rfl rfl
  | reached value m hth => exact hquiet (by simp) rfl (by simp [hth, unsentTo])
  | returned b hth => exact hquiet (by simp) rfl (by simp [hth, unsentTo])

/-- The recoveries a copy knows of have sent their STATE. -/
def KnowsSpent (spent : Nat → Prop) (r : Replica Nat String) : Prop :=
  (∀ p ∈ r.states, spent p.1) ∧ ∀ k ∈ r.answers, spent k

theorem KnowsSpent.fresh {r : Replica Nat String} (h : KnowsSpent spent r) (hk : ¬ spent k) :
    r.Fresh k :=
  ⟨fun p hp he => hk (he ▸ h.1 p hp),fun ha => hk (h.2 k ha)⟩

theorem unspent {node : Server.Node n} (ht : node.threads (.spawned k) = op::rest)
    (hb : beforeState op = true) : ¬ Spent node k := by
  intro hs
  have hf := hs.2 op (ht ▸ List.mem_cons_self)
  rw [hb] at hf
  contradiction

theorem updateChecked_answers (node : Server.Node n) (L src j : Fin n) (b : Bool) (k : Nat) :
    ∀ k' ∈ (updateChecked L node src b k).filterMap (answeredBy j), src = j ∧ k' = k := by
  intro k' hk'
  rw [List.mem_filterMap] at hk'
  obtain ⟨op,hop,ho⟩ := hk'
  rcases mem_updateChecked hop with ⟨dst,-,rfl⟩ | hop | rfl
  · simp [answeredBy] at ho
  · rcases mem_enableComm hop with rfl | rfl
    · simp only [answeredBy, Option.ite_none_right_eq_some, Option.some.injEq] at ho
      exact ⟨ho.1,ho.2.symm⟩
    · simp [answeredBy] at ho
  · simp [answeredBy] at ho

theorem lockHolder_iff {m : Option Holder} : lockHolder m = some k ↔ m = some (.recovery k) := by
  unfold lockHolder
  split <;> simp_all

theorem LeaderOk.idle_unless_client {node : Server.Node n} (h : LeaderOk L node)
    (hm : node.clientConnMutex ≠ some .client) : node.consensus.thread = .idle := by
  refine h.idle ?_
  intro value hc
  exact hm (h.session (by simp [hc]) (by simp [hc]))

theorem handed_victory (node : Server.Node n) (x : Server.Node n) (L dst j : Fin n)
    (tag : MessageTag) (ht : tag ≠ .leaderElection) :
    LaneNet.handed Message.tag ({ state := x, send := node.send L dst .victory } :
      Server.Result n) tag j = [] := by
  refine List.eq_nil_iff_forall_not_mem.mpr ?_
  intro m hm
  obtain ⟨hs,htag⟩ := LaneNet.mem_handed.mp hm
  simp only [Server.Node.send, Option.ite_none_left_eq_some, Option.some.injEq,
    Prod.mk.injEq] at hs
  obtain ⟨-,-,rfl⟩ := hs
  exact ht htag.symm

/-- A step of the leader that sends nothing. -/
theorem Copies.silent {node follower : Server.Node n} {j : Fin n}
    {taught states answers : List (Server.Message n)} {out : Server.Result n}
    (hs : out.send = none)
    (h : Copies (replica node follower j taught states answers)
      (replica out.state follower j taught states answers)) :
    Copies (replica node follower j taught states answers)
      (replica out.state follower j (taught ++ LaneNet.handed Message.tag out .consensus j)
        (states ++ LaneNet.handed Message.tag out .failureDetection j) answers) := by
  rw [handed_silent hs, handed_silent hs, List.append_nil, List.append_nil]
  exact h

/-- The second half of `handleStateUpdate` answers at most the recovery it has read of. -/
theorem decided_copies {node follower : Server.Node n} {j : Fin n}
    {taught states answers : List (Server.Message n)}
    (ht : node.threads .failureReceiver = .updateChecked src b k::rest) :
    Copies (replica node follower j taught states answers)
      (replica (node.setThread .failureReceiver (updateChecked L node src b k ++ rest)) follower j
        taught states answers) := by
  refine .one (.forget _ _ ?_) (Replica.ext rfl rfl rfl rfl rfl rfl rfl rfl)
  intro k' hk'
  refine hk'.imp_right (Or.imp_right ?_)
  intro hm
  rw [Server.Node.setThread_self, List.filterMap_append, List.mem_append] at hm
  rw [ht, List.filterMap_cons]
  rcases hm with hm | hm
  · obtain ⟨rfl,rfl⟩ := updateChecked_answers node L src j b k k' hm
    simp [answeredBy]
  · split
    · exact hm
    · exact List.mem_cons_of_mem _ hm

/-- The leader marks the node of a copy alive while the recovery that was answered holds
the lock. -/
theorem relinked_copies {node follower : Server.Node n}
    {taught states answers : List (Server.Message n)}
    (ht : node.threads .failureReceiver = .setNodeStatus nodeId true (some k)::rest)
    (hlock : node.clientConnMutex = some (.recovery k)) :
    Copies (replica node follower nodeId taught states answers)
      (replica ({ node with
        processIsAlive := Function.update node.processIsAlive nodeId true }.setThread
          .failureReceiver rest) follower nodeId taught states answers) := by
  have hop : answeredBy nodeId (Op.setNodeStatus nodeId true (some k)) = some k := by
    simp [answeredBy]
  have hk : k ∈ (replica node follower nodeId taught states answers).answers := by
    refine .inr (.inr ?_)
    rw [ht, List.filterMap_cons_some hop]
    exact List.mem_cons_self
  refine Relation.ReflTransGen.trans (.single (.relink _ k hk (lockHolder_iff.mpr hlock))) ?_
  refine Copies.one (.forget _ _ ?_)
    (Replica.ext rfl rfl rfl rfl (by simp [replica]) rfl rfl rfl)
  intro k' hk'
  refine hk'.imp_right (Or.imp_right ?_)
  intro hm
  rw [Server.Node.setThread_self] at hm
  rw [ht, List.filterMap_cons_some hop]
  exact List.mem_cons_of_mem _ hm

/-- A step of the leader seen as steps of the copy at `j`. -/
theorem LeaderActs.copies {node follower : Server.Node n} {j : Fin n}
    {taught states answers : List (Server.Message n)} (ha : LeaderActs L node a out)
    (hok : LeaderOk L node) (hj : j ≠ L)
    (hrelink : ∀ timedOut now nodeId k rest, a = .run .failureReceiver timedOut now →
      node.threads .failureReceiver = .setNodeStatus nodeId true (some k)::rest →
      node.clientConnMutex = some (.recovery k))
    (hspent : KnowsSpent (Spent node) (replica node follower j taught states answers)) :
    Copies (replica node follower j taught states answers)
      (replica out.state follower j (taught ++ LaneNet.handed Message.tag out .consensus j)
        (states ++ LaneNet.handed Message.tag out .failureDetection j) answers) := by
  cases ha with
  | client _ c m e hi hs hm =>
    refine .silent rfl ?_
    refine leader_same rfl rfl rfl rfl ?_ rfl rfl
    refine Option.ext ?_
    intro k
    rw [lockHolder_iff, lockHolder_iff]
    exact hm k
  | called value now cout hc ha =>
    rw [handed_ofConsensus, List.append_nil]
    cases ha with
    | called _ _ ht =>
      rw [handed_silent rfl, List.append_nil]
      exact leader_same rfl rfl (by simp [ofConsensus, ht, unsentTo]) rfl rfl rfl rfl
  | proceeded value now c cout hc ha hd =>
    rw [handed_ofConsensus, List.append_nil]
    exact proceed_copies ha hj (hok.session (by simp [hc]) (by simp [hc])) hok.teaches
  | handled now src packet cout hr ha =>
    rw [handed_ofConsensus, List.append_nil]
    refine leader_same (handles_log_eq ha (hok.held _ hr)) ?_
      (congrArg (unsentTo j) (handles_thread ha)) rfl rfl rfl rfl
    rw [waitingAt_append, untaught (fun _ _ hs => handles_send_value ha hs), List.append_nil]
  | reset cout ha =>
    rw [handed_ofConsensus, List.append_nil]
    cases ha with
    | reset hb =>
      rw [handed_silent rfl, List.append_nil]
      exact leader_same rfl rfl rfl rfl rfl rfl rfl
  | failing nodeId hj' =>
    exact .silent rfl (leader_same rfl rfl rfl rfl rfl rfl rfl)
  | recovering nodeId hj' =>
    exact .silent rfl (leader_same rfl rfl rfl rfl rfl rfl rfl)
  | victory timedOut now rest ht =>
    exact .silent rfl (leader_thread rfl rfl rfl rfl rfl rfl (by simp))
  | checked timedOut now src id k b rest ht =>
    refine .silent rfl ?_
    exact leader_thread rfl rfl rfl rfl rfl rfl
      (fun _ => by rw [ht, List.filterMap_cons, List.filterMap_cons]; rfl)
  | decided timedOut now src k b rest ht => exact .silent rfl (decided_copies ht)
  | told timedOut now dst nodeId rest hd ht =>
    rw [handed_some rfl, handed_some rfl, if_neg (fun hc => by simp [Message.tag] at hc),
      List.append_nil]
    refine leader_thread rfl rfl rfl rfl rfl ?_ ?_
    · split <;> simp [snapshotIn]
    · intro _
      rw [ht, List.filterMap_cons_none rfl]
  | named timedOut now dst rest ht =>
    rw [handed_victory _ _ _ _ _ _ (by simp), handed_victory _ _ _ _ _ _ (by simp),
      List.append_nil, List.append_nil]
    refine leader_thread rfl rfl rfl rfl rfl rfl ?_
    intro _
    rw [ht, List.filterMap_cons_none rfl]
  | relinked timedOut now nodeId k rest ht =>
    refine .silent rfl ?_
    by_cases hn : nodeId = j
    · subst hn
      exact relinked_copies ht (hrelink timedOut now nodeId k rest rfl ht)
    · refine leader_thread rfl (by simp [Ne.symm hn]) rfl rfl rfl rfl ?_
      intro _
      rw [ht, List.filterMap_cons_none (by simp [answeredBy, hn])]
  | isAlive timedOut now t nodeId b rest ht =>
    refine .silent rfl ?_
    refine leader_thread rfl rfl rfl rfl rfl rfl ?_
    rintro rfl
    rw [ht, List.filterMap_cons_none rfl]
  | unlinked timedOut now k nodeId rest ht =>
    refine .silent rfl ?_
    by_cases hn : nodeId = j
    · subst hn
      refine .one (.unlink _) ?_
      simp [replica, Server.Node.setThread_other, Server.Node.log]
    · exact leader_thread rfl (by simp [Ne.symm hn]) rfl rfl rfl rfl (by simp)
  | elect timedOut now t nodeId rest ht =>
    refine .silent rfl ?_
    refine leader_thread rfl rfl rfl rfl rfl rfl ?_
    rintro rfl
    rw [ht, List.filterMap_cons_none rfl]
  | started timedOut now k dst id hd ht =>
    exact .silent rfl (leader_thread rfl rfl rfl rfl rfl rfl (by simp))
  | locked timedOut now k dst id hd hm ht =>
    refine .silent rfl ?_
    have hidle : node.consensus.thread = .idle := hok.idle_unless_client (by simp [hm])
    refine .one (.lock _ k (by simp [replica, hm, lockHolder])
      (by simp [replica, hidle, unsentTo]) (hspent.fresh (unspent ht rfl))) ?_
    simp [replica, Server.Node.setThread_other, lockHolder, Server.Node.log]
  | read timedOut now k dst id hd ht =>
    exact .silent rfl (leader_thread rfl rfl rfl rfl rfl rfl (by simp))
  | sent timedOut now k dst id hd ht =>
    have hm : node.clientConnMutex = some (.recovery k) :=
      (hok.holding ht (fun _ hst => hst.locked_holding (by simp) (by simp))).mp rfl
    rw [handed_some rfl, handed_some rfl, if_neg (fun hc => by simp [Message.tag] at hc),
      List.append_nil]
    by_cases hdj : dst = j
    · rw [if_pos ⟨hdj,rfl⟩]
      refine .one (.snapshot _ k (lockHolder_iff.mpr hm) (hspent.fresh (unspent ht rfl))) ?_
      simp [replica, Server.Node.setThread_other, snapshotIn]
    · rw [if_neg (fun hc => hdj hc.1), List.append_nil]
      exact leader_thread rfl rfl rfl rfl rfl rfl (by simp)
  | cleared timedOut now k ht =>
    exact .silent rfl (leader_thread rfl rfl rfl rfl rfl rfl (by simp))
  | unlocked timedOut now k ht =>
    refine .silent rfl ?_
    refine .one (.unlock _) ?_
    simp [replica, Server.Node.setThread_other, lockHolder, Server.Node.log]

end Algorep.Proofs
