import Algorep.Proofs.ElectionSteps

namespace Algorep.Proofs
open Kit Program Program.Server

/-- Sections after which a node does not name itself leader. -/
def unseats (rank : Fin n) : Op n → Bool
  | .restartElection => true
  | .setLeaderNodeId value => value != rank
  | .handleMessage srcNodeId .victory => srcNodeId != rank
  | _ => false

/-- A REPLICATE is served by a node that names itself leader, and `startConsensus` runs
while nothing unseats the node. -/
def leadsToReplicate (rank : Fin n) (node : Server.Node n) : Server.Action n → Bool
  | .replicate _ _ => node.leaderNodeId == some rank
  | .run t _ _ => !replicating node.client || (node.threads t).head?.all (fun op => !unseats rank op)
  | _ => true

def onlyLeadersReplicate (_ : Server.History n) (s : Server.Cluster n) : Server.Move n → Bool
  | .act i a => leadsToReplicate i (s.nodes i) a
  | .receive _ _ _ => true

/-- A node that is inside `startConsensus` for a client names itself leader. -/
def LeadsReplicating (rank : Fin n) (node : Server.Node n) : Prop :=
  replicating node.client = true → node.leaderNodeId = some rank

theorem leaderAfter_eq_iff {rank : Fin n} {node : Server.Node n}
    (h : node.leaderNodeId = some rank) (op : Op n) :
    leaderAfter node op = some rank ↔ unseats rank op = false := by
  cases op with
  | handleMessage src m => cases m <;> simp [leaderAfter, unseats, h]
  | _ => simp [leaderAfter, unseats, h]

theorem turns_leads_iff {rank : Fin n} {node : Server.Node n} (hn : LeadsReplicating rank node)
    (h : Turns rank node a out) :
    LeadsReplicating rank out.state ↔ leadsToReplicate rank node a = true := by
  cases h with
  | ran t timedOut now op rest ops out ht he =>
    have hran := exec_ran he
    unfold LeadsReplicating
    dsimp only
    rw [Server.Node.setThread_client, Server.Node.setThread_leaderNodeId, hran.client, hran.leader]
    cases hc : replicating node.client with
    | false => simp [leadsToReplicate, hc]
    | true => simp [leadsToReplicate, hc, ht, leaderAfter_eq_iff (hn hc)]
  | born a ops hb =>
    have htest : leadsToReplicate rank node a = true := by
      cases a with
      | startElection | detectFailure | detectRecovery => rfl
      | _ => simp [births] at hb
    simpa [htest, LeadsReplicating] using hn
  | client a out hr hb hu hm hc hv =>
    unfold LeadsReplicating
    rw [hu.leader]
    cases a with
    | replicate v now => simp [hv v now rfl, leadsToReplicate]
    | run t timedOut now => exact absurd rfl (hr t timedOut now)
    | _ =>
      simp only [leadsToReplicate, iff_true]
      exact fun h => hn ((hc h).resolve_right (by simp))

/-- A step keeps the rule at every node exactly when it meets the condition. -/
theorem step_leads_iff {s : Server.Cluster n} (hs : ∀ i, LeadsReplicating i (s.nodes i))
    (h : (Server.process elected).Step s l t e) :
    (∀ i, LeadsReplicating i (t.nodes i)) ↔ onlyLeadersReplicate es s l = true := by
  cases h with
  | act i a out ho =>
    have hiff := turns_leads_iff (hs i) (turns_of_act ho)
    rw [onlyLeadersReplicate, ← hiff]
    constructor
    · intro ht
      simpa using ht i
    · intro hi j
      by_cases hj : j = i
      · subst hj
        rwa [LaneNet.commit_self]
      · rw [LaneNet.commit_other _ _ _ hj]
        exact hs j
  | receive k src dst m rest x hc hx =>
    simp only [onlyLeadersReplicate, iff_true]
    intro j
    by_cases hj : j = dst
    · subst hj
      rw [LaneNet.take_self]
      have hj := hs j
      cases taken_of_accept hx with
      | kept _ hu hclient =>
        unfold LeadsReplicating
        rw [hu.leader, hclient]
        exact hj
      | election | failure => exact hj
    · rw [LaneNet.take_other _ _ _ _ _ hj]
      exact hs j

/-- While the condition is met only nodes that name themselves leader replicate, and
the next step keeps it so exactly when it meets the condition too. -/
theorem only_leaders_replicate (elected : Option (Fin n))
    (hr : Server.Reach elected (fun es s l => onlyLeadersReplicate es s l = true) s es) :
    (∀ i, LeadsReplicating i (s.nodes i)) ∧
    ∀ l t e, (Server.process elected).network.step s l = some (t,e) →
      ((∀ i, LeadsReplicating i (t.nodes i)) ↔ onlyLeadersReplicate es s l = true) := by
  have hall : ∀ i, LeadsReplicating i (s.nodes i) := by
    induction hr with
    | start =>
      intro i h
      simp [LaneProcess.network, Server.process, initialNode, replicating] at h
    | @step s es l t e _ hok hs ih => exact (step_leads_iff ih (LaneProcess.step_of_eq hs)).mpr hok
  exact ⟨hall,fun l t e hs => step_leads_iff hall (LaneProcess.step_of_eq hs)⟩

/-- `q` is elected and serves a REPLICATE. -/
def electedServes (q : Fin n) : List (Server.Move n) :=
  .act q .startElection::Move.sections q (.spawned 0) 6 0 ++ Move.request q "v" 10

/-- What node `i` is doing for its client, and whom it takes for the leader. -/
def clientAndLeader (i : Fin n) (r : Server.Cluster n × Server.History n) :
    Client × Option (Fin n) :=
  ((r.1.nodes i).client,(r.1.nodes i).leaderNodeId)

theorem electedServes_end : Server.outcome (n := 2) none onlyLeadersReplicate (electedServes 1)
    (fun r => (r.1.nodes 1).client) = some (.replicating "v") := by
  decide

theorem only_leaders_replicate_electedServes : ∃ (s : Server.Cluster 2) (es : Server.History 2),
    Server.Reach none (fun es s l => onlyLeadersReplicate es s l = true) s es ∧
    (s.nodes 1).client = .replicating "v" ∧ (s.nodes 1).leaderNodeId = some 1 := by
  obtain ⟨s,es,hr,h⟩ := Machine.exists_reach (fun _ _ _ h => h) electedServes_end
  dsimp only at h
  exact ⟨s,es,hr,h,(only_leaders_replicate none hr).1 1 (by rw [h]; rfl)⟩

/-- The leader `r` serves a REPLICATE. `p` takes it for dead and starts an election,
and `q` passes the ELECTION on to `r`. -/
def unseatedServes (p q r : Fin n) : List (Server.Move n) :=
  Move.request r "v" 10 ++ Move.marksDead p r 0 ++ Move.sections p (.spawned 1) 2 10 ++
  Move.election p q ++ Move.sections q .electionReceiver 2 10 ++ Move.election q r ++
  Move.sections r .electionReceiver 1 10

theorem unseatedServes_end : Server.outcome (n := 3) (some 2) (fun _ _ _ => true)
    (unseatedServes 0 1 2) (clientAndLeader 2) = some (.replicating "v",none) := by
  decide

/-- An ELECTION makes a node forget that it leads while it replicates. -/
theorem follower_replicates : ∃ (s : Server.Cluster 3) (es : Server.History 3),
    Server.Reach (some 2) Machine.free s es ∧ (s.nodes 2).client = .replicating "v" ∧
    (s.nodes 2).leaderNodeId = none := by
  obtain ⟨s,es,hr,h⟩ := Machine.exists_reach (fun _ _ _ _ => trivial) unseatedServes_end
  exact ⟨s,es,hr,Prod.mk.inj h⟩

end Algorep.Proofs
