import Algorep.Kit.Hosting
import Algorep.Proofs.ElectionAgreement
import Algorep.Proofs.ExactlyOnce
import Algorep.Proofs.SubmittedData

namespace Algorep.Proofs
open Kit Program Program.Server

/-! While no node is taken for dead, the consensus managers of the servers are a run of the
consensus protocol by itself: whatever elections there are, and whoever serves the clients. -/

def consensusPacket : Server.Message n → Option Consensus.Packet
  | .consensus packet => some packet
  | _ => none

/-- No message is dropped, and only the election manager has sections to run. -/
structure ElectionOnly (node : Server.Node n) : Prop where
  linked : ∀ j, node.processIsAlive j = true
  sections : ∀ t, ∀ op ∈ node.threads t, electionOp op = true

/-- What there is to say of a call of `startConsensus`. -/
inductive Milestone
  | called (value : String)
  | succeeded (value : String)
deriving DecidableEq

def milestone : Consensus.Event n → Option Milestone
  | .called _ value _ => some (.called value)
  | .acceptsSampled _ value true => some (.succeeded value)
  | _ => none

/-- The same, read off what a server does. -/
def milestones (node : Server.Node n) : Server.Action n → List Milestone
  | .replicate value _ => [.called value]
  | .proceed _ =>
    match node.consensus.thread with
    | .propose value _ [] =>
      if Consensus.receiveAccepts n node.consensus.context then [.succeeded value] else []
    | _ => []
  | _ => []

theorem ElectionOnly.installs {node : Server.Node n} (h : ElectionOnly node)
    (hop : op ∈ node.threads t) : installs op = none := by
  have helection := h.sections t op hop
  cases op with
  | handleMessage src m =>
    cases m with
    | state => simp [electionOp, Server.Message.tag] at helection
    | _ => rfl
  | _ => rfl

theorem projectSend_ofConsensus {node : Server.Node n} (h : ElectionOnly node) (rank : Fin n)
    (out : Consensus.Result n) (hp : node'.processIsAlive = node.processIsAlive) :
    projectSend consensusPacket (ofConsensus rank node' out).send = out.send := by
  have hlinked : ∀ j, node'.processIsAlive j = true := fun j => by rw [hp, h.linked j]
  cases hs : out.send with
  | none => simp [ofConsensus, hs, projectSend]
  | some p =>
    simp [ofConsensus, hs, projectSend, Server.Node.send, dropsFrom_linked hlinked,
      consensusPacket]

theorem projectSend_election {node : Server.Node n} (h : electionOp op = true) (rank : Fin n) :
    projectSend consensusPacket (sends rank node op) = none := by
  cases hs : sends rank node op with
  | none => rfl
  | some p =>
    obtain ⟨dst,m⟩ := p
    have htag := sends_electionOp h hs
    cases m with
    | consensus => contradiction
    | _ => rfl

/-- A section of the election manager is none of the consensus manager's business. -/
theorem ElectionOnly.section_silent {node : Server.Node n} (h : ElectionOnly node)
    (ht : node.threads t = op::rest) (he : exec rank node timedOut now op = some (ops,out)) :
    out.state.consensus = node.consensus ∧ out.state.received = node.received ∧
      projectSend consensusPacket out.send = none := by
  have hop : op ∈ node.threads t := ht ▸ List.mem_cons_self
  obtain ⟨hcons,hrec⟩ := exec_consensus he
  have hlog := (exec_frame he).log
  rw [h.installs hop] at hlog
  refine ⟨?_,hrec,?_⟩
  · rw [hcons, hlog]
    rfl
  · rw [(exec_ran he).send]
    exact projectSend_election (h.sections t op hop) rank

theorem milestones_call {node : Consensus.Node n}
    (h : Consensus.startConsensus rank node value now = some out) :
    [.called value] = out.events.filterMap milestone := by
  have ha := acts_of_act (a := .startConsensus value now) h
  cases ha
  rfl

theorem milestones_proceed {node : Server.Node n}
    (h : Consensus.proceed rank node.consensus now = some out) :
    milestones node (.proceed now) = out.events.filterMap milestone := by
  have ha := acts_of_act (a := .proceed now) h
  cases ha with
  | acceptsSampled value m ht =>
    simp only [milestones, ht]
    split <;> simp_all [milestone]
  | sentPropose value m dst rest ht | sentPrepare value m dst rest ht
    | sentAccepted value m dst rest ht => simp [milestones, ht]
  | promisesSampled value m ht | reached value m ht => simp [milestones, ht, milestone]
  | proposed value now ht | appended value ht | announced value now ht =>
    simp [milestones, ht, milestone]
  | returned b ht => simp [milestones, ht, milestone]

theorem milestones_handle {node : Consensus.Node n}
    (h : Consensus.handleMessage rank node src packet now = some out) :
    [] = out.events.filterMap milestone := by
  cases (handles_of_handle h).2 <;> rfl

/-- The lane of the CONSENSUS messages hosts the protocol. -/
theorem servers_host_consensus (elected : Option (Fin n)) :
    (Server.process elected).Hosts (Consensus.process n) .consensus Server.Node.consensus
      Server.Node.received consensusPacket (fun _ => ElectionOnly) (fun _ => milestone) milestones where
  core_start i := rfl
  held_start i := rfl
  lane m m' h := by
    cases m with
    | consensus => rfl
    | _ => contradiction
  act i x a out hj ho := by
    replace ho : Server.act i x a = some out := ho
    cases a with
    | replicate value now =>
      simp only [Server.act, replicate] at ho
      split at ho
      · obtain ⟨cout,hs,rfl⟩ := Option.map_eq_some_iff.mp ho
        exact .act (.startConsensus value now) cout hs rfl rfl (projectSend_ofConsensus hj i cout rfl)
          (milestones_call hs)
      · contradiction
    | proceed now =>
      simp only [Server.act, Server.proceed] at ho
      split at ho
      · obtain ⟨cout,hs,rfl⟩ := Option.map_eq_some_iff.mp ho
        exact .act (.proceed now) cout hs rfl rfl (projectSend_ofConsensus hj i cout rfl)
          (milestones_proceed hs)
      · contradiction
    | handleConsensus now =>
      simp only [Server.act, handleConsensus] at ho
      split at ho
      · rename_i src packet hr
        obtain ⟨cout,hs,rfl⟩ := Option.map_eq_some_iff.mp ho
        exact .handle src packet now cout hr hs rfl rfl (projectSend_ofConsensus hj i cout rfl)
          (milestones_handle hs)
      · contradiction
    | resetContext =>
      simp only [Server.act, Option.map_eq_some_iff] at ho
      obtain ⟨cout,hs,rfl⟩ := ho
      refine .act .resetContext cout hs rfl rfl (projectSend_ofConsensus hj i cout rfl) ?_
      cases acts_of_act hs
      rfl
    | run t timedOut now =>
      obtain ⟨op,rest,ops,out',ht,he,rfl⟩ := run_cases ho
      obtain ⟨hcore,hheld,hsend⟩ := hj.section_silent ht he
      exact .silent hcore hheld hsend rfl
    | connect | disallowRecovery | reply | disconnect | startElection | detectFailure
      | detectRecovery =>
      cases serverActs_of_act ho
      exact .silent rfl rfl rfl rfl
  accept i x src m y hj ha := by
    replace ha : Server.accept i x m.tag src m = some y := ha
    generalize hk : m.tag = k at ha
    cases accepts_of_accept ha with
    | dropped _ _ _ hd => simp [dropsFrom_linked hj.linked] at hd
    | consensus _ packet hr hb => exact ⟨rfl,hr,rfl⟩
    | election _ _ ht =>
      cases m with
      | consensus => contradiction
      | _ => exact ⟨rfl,rfl⟩
    | failure _ _ ht =>
      cases m with
      | consensus => contradiction
      | _ => exact ⟨rfl,rfl⟩

theorem Unsuspected.calm {s : Server.Cluster n} (h : Unsuspected s) (i : Fin n) :
    ElectionOnly (s.nodes i) :=
  ⟨h.linked i,fun t op hop => (h.threads i t op hop).2⟩

/-- The servers' part in the protocol, with the messages that their receivers have taken. -/
abbrev ConsensusOf (s : Server.Cluster n) (c : Consensus.Cluster n) : Prop :=
  Hosted Server.Node.consensus Server.Node.received consensusPacket .consensus s c

abbrev milestonesAt (i : Fin n) (es : Trace n) : List Milestone := toldBy milestones i es

/-- In every run in which no node is taken for dead, the consensus managers have made a run of
the protocol over reliable links, in which each has called and succeeded as its server has. -/
theorem servers_run_consensus (elected : Option (Fin n))
    (hr : TraceReach elected (fun _ _ l => suspectsNobody l = true) s es) :
    ∃ c hist, Consensus.Reach (Consensus.holding Consensus.nobodyDead) c hist ∧
      ConsensusOf s c ∧ ∀ i, eventsOf milestone (historyAt i hist) = milestonesAt i es := by
  have hinv : ∀ s es, TraceReach elected (fun _ _ l => suspectsNobody l = true) s es →
      (∀ i, ElectionOnly (s.nodes i)) ∧ s.InLane Server.Message.tag :=
    fun s es hr => ⟨(reach_unsuspected (fun _ _ _ h => h) hr).calm,(reach_threaded hr).1⟩
  obtain ⟨c,hist,hrc,hc,htold⟩ := (servers_host_consensus elected).reach hinv hr
  refine ⟨c,hist,hrc.imp ?_,hc,htold⟩
  intro c hist l _ hup
  have hdead : Consensus.NoneDead l := fun a b => by rw [hup, links_noneDead]
  exact decide_eq_true hdead

end Algorep.Proofs
