import Algorep.Proofs.PacketRefinement
import Algorep.Proofs.TimelyHeartbeats

namespace Algorep.Proofs
open Kit Program Program.Server

/-! What holds of the servers by themselves, carried over to the servers with their heartbeats
and their texts. -/

/-- What the server's part of an action tells. -/
def serverTold (told : Server.Node n → Server.Action n → List β) (node : Heartbeat.Node n) :
    Heartbeat.Action n → List β
  | .server a _ => told node.server a
  | .pingCheck _ | .handlePing _ => []

theorem toldBy_serverTrace (told : Server.Node n → Server.Action n → List β) (i : Fin n)
    (es : HeartbeatTrace n) : toldBy told i (serverTrace es) = toldBy (serverTold told) i es := by
  induction es with
  | nil => rfl
  | cons x es ih =>
    obtain ⟨s,l⟩ := x
    have hsplit : serverTrace ((s,l)::es) =
        ((servedMove s l).map (fun l => (serversOf s,l))).toList ++ serverTrace es := by
      cases hm : servedMove s l <;> simp [serverTrace, hm]
    rw [hsplit, toldBy_append, ih, ← List.singleton_append, toldBy_append]
    congr 1
    cases l with
    | act j a =>
      cases a <;>
        simp [servedMove, serverTold, serversOf, LaneNet.project, toldBy]
    | receive tag src dst =>
      simp only [servedMove, toldBy_receive]
      cases ((s.chan tag src dst).head?).bind serverMessage <;> rfl

/-- As long as the PINGs come in time, the consensus managers of the servers make a run of the
protocol over reliable links: the heartbeats, the elections and the clients leave no trace in
it but the calls. -/
theorem timely_servers_run_consensus (elected : Option (Fin n))
    (hr : HeartbeatReach elected (fun _ => Timely) s es) :
    ∃ c hist, Consensus.Reach (Consensus.holding Consensus.nobodyDead) c hist ∧
      (∀ i, c.nodes i = (s.nodes i).server.consensus) ∧
      (∀ a b, c.chan a b = heldFrom (s.nodes b).server.received a ++
        ((s.chan .consensus a b).filterMap serverMessage).filterMap consensusPacket) ∧
      ∀ i, eventsOf milestone (historyAt i hist) = toldBy (serverTold milestones) i es := by
  obtain ⟨c,hist,hrc,hc,htold⟩ := servers_run_consensus elected (timely_run hr)
  refine ⟨c,hist,hrc,hc.nodes,hc.chan,?_⟩
  intro i
  rw [htold, milestonesAt, toldBy_serverTrace]

/-- The two nodes hear from each other, `p` replicates a command that `q` learns of, and both
check the time stamps. -/
def learnedInTime (p q : Fin n) (value : String) : List (Heartbeat.Move n) :=
  let now := 1500000000
  Heartbeat.Move.round p 0 ++ Heartbeat.Move.round q 0 ++ Heartbeat.Move.ping p q now ++
  Heartbeat.Move.ping q p now ++ learnedByMessage p q value ++
  Heartbeat.Move.round p (2 * now) ++ Heartbeat.Move.round q (2 * now)

def checksInTime (_ : HeartbeatTrace n) (s : Heartbeat.Cluster n) : Heartbeat.Move n → Bool
  | .act i a => inTime (s.nodes i) a
  | .receive _ _ _ => true

theorem timely_of_checks (es : HeartbeatTrace n) (s : Heartbeat.Cluster n) (l : Heartbeat.Move n)
    (h : checksInTime es s l = true) : Timely s l := by
  cases l with
  | act i a => exact h
  | receive => trivial

theorem learnedInTime_end : ((Heartbeat.process (some (0 : Fin 2))).network.traced.follow
    checksInTime (learnedInTime 0 1 "v") (Heartbeat.process (some 0)).network.traced.start []).map
      (fun r => ((r.1.nodes 1).server.log,toldBy (serverTold milestones) 0 r.2)) =
        some (["v"],[.called "v",.succeeded "v"]) := by
  decide

theorem timely_servers_run_consensus_learnedInTime :
    ∃ (s : Heartbeat.Cluster 2) (es : HeartbeatTrace 2),
    HeartbeatReach (some 0) (fun _ => Timely) s es ∧
    ∃ c hist, Consensus.Reach (Consensus.holding Consensus.nobodyDead) c hist ∧
      (c.nodes 1).log = ["v"] ∧
      eventsOf milestone (historyAt (0 : Fin 2) hist) = [.called "v",.succeeded "v"] := by
  obtain ⟨s,es,hr,h⟩ := Machine.exists_reach timely_of_checks learnedInTime_end
  obtain ⟨hlog,hmilestones⟩ := Prod.mk.inj h
  obtain ⟨c,hist,hrc,hnodes,-,htold⟩ := timely_servers_run_consensus (some 0) hr
  refine ⟨s,es,hr,c,hist,hrc,?_,?_⟩
  · rw [hnodes]
    exact hlog
  · rw [htold]
    exact hmilestones

/-- The call is within limits and in time. -/
def punctual (i : Fin n) (node : Packets.Node n) (a : Packets.Action n) : Prop :=
  WithinLimits i node.server a.call a.id ∧ inTime node.server a.call = true

instance (i : Fin n) (node : Packets.Node n) (a : Packets.Action n) :
    Decidable (punctual i node a) := inferInstanceAs (Decidable (_ ∧ _))

/-- What the server's part of an action tells, under the heartbeats and the texts. -/
def textTold (told : Server.Node n → Server.Action n → List β) (node : Packets.Node n)
    (a : Packets.Action n) : List β := serverTold told node.server a.call

theorem LogsAnswer.imp {asked told : Fin n → List String} {nodes : Fin n → Server.Node n}
    {silent silent' : Prop} (h : LogsAnswer asked told nodes silent) (hs : silent' → silent) :
    LogsAnswer asked told nodes silent' :=
  ⟨h.replied,h.requested,fun hq hs' => h.learned hq (hs hs'),fun hq hs' => h.merged hq (hs hs')⟩

/-- As long as the PINGs come in time and every text leaves room for its NUL, no receiver meets
a text that it cannot read, no node is taken for dead, every server has in its log what it has
answered, and all logs have each request at most once. Once everything has been delivered, every
log is a merge of what each server has answered. -/
theorem texts_answer_requests (floats : Json.Floats) (elected : Option (Fin n)) (hn : n ≤ 2 ^ 31)
    (hr : (Packets.process floats elected).network.traced.Reach
      (fun _ => LaneProcess.actsWell punctual) s es) :
    (∀ i, (s.nodes i).down = false) ∧ (∀ i j, (s.nodes i).server.server.isAlive j = true) ∧
    LogsAnswer (fun i => toldBy (textTold requestsOf) i es)
      (fun i => toldBy (textTold answersOf) i es) (fun i => (s.nodes i).server.server)
      (∀ a b, s.chan .consensus a b = []) := by
  have hguard : ∀ s s' (l : Packets.Move n), s.Agrees (fun _ => StandsFor) (Encodes floats) s' →
      LaneProcess.actsWell punctual s l →
      LaneProcess.actsWell (fun i x a => WithinLimits i x.server a.call a.id) s l ∧
        Timely s' (l.map Packets.Action.call) := by
    intro s s' l hag hok
    cases l with
    | act i a =>
      have hin : inTime (s'.nodes i) a.call = true := (hag.nodes i).server ▸ hok.2
      exact ⟨hok.1,hin⟩
    | receive => exact ⟨trivial,trivial⟩
  obtain ⟨s',es',hr',hag,hes⟩ := (packets_refine hn floats elected).reach_traced hguard hr
  have hrun := timely_run hr'
  have hlogs := unsuspected_logs elected hrun
  have htold : ∀ (told : Server.Node n → Server.Action n → List String) i,
      toldBy told i (serverTrace es') = toldBy (textTold told) i es := by
    intro told i
    have hnode : ∀ (j : Fin n) x x' a, StandsFor x x' →
        serverTold told x' a.call = textTold told x a := by
      intro j x x' a hx
      rw [textTold, hx.server]
    rw [toldBy_serverTrace]
    exact toldBy_alike hnode hes i
  have hnodes : (serversOf s').nodes = fun i => (s.nodes i).server.server := by
    funext i
    rw [(hag.nodes i).server]
    rfl
  simp only [requestedBy, repliedBy, htold, hnodes] at hlogs
  refine ⟨fun i => (hag.nodes i).up,?_,hlogs.imp ?_⟩
  · intro i j
    have halive := (reach_unsuspected (fun _ _ _ h => h) hrun).alive i j
    rwa [hnodes] at halive
  · intro hsilent a b
    have hchan := hag.chan .consensus a b
    rw [hsilent] at hchan
    simp only [serversOf, LaneNet.project, List.forall₂_nil_left_iff.mp hchan, List.filterMap_nil]

def quiet (s : Packets.Cluster n) : Bool :=
  (List.finRange n).all (fun i =>
    (s.nodes i).server.server.client == .accepting &&
      (s.nodes i).server.server.received.isNone &&
      (List.finRange n).all (fun j => (s.chan .consensus i j).isEmpty))

theorem quiet_quiesced {s : Packets.Cluster n} (h : quiet s = true) :
    Quiesced (fun i => (s.nodes i).server.server) ∧ ∀ a b, s.chan .consensus a b = [] := by
  simp only [quiet, List.all_eq_true, List.mem_finRange, forall_const, Bool.and_eq_true,
    beq_iff_eq, Option.isNone_iff_eq_none, List.isEmpty_iff] at h
  refine ⟨⟨?_,?_,fun i => (h i).1.2⟩,fun i => (h i).2⟩
  · intro i value
    simp [(h i).1.1]
  · intro i value b
    simp [(h i).1.1]

/-- The same run in texts. The client hangs up, and `p` takes the answers of `q`. -/
def answeredInTexts (p q : Fin n) (value : String) : List (Packets.Move n) :=
  (learnedInTime p q value).map (LaneLabel.map Packets.Action.bare) ++
  ([LaneLabel.act p Server.Action.disconnect] ++ Server.Move.consensus q p 20 ++
    Server.Move.consensus q p 20).map Packets.Move.served

def checksPunctual (_ : List (Packets.Cluster n × Packets.Move n)) (s : Packets.Cluster n) :
    Packets.Move n → Bool
  | .act i a => decide (punctual i (s.nodes i) a)
  | .receive _ _ _ => true

theorem punctual_of_checks (es : List (Packets.Cluster n × Packets.Move n))
    (s : Packets.Cluster n) (l : Packets.Move n) (h : checksPunctual es s l = true) :
    LaneProcess.actsWell punctual s l := by
  cases l with
  | act i a =>
    simpa only [checksPunctual, decide_eq_true_eq, LaneProcess.actsWell] using h
  | receive => trivial

theorem answeredInTexts_end :
    ((Packets.process noFloats (some (0 : Fin 2))).network.traced.follow checksPunctual
    (answeredInTexts 0 1 "v") (Packets.process noFloats (some 0)).network.traced.start []).map
      (fun r => (quiet r.1,toldBy (textTold answersOf) 0 r.2,toldBy (textTold answersOf) 1 r.2)) =
        some (true,["v"],[]) := by
  decide

theorem texts_answer_requests_answeredInTexts : ∃ (s : Packets.Cluster 2)
    (es : List (Packets.Cluster 2 × Packets.Move 2)),
    (Packets.process noFloats (some 0)).network.traced.Reach
      (fun _ => LaneProcess.actsWell punctual) s es ∧
    toldBy (textTold answersOf) 0 es = ["v"] ∧ (s.nodes 1).server.server.log.Perm ["v"] := by
  obtain ⟨s,es,hr,h⟩ := Machine.exists_reach punctual_of_checks answeredInTexts_end
  simp only [Prod.mk.injEq] at h
  obtain ⟨hquiet,h0,h1⟩ := h
  obtain ⟨hq,hsilent⟩ := quiet_quiesced hquiet
  obtain ⟨-,-,hlogs⟩ := texts_answer_requests noFloats (some 0) (by decide) hr
  have hperm := hlogs.merged hq hsilent 1
  refine ⟨s,es,hr,h0,?_⟩
  simpa [List.finRange_succ, h0, h1] using hperm

end Algorep.Proofs
