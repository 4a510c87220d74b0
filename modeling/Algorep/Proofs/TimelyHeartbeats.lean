import Algorep.Kit.Refinement
import Algorep.Proofs.AnsweredRequests
import Algorep.Proofs.Suspicions

namespace Algorep.Proofs
open Kit Program Program.Server

/-! As long as every node hears from its peers in time, nobody is taken for dead. -/

/-- A round of `checkTimeStamps` finds a PING that is not too old. -/
def inTime (node : Heartbeat.Node n) : Heartbeat.Action n → Bool
  | .pingCheck cur =>
    match node.pingThread with
    | .checkTimeStamp nodeId::_ =>
      decide (Heartbeat.elapsed node nodeId cur ≤ Heartbeat.timeoutDuration)
    | _ => true
  | _ => true

/-- All rounds do. -/
abbrev Timely (s : Heartbeat.Cluster n) (l : Heartbeat.Move n) : Prop :=
  LaneProcess.actsWell (fun _ node a => inTime node a = true) s l

abbrev HeartbeatTrace (n : Nat) := List (Heartbeat.Cluster n × Heartbeat.Move n)

/-- Runs with heartbeats, told by their moves. -/
abbrev HeartbeatReach (elected : Option (Fin n))
    (ok : HeartbeatTrace n → Heartbeat.Cluster n → Heartbeat.Move n → Prop) :
    Heartbeat.Cluster n → HeartbeatTrace n → Prop :=
  (Heartbeat.process elected).network.traced.Reach ok

/-- The servers without their heartbeats. -/
def serversOf (s : Heartbeat.Cluster n) : Server.Cluster n :=
  s.project Heartbeat.Node.server serverMessage

/-- What is left of a move without the heartbeats. -/
def servedMove (s : Heartbeat.Cluster n) : Heartbeat.Move n → Option (Server.Move n)
  | .act i (.server a _) => some (.act i a)
  | .act _ (.pingCheck _) | .act _ (.handlePing _) => none
  | .receive tag src dst => (((s.chan tag src dst).head?).bind serverMessage).map
      (fun _ => .receive tag src dst)

def serverTrace (es : HeartbeatTrace n) : Trace n :=
  es.filterMap (fun x => (servedMove x.1 x.2).map (fun l => (serversOf x.1,l)))

/-- A check in time finds nothing. -/
theorem checkTimeStamp_timely {node : Heartbeat.Node n} (halive : node.server.isAlive j = true)
    (hin : Heartbeat.elapsed node j cur ≤ Heartbeat.timeoutDuration) :
    Heartbeat.checkTimeStamp rank node j cur = node := by
  unfold Heartbeat.checkTimeStamp
  rw [if_neg (by omega), if_neg (by simp [halive])]

theorem timely_pingCheck {node : Heartbeat.Node n} (hok : inTime node (.pingCheck cur) = true)
    (halive : ∀ j, node.server.isAlive j = true) :
    (Heartbeat.pingCheck rank node cur).state.server = node.server ∧
      projectSend serverMessage (Heartbeat.pingCheck rank node cur).send = none := by
  unfold Heartbeat.pingCheck
  split
  · exact ⟨rfl,rfl⟩
  · rename_i j rest ht
    simp only [inTime, ht, decide_eq_true_eq] at hok
    rw [checkTimeStamp_timely (halive j) hok]
    exact ⟨rfl,rfl⟩
  · exact ⟨rfl,rfl⟩

/-- A step in time is a step of the servers that suspects nobody, or none at all. -/
theorem timely_step {s t : Heartbeat.Cluster n} (hs : (Heartbeat.process elected).Step s l t e)
    (hok : Timely s l) (halive : ∀ i j, (s.nodes i).server.isAlive j = true) :
    match servedMove s l with
    | none => serversOf t = serversOf s
    | some l' => suspectsNobody l' = true ∧
        ∃ e', (Server.process elected).network.step (serversOf s) l' = some (serversOf t,e') := by
  have hproj := heartbeat_projects elected
  cases hs with
  | act i a out ho =>
    replace ho : Heartbeat.act i (s.nodes i) a = some out := ho
    cases a with
    | pingCheck cur =>
      simp only [Heartbeat.act, Option.some.injEq] at ho
      subst ho
      obtain ⟨hx,hsend⟩ := timely_pingCheck hok (halive i)
      exact hproj.commit_hidden hx hsend
    | handlePing now =>
      obtain ⟨src,-,rfl⟩ := Option.map_eq_some_iff.mp ho
      exact hproj.commit_hidden rfl rfl
    | server a now =>
      have hnobody : suspectsNobody (.act i a) = true := by
        cases a with
        | detectFailure => contradiction
        | _ => rfl
      obtain ⟨sout,hact,hx,hsend,-⟩ := serve_cases ho
      have hpassed : sout.send = projectSend serverMessage out.send := by
        rw [hsend, projectSend_server]
      have hcommit := hproj.commit hx.symm hpassed s i
      refine ⟨hnobody,sout.events.map (fun e => (i,e)),?_⟩
      have hnode : (serversOf s).nodes i = (s.nodes i).server := rfl
      have hact' : (Server.process elected).act i (s.nodes i).server a = some sout := hact
      simp only [LaneProcess.network, LaneProcess.step, hnode, hact', Option.map_some,
        Option.some.injEq, Prod.mk.injEq, and_true]
      exact hcommit.symm
  | receive k src dst m rest x hc hx =>
    have hreceive := hproj.receive hc hx
    simp only [servedMove, hc, List.head?_cons, Option.bind_some]
    cases hm : serverMessage m with
    | none =>
      rw [hm] at hreceive
      exact hreceive
    | some m' =>
      rw [hm] at hreceive
      exact ⟨rfl,_,hreceive⟩

/-- Without their heartbeats, the servers have made a run in which nobody is suspected. -/
theorem timely_run (hr : HeartbeatReach elected (fun _ => Timely) s es) :
    TraceReach elected (fun _ _ l => suspectsNobody l = true) (serversOf s) (serverTrace es) := by
  induction hr with
  | start =>
    have hstart : serversOf (Heartbeat.process elected).network.start =
        (Server.process elected).network.start := rfl
    exact hstart ▸ .start
  | @step s es l t e hr hok hs ih =>
    obtain ⟨rfl,e,he⟩ := Machine.traced_step hs
    have hunsuspected := reach_unsuspected (fun _ _ _ h => h) ih
    have hstep := timely_step (LaneProcess.step_of_eq he) hok hunsuspected.alive
    have hsplit : serverTrace (es ++ [(s,l)]) = serverTrace es ++
        ((servedMove s l).map (fun l => (serversOf s,l))).toList := by
      cases hm : servedMove s l <;> simp [serverTrace, hm]
    rw [hsplit]
    split at hstep
    · rename_i hm
      rw [hm, hstep, Option.map_none, Option.toList_none, List.append_nil]
      exact ih
    · rename_i l' hm
      obtain ⟨hnobody,e',hs'⟩ := hstep
      rw [hm, Option.map_some, Option.toList_some]
      have htraced : (Server.process elected).network.traced.step (serversOf s) l' =
          some (serversOf t,[(serversOf s,l')]) := by
        simp [Machine.traced, hs']
      exact ih.step hnobody htraced

end Algorep.Proofs
