import Algorep.Kit.Projection
import Algorep.Program.Heartbeat
import Algorep.Proofs.RecoveryIds

namespace Algorep.Proofs
open Kit Program Program.Server

/-! The heartbeats left out, a server is the one the other results are about. -/

def serverMessage : Heartbeat.Message n → Option (Server.Message n)
  | .ping => none
  | .server m => some m

theorem projectSend_server (p : Option (Fin n × Server.Message n)) :
    projectSend serverMessage (p.map (fun p => (p.1,Heartbeat.Message.server p.2))) = p := by
  cases p <;> rfl

/-- A round of `checkTimeStamps` is a detection or nothing. -/
theorem checkTimeStamp_server {rank j : Fin n} (hj : j ≠ rank) (node : Heartbeat.Node n) (cur : Int) :
    (Heartbeat.checkTimeStamp rank node j cur).server = node.server ∨
      ∃ a out, Server.act rank node.server a = some out ∧
        out.state = (Heartbeat.checkTimeStamp rank node j cur).server ∧ out.send = none := by
  unfold Heartbeat.checkTimeStamp
  split
  · rename_i hsilent
    have ha : Server.act rank node.server (.detectFailure j) =
        some { state := node.server.spawn (handleNodeFailure j) } := by
      simp only [Server.act, detectFailure]
      rw [if_pos ⟨hj,hsilent.1⟩]
    exact .inr ⟨_,_,ha,rfl,rfl⟩
  · split
    · rename_i hheard
      split
      · rename_i hfree
        have ha : Server.act rank node.server (.detectRecovery j) =
            some { state := node.server.spawn (handleNodeRecovery j node.server.spawned) } := by
          simp only [Server.act, detectRecovery]
          rw [if_pos ⟨hj,hheard.1,hfree⟩]
        exact .inr ⟨_,_,ha,rfl,rfl⟩
      · exact .inl rfl
    · exact .inl rfl

/-- The rounds left to the thread of `pingCheck` are about other nodes. -/
def PingsOthers (rank : Fin n) (node : Heartbeat.Node n) : Prop :=
  ∀ j, .checkTimeStamp j ∈ node.pingThread → j ≠ rank

theorem serve_cases {node : Heartbeat.Node n} (h : Heartbeat.serve rank node a now = some out) :
    ∃ sout, Server.act rank node.server a = some sout ∧ out.state.server = sout.state ∧
      out.send = sout.send.map (fun p => (p.1,.server p.2)) ∧
      out.state.pingThread = node.pingThread := by
  unfold Heartbeat.serve at h
  split at h
  · contradiction
  · contradiction
  · obtain ⟨sout,hs,rfl⟩ := Option.map_eq_some_iff.mp h
    exact ⟨sout,hs,rfl,rfl,rfl⟩

theorem PingsOthers.pingCheck {node : Heartbeat.Node n} (h : PingsOthers rank node) (cur : Int) :
    PingsOthers rank (Heartbeat.pingCheck rank node cur).state := by
  unfold Heartbeat.pingCheck
  split
  · intro j hj
    simpa [Heartbeat.pingBody] using hj
  · rename_i nodeId rest ht
    intro j hj
    exact h j (ht ▸ List.mem_cons_of_mem _ hj)
  · rename_i dst rest ht
    intro j hj
    exact h j (ht ▸ List.mem_cons_of_mem _ hj)

theorem pingsOthers_act {node : Heartbeat.Node n} (h : PingsOthers rank node)
    (ha : Heartbeat.act rank node a = some out) : PingsOthers rank out.state := by
  cases a with
  | pingCheck cur =>
    simp only [Heartbeat.act, Option.some.injEq] at ha
    exact ha ▸ h.pingCheck cur
  | handlePing now =>
    obtain ⟨src,-,rfl⟩ := Option.map_eq_some_iff.mp ha
    exact h
  | server a now =>
    obtain ⟨sout,-,-,-,hping⟩ := serve_cases ha
    unfold PingsOthers
    rwa [hping]

theorem pingCheck_server {node : Heartbeat.Node n} (h : PingsOthers rank node) (cur : Int) :
    ((Heartbeat.pingCheck rank node cur).state.server = node.server ∧
      projectSend serverMessage (Heartbeat.pingCheck rank node cur).send = none) ∨
    ∃ a out, Server.act rank node.server a = some out ∧
      out.state = (Heartbeat.pingCheck rank node cur).state.server ∧
      out.send = projectSend serverMessage (Heartbeat.pingCheck rank node cur).send := by
  unfold Heartbeat.pingCheck
  split
  · exact .inl ⟨rfl,rfl⟩
  · rename_i j rest ht
    rcases checkTimeStamp_server (h j (by simp [ht])) node cur with hsame | ⟨a,out,ha,hx,hs⟩
    · exact .inl ⟨hsame,rfl⟩
    · exact .inr ⟨a,out,ha,hx,hs⟩
  · exact .inl ⟨rfl,rfl⟩

theorem heartbeat_projects (elected : Option (Fin n)) :
    (Heartbeat.process elected).Projects (Server.process elected) Heartbeat.Node.server
      serverMessage PingsOthers where
  start _ := rfl
  lane m m' hm := by
    cases m with
    | ping => simp [serverMessage] at hm
    | server x =>
      simp only [serverMessage, Option.some.injEq] at hm
      exact hm ▸ rfl
  act i x a out hj ha := by
    cases a with
    | pingCheck cur =>
      simp only [Heartbeat.process, Heartbeat.act, Option.some.injEq] at ha
      exact ha ▸ pingCheck_server hj cur
    | handlePing now =>
      obtain ⟨src,-,rfl⟩ := Option.map_eq_some_iff.mp ha
      exact .inl ⟨rfl,rfl⟩
    | server a now =>
      obtain ⟨sout,hs,hx,hsend,-⟩ := serve_cases ha
      refine .inr ⟨a,sout,hs,hx.symm,?_⟩
      rw [hsend, projectSend_server]
  accept i x k src m y ha := by
    cases m with
    | ping =>
      simp only [Heartbeat.process, Heartbeat.accept, Option.ite_none_right_eq_some,
        Option.some.injEq] at ha
      obtain ⟨-,rfl⟩ := ha
      rfl
    | server m =>
      simp only [Heartbeat.process, Heartbeat.accept, Option.ite_none_left_eq_some,
        Option.map_eq_some_iff] at ha
      obtain ⟨-,sx,hs,rfl⟩ := ha
      exact hs
  inv_start _ := fun j hj => absurd hj List.not_mem_nil
  inv_act _ _ _ _ hj ha := pingsOthers_act hj ha
  inv_accept i x k src m y hj ha := by
    cases m with
    | ping =>
      simp only [Heartbeat.process, Heartbeat.accept, Option.ite_none_right_eq_some,
        Option.some.injEq] at ha
      obtain ⟨-,rfl⟩ := ha
      exact hj
    | server m =>
      simp only [Heartbeat.process, Heartbeat.accept, Option.ite_none_left_eq_some,
        Option.map_eq_some_iff] at ha
      obtain ⟨-,sx,hs,rfl⟩ := ha
      exact hj

/-! While `curRecoveryId` is taken, a recovery is there to give it back. -/

structure RecoveryBusy (node : Server.Node n) : Prop extends RecoveryThreads node where
  owned : node.curRecoveryId ≠ -1 → ∃ k st, AtStage node k st ∧ st.assigned = true

theorem RecoveryBusy.act {node : Server.Node n} (h : RecoveryBusy node)
    (ha : Server.act rank node a = some out) : RecoveryBusy out.state := by
  refine ⟨h.toRecoveryThreads.act ha,?_⟩
  intro hcur
  cases recoveryTurn_of_act h.toRecoveryThreads ha with
  | recovery k st after timedOut now ha' hat hstep hafter hothers hclient =>
    generalize hc : out.state.curRecoveryId = cur at hstep hcur
    generalize out.state.clientConnMutex = mutex at hstep
    cases hstep with
    | starts dst now' => exact ⟨k,.locking dst now',hafter,rfl⟩
    | locks dst id hfree => exact ⟨k,.reading dst id,hafter,rfl⟩
    | reads dst id => exact ⟨k,.sending dst id node.log,hafter,rfl⟩
    | sends dst id state => exact ⟨k,.clearing,hafter,rfl⟩
    | clears => exact absurd rfl hcur
    | unlocks =>
      obtain ⟨k',st',hat',hst'⟩ := h.owned hcur
      have hk : k' ≠ k := by
        rintro rfl
        rw [hat'.unique hat] at hst'
        simp [RecoveryStage.assigned] at hst'
      exact ⟨k',st',(hothers k' hk st').mpr hat',hst'⟩
  | detected dst ha' hidle hafter hothers hcur' hclient hmutex =>
    rw [hcur', hidle] at hcur
    exact absurd rfl hcur
  | other hsection hdetect hcalm hclient =>
    rw [hcalm.cur] at hcur
    obtain ⟨k,st,hat,hst⟩ := h.owned hcur
    exact ⟨k,st,(hcalm.kept k st).mpr hat,hst⟩

theorem RecoveryBusy.accept {node x : Server.Node n} (h : RecoveryBusy node)
    (ha : Server.accept rank node tag src m = some x) : RecoveryBusy x := by
  have hstill := unmoved_of_accept ha
  refine ⟨h.toRecoveryThreads.accept ha,?_⟩
  intro hcur
  rw [hstill.cur] at hcur
  obtain ⟨k,st,hat,hst⟩ := h.owned hcur
  exact ⟨k,st,(hstill.kept k st).mpr hat,hst⟩

theorem reach_recoveryBusy {s : Server.Cluster n} (hr : Server.Reach elected Machine.free s es)
    (i : Fin n) : RecoveryBusy (s.nodes i) := by
  suffices hall : (∀ i, RecoveryBusy (s.nodes i)) ∧ s.Carries (fun _ _ _ => True) from hall.1 i
  induction hr with
  | start =>
    refine ⟨fun i => ?_,fun _ _ _ _ _ => trivial⟩
    exact ⟨RecoveryThreads.start elected i,fun hcur => absurd rfl hcur⟩
  | step _ _ hs ih =>
    apply (LaneProcess.step_of_eq hs).keeps ih
    · exact fun i a out _ ho => ⟨(ih.1 i).act ho,fun _ _ _ => trivial⟩
    · exact fun k src i m x _ _ hx => (ih.1 i).accept hx

theorem heartbeat_recoveryBusy {s : Heartbeat.Cluster n} (hr : Heartbeat.Reach elected s es)
    (i : Fin n) : RecoveryBusy (s.nodes i).server := by
  obtain ⟨es',hr'⟩ := (heartbeat_projects elected).reach hr
  exact reach_recoveryBusy hr' i

/-! A pass of `checkTimeStamps` while every time stamp is fresh. -/

/-- Of the node's peers, all have been heard from in time. -/
def Fresh (rank : Fin n) (node : Heartbeat.Node n) (cur : Fin n → Int) : Prop :=
  ∀ j, j ≠ rank → Heartbeat.elapsed node j (cur j) < Heartbeat.timeoutDuration

/-- A thread of `handleNodeRecovery` among those spawned since there were `k₀`. -/
def Recovers (k₀ : Nat) (node : Heartbeat.Node n) : Prop :=
  ∃ k j, k₀ ≤ k ∧ k < node.server.spawned ∧ node.server.threads (.spawned k) = handleNodeRecovery j k

/-- What a pass keeps as long as it only finds peers heard from again. -/
structure Passing (rank : Fin n) (before node : Heartbeat.Node n) : Prop where
  stamps : node.timeStamps = before.timeStamps
  alive : node.server.isAlive = before.server.isAlive
  free : node.server.curRecoveryId = -1
  leader : node.server.leaderNodeId = some rank
  spawned : before.server.spawned ≤ node.server.spawned

theorem checkTimeStamp_fresh {node : Heartbeat.Node n}
    (hf : Heartbeat.elapsed node j cur < Heartbeat.timeoutDuration)
    (hcur : node.server.curRecoveryId = -1) (hl : node.server.leaderNodeId = some rank) :
    Heartbeat.checkTimeStamp rank node j cur =
      if node.server.isAlive j = true then node
      else { node with server := node.server.spawn (handleNodeRecovery j node.server.spawned) } := by
  unfold Heartbeat.checkTimeStamp
  rw [if_neg (by omega)]
  cases hj : node.server.isAlive j with
  | true => simp
  | false => simp [hf, hcur, hl]

theorem Passing.round {before node : Heartbeat.Node n} (h : Passing rank before node)
    (hf : Heartbeat.elapsed before j cur < Heartbeat.timeoutDuration) :
    Passing rank before (Heartbeat.checkTimeStamp rank node j cur) ∧
      (Recovers before.server.spawned node ∨ before.server.isAlive j = false →
        Recovers before.server.spawned (Heartbeat.checkTimeStamp rank node j cur)) := by
  have hf' : Heartbeat.elapsed node j cur < Heartbeat.timeoutDuration := by
    unfold Heartbeat.elapsed at hf ⊢
    rwa [h.stamps]
  rw [checkTimeStamp_fresh hf' h.free h.leader, h.alive]
  have hspawned := h.spawned
  split
  · rename_i halive
    refine ⟨h,?_⟩
    rintro (hrec | hdead)
    · exact hrec
    · simp [halive] at hdead
  · refine ⟨⟨h.stamps,h.alive,h.free,h.leader,?_⟩,?_⟩
    · simp only [Server.Node.spawn]
      omega
    · intro _
      refine ⟨node.server.spawned,j,hspawned,?_,?_⟩
      · simp [Server.Node.spawn]
      · simp [Server.Node.spawn, Server.Node.setThread]

theorem Passing.rounds {before node : Heartbeat.Node n} {cur : Fin n → Int} {js : List (Fin n)}
    (h : Passing rank before node)
    (hf : ∀ j ∈ js, Heartbeat.elapsed before j (cur j) < Heartbeat.timeoutDuration)
    (hdead : Recovers before.server.spawned node ∨ ∃ j ∈ js, before.server.isAlive j = false) :
    Recovers before.server.spawned
      (js.foldl (fun node j => Heartbeat.checkTimeStamp rank node j (cur j)) node) := by
  induction js generalizing node with
  | nil =>
    rcases hdead with hrec | ⟨j,hj,-⟩
    · exact hrec
    · contradiction
  | cons j js ih =>
    obtain ⟨hnext,hfound⟩ := h.round (hf j List.mem_cons_self)
    refine ih hnext (fun j' hj' => hf j' (List.mem_cons_of_mem _ hj')) ?_
    rcases hdead with hrec | ⟨j',hj',hdead⟩
    · exact .inl (hfound (.inl hrec))
    · rcases List.mem_cons.mp hj' with rfl | hj'
      · exact .inl (hfound (.inr hdead))
      · exact .inr ⟨j',hj',hdead⟩

/-- Nobody is dead for the node, and all have been heard from: the pass does nothing. -/
theorem checkTimeStamps_alive {node : Heartbeat.Node n} (hf : Fresh rank node cur)
    (halive : ∀ j, j ≠ rank → node.server.isAlive j = true) :
    Heartbeat.checkTimeStamps rank node cur = node := by
  unfold Heartbeat.checkTimeStamps
  have hall : ∀ j ∈ others rank, j ≠ rank := fun j hj => mem_others.mp hj
  generalize others rank = js at hall
  induction js with
  | nil => rfl
  | cons j js ih =>
    have hj := hall j List.mem_cons_self
    have hround : Heartbeat.checkTimeStamp rank node j (cur j) = node := by
      have hlt := hf j hj
      unfold Heartbeat.checkTimeStamp
      rw [if_neg (by omega), if_neg (by simp [halive j hj])]
    rw [List.foldl_cons, hround]
    exact ih (fun j' hj' => hall j' (List.mem_cons_of_mem _ hj'))

/-! The cluster at rest. -/

/-- The sections of the threads that `checkTimeStamps` starts. -/
def detectorSection : Op n → Bool
  | .setIsAlive _ false | .setNodeStatus _ false _ | .electIfLeader _ => true
  | op => recoverySection op

/-- All nodes agree on the leader `L` and have heard from each other in time, and nothing
is under way for a failure or a recovery. `now` is what each node reads off its clock for
each peer. -/
structure AtRest (L : Fin n) (now : Fin n → Fin n → Int) (s : Heartbeat.Cluster n) : Prop where
  leader : ∀ i, (s.nodes i).server.leaderNodeId = some L
  quiet : ∀ i j, ∀ m ∈ s.chan .failureDetection i j, m = .ping
  idle : ∀ i k, ∀ op ∈ (s.nodes i).server.threads (.spawned k), detectorSection op = false
  fresh : ∀ i, Fresh i (s.nodes i) (now i)

/-- The node's next pass of `checkTimeStamps` starts a recovery. -/
def StartsRecovery (rank : Fin n) (node : Heartbeat.Node n) (cur : Fin n → Int) : Prop :=
  Recovers node.server.spawned (Heartbeat.checkTimeStamps rank node cur)

theorem AtRest.free {s : Heartbeat.Cluster n} (h : AtRest L now s)
    (hb : RecoveryBusy (s.nodes i).server) : (s.nodes i).server.curRecoveryId = -1 := by
  by_contra hcur
  obtain ⟨k,st,hat,-⟩ := hb.owned hcur
  obtain ⟨op,hop⟩ := List.exists_mem_of_ne_nil _ (sections_ne_nil k st)
  have hrec := sections_recovery k st op hop
  have hidle := h.idle i k op (by rwa [show _ = st.sections k from hat])
  unfold detectorSection at hidle
  split at hidle <;> simp_all

/-- A settled leader starts a recovery or has no other node marked dead. -/
theorem leader_heals_its_suspicions {L : Fin n} {s : Heartbeat.Cluster n}
    (hr : Heartbeat.Reach elected s es) (hs : AtRest L now s) :
    StartsRecovery L (s.nodes L) (now L) ∨
      ∀ j, j ≠ L → (s.nodes L).server.isAlive j = true := by
  by_cases halive : ∀ j, j ≠ L → (s.nodes L).server.isAlive j = true
  · exact .inr halive
  · left
    simp only [ne_eq, not_forall, Bool.not_eq_true] at halive
    obtain ⟨j,hj,hdead⟩ := halive
    have hfree := hs.free (heartbeat_recoveryBusy hr L)
    have hpass : Passing L (s.nodes L) (s.nodes L) := ⟨rfl,rfl,hfree,hs.leader L,Nat.le_refl _⟩
    refine hpass.rounds ?_ (.inr ⟨j,mem_others.mpr hj,hdead⟩)
    intro j' hj'
    exact hs.fresh L j' (mem_others.mp hj')

/-! Runs with one suspicion. -/

theorem resting_threads {node : Server.Node n} (hu : Unborn node) (h : resting node = true)
    (k : Nat) : node.threads (.spawned k) = [] := by
  simp only [resting, Bool.and_eq_true, List.all_eq_true, List.mem_range, List.isEmpty_iff] at h
  by_cases hk : k < node.spawned
  · exact h.2 k hk
  · exact hu k (Nat.le_of_not_lt hk)

/-- What `AtRest` asks for, with one clock reading and nothing left to run at all. -/
def restsAt (L : Fin n) (now : Int) (s : Heartbeat.Cluster n) : Bool :=
  (List.finRange n).all (fun i =>
    (s.nodes i).server.leaderNodeId == some L && resting (s.nodes i).server &&
    (List.finRange n).all (fun j =>
      (s.chan .failureDetection i j).all (· == .ping) &&
      (j == i || decide (Heartbeat.elapsed (s.nodes i) j now < Heartbeat.timeoutDuration))))

theorem atRest_of_restsAt {s : Heartbeat.Cluster n} (hr : Heartbeat.Reach elected s es)
    (h : restsAt L now s = true) : AtRest L (fun _ _ => now) s := by
  simp only [restsAt, List.all_eq_true, List.mem_finRange, forall_const, Bool.and_eq_true,
    beq_iff_eq, Bool.or_eq_true, decide_eq_true_eq] at h
  constructor
  · exact fun i => (h i).1.1
  · exact fun i j => ((h i).2 j).1
  · intro i k op hop
    have hrest := resting_threads (heartbeat_recoveryBusy hr i).unborn (h i).1.2 k
    simp [hrest] at hop
  · exact fun i j hj => ((h i).2 j).2.resolve_left hj

/-- Node `i` hears from `k` and not from `j` for two seconds, and marks `j` dead. Then all
PING messages arrive. -/
def suspects (i j k : Fin 3) : List (Heartbeat.Move 3) :=
  let now := 2000000000
  Heartbeat.Move.round j 0 ++ Heartbeat.Move.round k 0 ++ Heartbeat.Move.ping k i now ++
  Heartbeat.Move.round i now ++ Heartbeat.Move.sections i (.spawned 0) 3 ++
  Heartbeat.Move.ping j i now ++ Heartbeat.Move.ping i j now ++ Heartbeat.Move.ping k j now ++
  Heartbeat.Move.ping i k now ++ Heartbeat.Move.ping j k now

def afterSuspicion (L i j : Fin n) (r : Heartbeat.Cluster n × Server.History n) :
    Bool × Bool × Bool :=
  (restsAt L 2000000000 r.1,(r.1.nodes i).server.isAlive j,
    ((List.finRange n).filter (· != L)).all (r.1.nodes L).server.isAlive)

theorem leader_suspects : ((Heartbeat.process (some (2 : Fin 3))).network.follow (fun _ _ _ => true)
    (suspects 2 0 1) (Heartbeat.process (some 2)).network.start []).map (afterSuspicion 2 2 0) =
      some (true,false,false) := by
  decide

theorem follower_suspects : ((Heartbeat.process (some (2 : Fin 3))).network.follow (fun _ _ _ => true)
    (suspects 0 1 2) (Heartbeat.process (some 2)).network.start []).map (afterSuspicion 2 0 1) =
      some (true,false,true) := by
  decide

theorem leader_heals_its_suspicions_leaderSuspects : ∃ (s : Heartbeat.Cluster 3) (es : Server.History 3),
    Heartbeat.Reach (some 2) s es ∧ AtRest 2 (fun _ _ => 2000000000) s ∧
    (s.nodes 2).server.isAlive 0 = false ∧ StartsRecovery 2 (s.nodes 2) (fun _ => 2000000000) := by
  obtain ⟨s,es,hr,h⟩ := Machine.exists_reach (fun _ _ _ _ => trivial) leader_suspects
  simp only [afterSuspicion, Prod.mk.injEq] at h
  obtain ⟨hrest,hdead,-⟩ := h
  have hs := atRest_of_restsAt hr hrest
  refine ⟨s,es,hr,hs,hdead,?_⟩
  rcases leader_heals_its_suspicions hr hs with hstarts | halive
  · exact hstarts
  · simp [halive 0 (by decide)] at hdead

/-- All is settled, node 0 has node 1 marked dead, and the leader starts no recovery. -/
theorem suspicion_not_healed : ∃ (s : Heartbeat.Cluster 3) (es : Server.History 3),
    Heartbeat.Reach (some 2) s es ∧ AtRest 2 (fun _ _ => 2000000000) s ∧
    (s.nodes 0).server.isAlive 1 = false ∧
    ¬ StartsRecovery 2 (s.nodes 2) (fun _ => 2000000000) := by
  obtain ⟨s,es,hr,h⟩ := Machine.exists_reach (fun _ _ _ _ => trivial) follower_suspects
  simp only [afterSuspicion, Prod.mk.injEq, List.all_eq_true, List.mem_filter, List.mem_finRange,
    true_and, bne_iff_ne] at h
  obtain ⟨hrest,hdead,halive⟩ := h
  have hs := atRest_of_restsAt hr hrest
  refine ⟨s,es,hr,hs,hdead,?_⟩
  unfold StartsRecovery
  rw [checkTimeStamps_alive (hs.fresh 2) halive]
  rintro ⟨k,j,hk,hk',-⟩
  omega

end Algorep.Proofs
