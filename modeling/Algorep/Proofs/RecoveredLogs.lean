import Algorep.Proofs.Replication

namespace Algorep.Proofs
open Kit Program Program.Server

/-- A STATE of a recovery that has the client manager locked out is handled only with no
ACCEPTED waiting, any other STATE only by a node its leader still has marked dead; and
a peer is marked alive only while the recovery it answers has the client manager
locked out. -/
def restores (L : Fin n) (s : Server.Cluster n) (l : Server.Move n) : Bool :=
  match sectionOf s l with
  | some (.handleMessage _ (.state _ k _)) =>
    if (s.nodes L).clientConnMutex = some (.recovery k) then
      (waitingAt (s.nodes (mover l)) (s.chan .consensus L (mover l))).isEmpty
    else !(s.nodes L).processIsAlive (mover l)
  | some (.setNodeStatus _ true (some k)) =>
    decide ((s.nodes (mover l)).clientConnMutex = some (.recovery k))
  | _ => true

def recovers (L : Fin n) (s : Server.Cluster n) (l : Server.Move n) : Bool :=
  fixedLeader L l && restores L s l

theorem sectionOf_run {s : Server.Cluster n} (h : (s.nodes i).threads t = op::rest) :
    sectionOf s (.act i (.run t timedOut now)) = some op := by
  simp [sectionOf, h]

/-- The recoveries that a copy shows have sent their STATE. -/
theorem Steady.knowsSpent {s : Server.Cluster n} (h : Steady L s) (hj : j ≠ L) :
    KnowsSpent (Spent (s.nodes L)) (copyAt L j s) := by
  have hfollower := (h.followers j hj).runs .failureReceiver
  constructor
  · intro p hp
    rcases List.mem_append.mp hp with hp | hp
    · obtain ⟨op,hop,ho⟩ := List.mem_filterMap.mp hp
      cases hfollower op hop with
      | install id k state hk =>
        cases ho
        exact hk
      | _ => simp [snapshotOf, snapshotIn] at ho
    · obtain ⟨m,hm,ho⟩ := List.mem_filterMap.mp hp
      cases h.travels _ _ _ m hm with
      | state _ id k state hd hk =>
        cases ho
        exact hk
      | _ => simp [snapshotIn] at ho
  · intro k hk
    rcases hk with hk | hk | hk
    · obtain ⟨op,hop,ho⟩ := List.mem_filterMap.mp hk
      cases hfollower op hop with
      | answer id k hk =>
        cases ho
        exact hk
      | _ => simp [answerOf] at ho
    · obtain ⟨m,hm,ho⟩ := List.mem_filterMap.mp hk
      cases h.travels _ _ _ m hm with
      | stateUpdated _ id k hs hk =>
        cases ho
        exact hk
      | _ => simp [answerIn] at ho
    · obtain ⟨op,hop,ho⟩ := List.mem_filterMap.mp hk
      cases h.leader.runs .failureReceiver op hop with
      | check src id k hs hk =>
        simp only [answeredBy, answerIn, Option.ite_none_right_eq_some, Option.some.injEq] at ho
        exact ho.2 ▸ hk
      | decide src b k hs hk =>
        simp only [answeredBy, Option.ite_none_right_eq_some, Option.some.injEq] at ho
        exact ho.2 ▸ hk
      | relink nodeId k hj' hk =>
        simp only [answeredBy, Option.ite_none_right_eq_some, Option.some.injEq] at ho
        exact ho.2 ▸ hk
      | _ => simp [answeredBy] at ho

theorem act_copies {s : Server.Cluster n} (hs : Steady L s)
    (hg : recovers L s (.act i a) = true) (hj : j ≠ L)
    (ho : Server.act i (s.nodes i) a = some out) :
    Copies (copyAt L j s) (copyAt L j (s.commit Message.tag i out)) := by
  simp only [recovers, Bool.and_eq_true] at hg
  obtain ⟨hfixed,hrestores⟩ := hg
  unfold copyAt
  by_cases hi : i = L
  · subst hi
    rw [LaneNet.commit_self, LaneNet.commit_other _ _ _ hj, LaneNet.commit_chan_self,
      LaneNet.commit_chan_self, LaneNet.commit_chan_other _ _ _ _ _ hj]
    refine (leader_acts hs.leader hfixed ho).copies hs.leader hj ?_ (hs.knowsSpent hj)
    intro timedOut now nodeId k rest ha ht
    subst ha
    simp only [restores, sectionOf_run ht, mover] at hrestores
    exact of_decide_eq_true hrestores
  · have hL : L ≠ i := fun he => hi he.symm
    rw [LaneNet.commit_other _ _ _ hL, LaneNet.commit_chan_other _ _ _ _ _ hL,
      LaneNet.commit_chan_other _ _ _ _ _ hL]
    by_cases hji : j = i
    · subst hji
      rw [LaneNet.commit_self, LaneNet.commit_chan_self]
      refine (follower_acts (hs.followers j hj) hj hfixed ho).copies ?_
      intro timedOut now id k state rest ha ht
      subst ha
      simp only [restores, sectionOf_run ht, mover] at hrestores
      rw [ne_eq, lockHolder_iff]
      constructor
      · intro hm
        simpa [hm] using hrestores
      · intro hm
        simpa [hm] using hrestores
    · rw [LaneNet.commit_other _ _ _ hji, LaneNet.commit_chan_other _ _ _ _ _ hji]

theorem failure_kept (node : Server.Node n) (rank src : Fin n) :
    node.dropsFrom rank src .failureDetection = false := by
  simp [Server.Node.dropsFrom, messageShouldDrop]

theorem linked_kept {node : Server.Node n} (h : node.processIsAlive src = true) (rank : Fin n)
    (tag : MessageTag) : node.dropsFrom rank src tag = false := by
  simp [Server.Node.dropsFrom, messageShouldDrop, h]

/-- A message taken by the leader moves from a channel to a thread. -/
theorem leader_takes {s : Server.Cluster n} (hj : j ≠ L) (hc : s.chan k src L = m::rest)
    (ha : Accepts L (s.nodes L) k src m x) :
    Copies (copyAt L j s) (copyAt L j (s.take k src L rest x)) := by
  unfold copyAt
  rw [LaneNet.take_self, LaneNet.take_other _ _ _ _ _ hj, LaneNet.take_chan, LaneNet.take_chan,
    LaneNet.take_chan, if_neg (fun hc => hj hc.2.2), if_neg (fun hc => hj hc.2.2)]
  cases ha with
  | dropped _ _ _ hd =>
    have hk : k ≠ .failureDetection := by
      rintro rfl
      rw [failure_kept] at hd
      contradiction
    rw [if_neg (fun hc => hk hc.1.symm)]
  | consensus _ packet hr hb =>
    rw [if_neg (fun hc => by simp at hc)]
    exact leader_same rfl rfl rfl rfl rfl rfl rfl
  | election =>
    rw [if_neg (fun hc => by simp at hc)]
    exact leader_thread rfl rfl rfl rfl rfl rfl (by simp)
  | failure _ _ ht =>
    by_cases hsrc : j = src
    · subst hsrc
      rw [if_pos ⟨rfl,rfl,rfl⟩]
      refine .of_eq (Replica.ext rfl rfl rfl rfl rfl rfl rfl ?_)
      ext k'
      have hop : answeredBy j (.handleMessage j m) = answerIn m := by simp [answeredBy]
      simp only [replica, hc, ht, Server.Node.setThread_self, Set.mem_ofPred_eq, List.mem_filterMap,
        List.mem_cons, List.not_mem_nil, or_false, exists_eq_or_imp, exists_eq_left, hop,
        false_and, exists_false]
      exact or_congr_right or_comm
    · rw [if_neg (fun hc => hsrc hc.2.1)]
      refine leader_thread rfl rfl rfl rfl rfl rfl ?_
      intro _
      rw [ht, List.filterMap_cons_none (by simp [answeredBy, Ne.symm hsrc])]

/-- A message taken by the follower moves from a channel to a thread. -/
theorem follower_takes {s : Server.Cluster n} (hs : Steady L s) (hj : j ≠ L)
    (hc : s.chan k src j = m::rest) (ha : Accepts j (s.nodes j) k src m x) :
    Copies (copyAt L j s) (copyAt L j (s.take k src j rest x)) := by
  have hm := hs.travels k src j m (hc ▸ List.mem_cons_self)
  have htag : m.tag = k := hs.lanes k src j m (hc ▸ List.mem_cons_self)
  have hback : ¬(MessageTag.failureDetection = k ∧ j = src ∧ L = j) := fun hc => hj hc.2.2.symm
  unfold copyAt
  rw [LaneNet.take_self, LaneNet.take_other _ _ _ _ _ (Ne.symm hj), LaneNet.take_chan,
    LaneNet.take_chan, LaneNet.take_chan, if_neg hback]
  cases ha with
  | dropped _ _ _ hd =>
    have hk : k ≠ .failureDetection := by
      rintro rfl
      rw [failure_kept] at hd
      contradiction
    have hsrc : L ≠ src := by
      rintro rfl
      rw [linked_kept (hs.followers j hj).linked] at hd
      contradiction
    rw [if_neg (fun hc => hsrc hc.2.1), if_neg (fun hc => hk hc.1.symm)]
  | consensus _ packet hr hb =>
    refine follower_same rfl ?_ rfl rfl
    by_cases hsrc : L = src
    · subst hsrc
      cases hv : acceptedValue packet.message <;> simp [waitingAt, hr, hc, hv, taughtBy]
    · have hnone : acceptedValue packet.message = none := by
        cases hm with
        | taught => exact absurd rfl hsrc
        | consensus _ _ _ hp => exact hp
      simp [waitingAt, hr, hsrc, hnone]
  | election => exact follower_same rfl rfl rfl rfl
  | failure _ _ ht =>
    rw [if_neg (fun hc => by simp at hc)]
    have hsrc : L = src := by
      cases hm with
      | stateUpdated => exact absurd rfl hj
      | consensus | taught | victory => simp [Message.tag] at htag
      | state | recovered => rfl
    subst hsrc
    rw [if_pos ⟨rfl,rfl,rfl⟩]
    refine .of_eq (Replica.ext rfl rfl rfl rfl rfl rfl ?_ ?_)
    · have hop : snapshotOf (.handleMessage L m) = snapshotIn m := rfl
      cases ho : snapshotIn m with
      | none => simp [replica, ht, hc, ho, hop]
      | some p => simp [replica, ht, hc, ho, hop]
    · ext k'
      simp [replica, ht, answerOf]

theorem step_copies {s : Server.Cluster n} (hs : Steady L s) (hg : recovers L s l = true)
    (h : (process (some L)).Step s l t e) (hj : j ≠ L) : Copies (copyAt L j s) (copyAt L j t) := by
  cases h with
  | act i a out ho => exact act_copies hs hg hj ho
  | receive k src dst m rest x hc hx =>
    by_cases hd : dst = L
    · subst hd
      exact leader_takes hj hc (accepts_of_accept hx)
    · by_cases hdj : dst = j
      · subst hdj
        exact follower_takes hs hj hc (accepts_of_accept hx)
      · unfold copyAt
        rw [LaneNet.take_other _ _ _ _ _ (Ne.symm hd), LaneNet.take_other _ _ _ _ _ (Ne.symm hdj),
          LaneNet.take_chan, LaneNet.take_chan, LaneNet.take_chan,
          if_neg (fun hc => hdj hc.2.2.symm), if_neg (fun hc => hdj hc.2.2.symm),
          if_neg (fun hc => hd hc.2.2.symm)]

theorem reach_steady {s : Server.Cluster n}
    (hr : Server.Reach (some L) (fun _ s l => recovers L s l = true) s es) :
    Steady L s ∧ ∀ j, j ≠ L → (copyAt L j s).Synced := by
  induction hr with
  | start =>
    refine ⟨start_steady L,?_⟩
    intro j hj
    refine ⟨fun _ => rfl,fun _ _ => rfl,?_,?_⟩
    · intro k state hh
      simp [copyAt, replica, process, LaneProcess.network, initialNode, lockHolder] at hh
    · intro k hh
      simp [copyAt, replica, process, LaneProcess.network, initialNode, lockHolder] at hh
  | step hr hok hs ih =>
    obtain ⟨hsteady,hsynced⟩ := ih
    have hstep := LaneProcess.step_of_eq hs
    refine ⟨step_steady hsteady (Bool.and_eq_true_iff.mp hok).1 hstep,?_⟩
    intro j hj
    exact (hsynced j hj).steps (step_copies hsteady hok hstep hj)

/-- No message is in flight or queued, no round and no recovery is in progress, and
`L` has every node marked alive. -/
def quiescent (L : Fin n) (s : Server.Cluster n) : Bool :=
  silent [.consensus,.leaderElection,.failureDetection] s &&
  (List.finRange n).all (fun i => resting (s.nodes i) &&
    (s.nodes i).consensus.thread == .idle && !(s.nodes i).consensus.resetting &&
    (s.nodes L).processIsAlive i && (s.nodes L).isAlive i)

/-- With one leader and recoveries that restore, every quiet cluster has one log. -/
theorem recovered_log (L : Fin n) (s : Server.Cluster n) (es : Server.History n)
    (hr : Server.Reach (some L) (fun _ s l => recovers L s l = true) s es)
    (hq : quiescent L s = true) (i : Fin n) : (s.nodes i).log = (s.nodes L).log := by
  obtain ⟨-,hsynced⟩ := reach_steady hr
  by_cases hi : i = L
  · rw [hi]
  · obtain ⟨hsilent,hnodes⟩ := Bool.and_eq_true_iff.mp hq
    have hat : ∀ j, _ := fun j => List.all_eq_true.mp hnodes j (List.mem_finRange j)
    simp only [resting, Bool.and_eq_true, Option.isNone_iff_eq_none, beq_iff_eq] at hat
    have hchan : s.chan .consensus L i = [] := silent_chan hsilent (by simp) L i
    refine (hsynced i hi).settled (hat i).1.2 ?_ ?_
    · simp [copyAt, replica, waitingAt, (hat i).1.1.1.1.1.1, hchan]
    · simp [copyAt, replica, (hat L).1.1.1.2, unsentTo]

/-- The log of each node, and whether the cluster is quiet. -/
def settledLogs (L : Fin n) (r : Server.Cluster n × Server.History n) : Bool × List (List String) :=
  (quiescent L r.1,(List.finRange n).map (fun i => (r.1.nodes i).log))

/-- `q` leads and replicates "v" while `p` is marked dead, and then recovers `p`. -/
def caughtUp (p q : Fin n) : List (Server.Move n) :=
  Move.marksDead q p 0 ++ Move.request q "v" 10 ++ Move.proceeds q 10 10 ++
  [.act q .reply,.act q .disconnect] ++ Move.sendsState q p 1 20 ++ Move.failure q p 2 ++
  Move.failure p q 6 ++ Move.sections q (.spawned 1) 2 20 ++ Move.failure q p 1 ++
  Move.election q p

theorem caughtUp_end : Server.outcome (n := 2) (some 1) (fun _ s l => recovers 1 s l)
    (caughtUp 0 1) (settledLogs 1) = some (true,[["v"],["v"]]) := by
  decide

theorem recovered_log_caughtUp : ∃ (s : Server.Cluster 2) (es : Server.History 2),
    Server.Reach (some 1) (fun _ s l => recovers 1 s l = true) s es ∧ quiescent 1 s = true ∧
    (s.nodes 1).log = ["v"] ∧ (s.nodes 0).log = (s.nodes 1).log := by
  obtain ⟨s,es,hr,h⟩ := Machine.exists_reach (fun _ _ _ h => h) caughtUp_end
  simp only [settledLogs, List.finRange, List.ofFn, Prod.mk.injEq, Fin.foldr_succ,
    Fin.foldr_zero, List.map_cons, List.cons.injEq] at h
  exact ⟨s,es,hr,h.1,h.2.2.1,recovered_log 1 s es hr h.1 0⟩

/-- `p` handles the STATE of its recovery first, and then the ACCEPTED that has been
waiting in its other channel. -/
def learnedTwice (p q : Fin n) : List (Server.Move n) :=
  Move.request q "v" 10 ++ Move.proceeds q 10 10 ++ [.act q .reply,.act q .disconnect] ++
  Move.marksDead q p 0 ++ Move.sendsState q p 1 20 ++ Move.failure q p 2 ++
  Move.failure p q 6 ++ Move.sections q (.spawned 1) 2 20 ++ Move.failure q p 1 ++
  Move.election q p ++
  Move.consensus q p 30 ++ Move.consensus p q 30 ++ Move.consensus q p 30 ++
  Move.consensus p q 30 ++ Move.consensus q p 30 ++ [.act p .resetContext]

theorem learnedTwice_end : Server.outcome (n := 2) (some 1) (fun _ _ l => fixedLeader 1 l)
    (learnedTwice 0 1) (settledLogs 1) = some (true,[["v","v"],["v"]]) := by
  decide

/-- An ACCEPTED that waits while a STATE overtakes it is appended to a log that has
its value already. -/
theorem recovered_log_repeats : ∃ (s : Server.Cluster 2) (es : Server.History 2),
    Server.Reach (some 1) (fun _ _ l => fixedLeader 1 l = true) s es ∧ quiescent 1 s = true ∧
    (s.nodes 0).log = ["v","v"] ∧ (s.nodes 1).log = ["v"] := by
  obtain ⟨s,es,hr,h⟩ := Machine.exists_reach (fun _ _ _ h => h) learnedTwice_end
  simp only [settledLogs, List.finRange, List.ofFn, Prod.mk.injEq, Fin.foldr_succ,
    Fin.foldr_zero, List.map_cons, List.cons.injEq] at h
  exact ⟨s,es,hr,h.1,h.2.1,h.2.2.1⟩

end Algorep.Proofs
