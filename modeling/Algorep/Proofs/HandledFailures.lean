import Algorep.Proofs.LivenessTables
import Algorep.Proofs.Suspicions
import Mathlib.Algebra.GroupWithZero.Nat

namespace Algorep.Proofs
open Kit Program Program.Server

/-- A run of servers with heartbeats as its moves, each with the state it was made in. -/
abbrev BeatTrace (n : Nat) := List (Heartbeat.Cluster n × Heartbeat.Move n)

abbrev BeatReach (elected : Option (Fin n))
    (ok : BeatTrace n → Heartbeat.Cluster n → Heartbeat.Move n → Prop) :
    Heartbeat.Cluster n → BeatTrace n → Prop :=
  (Heartbeat.process elected).network.traced.Reach ok

/-! What the moves of a node do about one of its peers. -/

/-- What node `i` does in a move, if the move is its own. -/
def actionAt (i : Fin n) : Heartbeat.Move n → Option (Heartbeat.Action n)
  | .act k a => if k = i then some a else none
  | .receive _ _ _ => none

/-- A round of `checkTimeStamps` spawns `handleNodeFailure` for the peer. -/
def takesForDead (node : Heartbeat.Node n) (j : Fin n) : Heartbeat.Action n → Bool
  | .pingCheck cur => node.pingThread.head? == some (.checkTimeStamp j) &&
      node.server.isAlive j && decide (Heartbeat.elapsed node j cur > Heartbeat.timeoutDuration)
  | _ => false

/-- The section of a server's thread that is run. -/
def beatSection (node : Heartbeat.Node n) : Heartbeat.Action n → Option (Op n)
  | .server a _ => sectionAt node.server a
  | _ => none

/-- `isAlive` becomes true for the peer. -/
def revives (node : Heartbeat.Node n) (j : Fin n) (a : Heartbeat.Action n) : Bool :=
  beatSection node a == some (.setIsAlive j true) && !node.server.isAlive j

/-- The thread of a `handleNodeFailure` for the peer finds that it was the leader, and starts
an election. -/
def startsElection (node : Heartbeat.Node n) (j : Fin n) (t : ThreadId) :
    Heartbeat.Action n → Bool
  | .server (.run t' _ _) _ => t' == t &&
      (node.server.threads t).head? == some (.electIfLeader j) &&
      node.server.leaderNodeId == some j
  | _ => false

/-- The threads of `handleNodeFailure` that have been spawned for the peer since `isAlive` last
became true for it. -/
def threadsAfter (node : Heartbeat.Node n) (j : Fin n) (ks : List Nat) :
    Option (Heartbeat.Action n) → List Nat
  | none => ks
  | some a =>
    if revives node j a then []
    else if takesForDead node j a then ks ++ [node.server.spawned] else ks

def failureThreads (i j : Fin n) (es : BeatTrace n) : List Nat :=
  es.foldl (fun ks e => threadsAfter (e.1.nodes i) j ks (actionAt i e.2)) []

/-- The elections that one thread has started. -/
def electionsBy (i j : Fin n) (t : ThreadId) (es : BeatTrace n) : Nat :=
  es.countP (fun e => (actionAt i e.2).any (startsElection (e.1.nodes i) j t))

/-- A thread has yet to clear `isAlive` for the peer. -/
def yetToClear (node : Server.Node n) (j : Fin n) : Bool :=
  (threadsOf node).any (fun t => (node.threads t).contains (.setIsAlive j false))

/-- Node `i` takes the peer for dead only once every earlier thread has cleared `isAlive`. -/
def clearedFirst (i j : Fin n) (s : Heartbeat.Cluster n) (l : Heartbeat.Move n) : Bool :=
  !(actionAt i l).any (takesForDead (s.nodes i) j) || !yetToClear (s.nodes i).server j

/-! Where the sections of `handleNodeFailure` come from. -/

/-- The sections of a failure thread for the peer that no other thread has. -/
def ofFailure (j : Fin n) : Op n → Bool
  | .setIsAlive k false | .electIfLeader k => k == j
  | _ => false

theorem continues_not_ofFailure {node : Server.Node n} (h : Continues rank node op x) (j : Fin n) :
    ofFailure j x = false := by
  cases h with
  | answered src hx | again hl hx => rcases mem_broadcastElection hx with rfl | ⟨k,rfl⟩ <;> rfl
  | declared hl hx =>
    rcases List.mem_append.mp hx with hx | hx
    · rcases mem_declareVictory hx with ⟨k,rfl⟩ | rfl <;> rfl
    · rw [List.mem_singleton.mp hx]
      rfl
  | installed | updated | read => rfl
  | recovered src nodeId hx => rcases mem_enableComm hx with rfl | rfl <;> rfl
  | recovering dst id k hx => rcases mem_pausedRecovery hx with rfl | rfl | rfl | rfl <;> rfl
  | checked src b k hx =>
    rcases mem_updateChecked hx with ⟨k,-,rfl⟩ | hx | rfl
    · rfl
    · rcases mem_enableComm hx with rfl | rfl <;> rfl
    · rfl

theorem newThread_not_ofFailure {node : Server.Node n} (hn : newThread rank node a = some ops)
    (ha : a ≠ .detectFailure j) : ∀ x ∈ ops, ofFailure j x = false := by
  intro x hx
  rcases newThread_cases hn with rfl | rfl | ⟨k,rfl,rfl⟩ | ⟨k,-,rfl⟩
  · simp only [aliveWait, List.mem_cons, List.not_mem_nil, or_false] at hx
    rcases hx with rfl | rfl | rfl <;> rfl
  · cases triggerElection_opening hx with
    | mark | cut | elect => simp [triggerElection, broadcastElection] at hx
    | _ => rfl
  · have hk : k ≠ j := by
      rintro rfl
      exact ha rfl
    simp only [handleNodeFailure, List.mem_cons, List.not_mem_nil, or_false] at hx
    rcases hx with rfl | rfl | rfl <;> simp [ofFailure, hk]
  · rw [List.mem_singleton.mp hx]
    rfl

/-- Such a section is not new unless the peer is taken for dead. -/
theorem Turned.ofFailure_came {node : Server.Node n} (h : Turned rank node a out)
    (ha : a ≠ .detectFailure j) (hx : x ∈ out.state.threads t) (hof : ofFailure j x = true) :
    x ∈ node.threads t := by
  rcases h.came hx with hold | ⟨timedOut,now,op,-,-,hcont⟩ | ⟨ops,-,hn,hx⟩
  · exact hold
  · rw [continues_not_ofFailure hcont] at hof
    contradiction
  · rw [newThread_not_ofFailure hn ha x hx] at hof
    contradiction

/-! The threads that handle one loss of a peer. -/

/-- `ks` are the threads spawned since the peer was last revived. While it is alive they all
have yet to clear `isAlive`, which nobody else is about to do. -/
structure LossOk (node : Server.Node n) (j : Fin n) (ks : List Nat) : Prop where
  unborn : Unborn node
  few : ks.length ≤ 1
  clearing : ∀ t, .setIsAlive j false ∈ node.threads t →
    node.threads t = handleNodeFailure j ∧ ∃ k ∈ ks, t = .spawned k
  alive : node.isAlive j = true → ∀ k ∈ ks, node.threads (.spawned k) = handleNodeFailure j
  cleared : node.isAlive j = false → ∀ t, .setIsAlive j false ∉ node.threads t

theorem LossOk.start (elected : Option (Fin n)) (i j : Fin n) :
    LossOk (initialNode elected i) j [] := by
  refine ⟨fun _ _ => rfl,Nat.zero_le _,fun t ht => ?_,fun _ k hk => ?_,fun _ t ht => ?_⟩
  · exact absurd ht List.not_mem_nil
  · exact absurd hk List.not_mem_nil
  · exact absurd ht List.not_mem_nil

theorem yetToClear_eq_false {node : Server.Node n} (hu : Unborn node) :
    yetToClear node j = false ↔ ∀ t, .setIsAlive j false ∉ node.threads t := by
  simp only [yetToClear, List.any_eq_false, List.contains_iff_mem]
  constructor
  · intro h t ht
    exact h t (mem_threadsOf hu ht) ht
  · exact fun h t _ => h t

/-- The threads of one loss are one thread at most, and none while everybody has cleared
`isAlive` of a peer that is alive. -/
theorem LossOk.none_spawned {node : Server.Node n} (h : LossOk node j ks)
    (halive : node.isAlive j = true) (hclear : ∀ t, .setIsAlive j false ∉ node.threads t) : ks = [] := by
  cases ks with
  | nil => rfl
  | cons k ks =>
    have hthread := h.alive halive k List.mem_cons_self
    exact absurd (by simp [hthread, handleNodeFailure]) (hclear (.spawned k))

/-- A peer that is alive is taken for dead, everybody having cleared `isAlive`. -/
theorem LossOk.detected {node : Server.Node n} (h : LossOk node j ks)
    (halive : node.isAlive j = true) (hclear : ∀ t, .setIsAlive j false ∉ node.threads t) :
    LossOk (node.spawn (handleNodeFailure j)) j (ks ++ [node.spawned]) := by
  have hnone := h.none_spawned halive hclear
  subst hnone
  have hthread : ∀ t, (node.spawn (handleNodeFailure j)).threads t =
      if t = .spawned node.spawned then handleNodeFailure j else node.threads t :=
    update_thread node (.spawned node.spawned) (handleNodeFailure j)
  refine ⟨?_,Nat.le_refl _,?_,?_,?_⟩
  · intro k hk
    have hk' : node.spawned + 1 ≤ k := hk
    rw [hthread, if_neg (by simp; omega)]
    exact h.unborn k (by omega)
  · intro t ht
    rw [hthread] at ht ⊢
    split at ht
    · rename_i he
      rw [if_pos he]
      exact ⟨rfl,node.spawned,by simp,he⟩
    · exact absurd ht (hclear t)
  · intro _ k hk
    obtain rfl : k = node.spawned := by simpa using hk
    rw [hthread, if_pos rfl]
  · intro hdead
    have hdead' : node.isAlive j = false := hdead
    rw [halive] at hdead'
    contradiction

/-- A thread that has yet to clear `isAlive` is not touched by the steps of other threads. -/
theorem Turned.still_clearing {node : Server.Node n} (h : Turned rank node a out) (hu : Unborn node)
    (ht : node.threads t = handleNodeFailure j) :
    (out.state.threads t = handleNodeFailure j ∧ ∀ timedOut now, a ≠ .run t timedOut now) ∨
      sectionAt node a = some (.setIsAlive j false) ∧
        .setIsAlive j false ∉ out.state.threads t := by
  have hthread := h.thread t
  generalize hx : out.state.threads t = ops at hthread
  cases hthread with
  | same hrun => exact .inl ⟨ht,hrun⟩
  | next timedOut now op rest ops' out' hrun hops he =>
    rw [ht] at hops
    cases hops
    refine .inr ⟨by simp [hrun, sectionAt, ht, handleNodeFailure],?_⟩
    have hnone : ops' = [] := by
      simp only [exec, Option.some.injEq, Prod.mk.injEq] at he
      exact he.1.symm
    simp [hnone]
  | first ops hrun hnew hn =>
    rw [hnew, hu _ (Nat.le_refl _)] at ht
    contradiction

/-- Only a section that sets `isAlive` changes it. -/
theorem Turned.isAlive_cases {node : Server.Node n} (h : Turned rank node a out) (j : Fin n) :
    (∃ value, sectionAt node a = some (.setIsAlive j value) ∧ out.state.isAlive j = value) ∨
      (∀ value, sectionAt node a ≠ some (.setIsAlive j value)) ∧
        out.state.isAlive j = node.isAlive j := by
  rw [h.isAlive]
  cases hop : sectionAt node a with
  | none => exact .inr ⟨by simp,rfl⟩
  | some op =>
    cases op with
    | setIsAlive nodeId value =>
      by_cases hj : j = nodeId
      · subst hj
        exact .inl ⟨value,rfl,by simp [isAliveAfter]⟩
      · exact .inr ⟨by simp [Ne.symm hj],by simp [isAliveAfter, hj]⟩
    | _ => exact .inr ⟨by simp,rfl⟩

theorem eq_of_few {ks : List Nat} (h : ks.length ≤ 1) (hk : k ∈ ks) (hk' : k' ∈ ks) : k = k' := by
  match ks, h with
  | [x], _ => rw [List.mem_singleton.mp hk, List.mem_singleton.mp hk']

/-- What is left of the threads of a loss. -/
def lossAfter (node : Server.Node n) (j : Fin n) (ks : List Nat) (a : Server.Action n) : List Nat :=
  if sectionAt node a = some (.setIsAlive j true) ∧ node.isAlive j = false then [] else ks

theorem LossOk.acted {node : Server.Node n} (hs : LossOk node j ks) (h : Turned rank node a out)
    (ha : a ≠ .detectFailure j) : LossOk out.state j (lossAfter node j ks a) := by
  have hkept : ∀ t, .setIsAlive j false ∈ out.state.threads t →
      .setIsAlive j false ∈ node.threads t ∧ out.state.threads t = handleNodeFailure j := by
    intro t ht
    have hold := h.ofFailure_came ha ht (by simp [ofFailure])
    refine ⟨hold,?_⟩
    rcases h.still_clearing hs.unborn (hs.clearing t hold).1 with ⟨hsame,-⟩ | ⟨-,hgone⟩
    · exact hsame
    · exact absurd ht hgone
  by_cases hrevive : sectionAt node a = some (.setIsAlive j true) ∧ node.isAlive j = false
  · have hnone : ∀ t, .setIsAlive j false ∉ out.state.threads t :=
      fun t ht => hs.cleared hrevive.2 t (hkept t ht).1
    rw [lossAfter, if_pos hrevive]
    refine ⟨h.unborn hs.unborn,Nat.zero_le _,?_,?_,fun _ => hnone⟩
    · exact fun t ht => absurd ht (hnone t)
    · exact fun _ k hk => absurd hk List.not_mem_nil
  · rw [lossAfter, if_neg hrevive]
    refine ⟨h.unborn hs.unborn,hs.few,?_,?_,?_⟩
    · exact fun t ht => ⟨(hkept t ht).2,(hs.clearing t (hkept t ht).1).2⟩
    · intro halive k hk
      have hbefore : node.isAlive j = true ∧ sectionAt node a ≠ some (.setIsAlive j false) := by
        rcases h.isAlive_cases j with ⟨value,hop,hvalue⟩ | ⟨hop,hsame⟩
        · obtain rfl : value = true := hvalue.symm.trans halive
          refine ⟨?_,by simp [hop]⟩
          cases hdead : node.isAlive j with
          | true => rfl
          | false => exact absurd ⟨hop,hdead⟩ hrevive
        · exact ⟨hsame.symm.trans halive,hop false⟩
      rcases h.still_clearing hs.unborn (hs.alive hbefore.1 k hk) with ⟨hsame,-⟩ | ⟨hop,-⟩
      · exact hsame
      · exact absurd hop hbefore.2
    · intro hdead t ht
      have hpending := (hkept t ht).1
      rcases h.isAlive_cases j with ⟨value,hop,hvalue⟩ | ⟨-,hsame⟩
      · -- the one thread that could clear it is the one that has just done so
        obtain rfl : value = false := hvalue.symm.trans hdead
        obtain ⟨t',timedOut,now,hrun,hmem⟩ := sectionAt_run hop
        obtain ⟨hthread,k,hk,rfl⟩ := hs.clearing t hpending
        obtain ⟨-,k',hk',rfl⟩ := hs.clearing t' hmem
        obtain rfl : k = k' := eq_of_few hs.few hk hk'
        rcases h.still_clearing hs.unborn hthread with ⟨-,hnot⟩ | ⟨-,hgone⟩
        · exact hnot timedOut now hrun
        · exact hgone ht
      · exact hs.cleared (hsame.symm.trans hdead) t hpending

/-- A message that is taken has nothing to do with it. -/
theorem LossOk.taken {node x : Server.Node n} (hs : LossOk node j ks)
    (h : Taken rank node src m tag x) (halive : x.isAlive = node.isAlive) : LossOk x j ks := by
  have hkept : ∀ t, .setIsAlive j false ∈ x.threads t →
      .setIsAlive j false ∈ node.threads t ∧ x.threads t = node.threads t := by
    intro t ht
    rcases h.came ht with hold | ⟨hnew,-⟩
    · exact ⟨hold,h.busy hold⟩
    · contradiction
  refine ⟨h.unborn hs.unborn,hs.few,?_,?_,?_⟩
  · intro t ht
    rw [(hkept t ht).2]
    exact hs.clearing t (hkept t ht).1
  · intro halive' k hk
    rw [h.frame.detached]
    exact hs.alive (halive ▸ halive') k hk
  · intro hdead t ht
    exact hs.cleared (halive ▸ hdead) t (hkept t ht).1

/-! The elections a thread starts. -/

/-- A thread starts an election for the peer once, in a section that is not repeated. -/
structure OnceOk (node : Server.Node n) (j : Fin n) (elections : ThreadId → Nat) : Prop where
  unborn : Unborn node
  once : ∀ t, elections t + (node.threads t).count (.electIfLeader j) ≤ 1
  unstarted : ∀ k, node.spawned ≤ k → elections (.spawned k) = 0

theorem count_ofFailure {ops : List (Op n)} (h : ∀ x ∈ ops, ofFailure j x = false) :
    ops.count (.electIfLeader j) = 0 := by
  rw [List.count_eq_zero]
  intro hmem
  have hof := h _ hmem
  simp [ofFailure] at hof

/-- A thread starts with one such section at most. -/
theorem newThread_count {node : Server.Node n} (hn : newThread rank node a = some ops) (j : Fin n) :
    ops.count (.electIfLeader j) ≤ 1 := by
  by_cases hfail : ∀ k, a ≠ .detectFailure k
  · rw [count_ofFailure (newThread_not_ofFailure hn (hfail j))]
    exact Nat.zero_le _
  · simp only [not_forall, not_not] at hfail
    obtain ⟨k,rfl⟩ := hfail
    have hops : some (handleNodeFailure k) = some ops := hn
    cases hops
    by_cases hk : k = j <;> simp [handleNodeFailure, hk]

/-- The elections a section starts. -/
def startedBy (node : Server.Node n) (j : Fin n) (t : ThreadId) (a : Server.Action n) : Nat :=
  match a with
  | .run t' _ _ => if t' = t ∧ (node.threads t).head? = some (.electIfLeader j) then 1 else 0
  | _ => 0

theorem startedBy_other (node : Server.Node n) (j : Fin n)
    (ha : ∀ timedOut now, a ≠ .run t timedOut now) : startedBy node j t a = 0 := by
  unfold startedBy
  split
  · rename_i t' timedOut now
    rw [if_neg]
    rintro ⟨rfl,-⟩
    exact ha timedOut now rfl
  · rfl

theorem OnceOk.acted {node : Server.Node n} (hs : OnceOk node j elections)
    (h : Turned rank node a out) (hmore : ∀ t, elections' t ≤ elections t + startedBy node j t a) :
    OnceOk out.state j elections' := by
  refine ⟨h.unborn hs.unborn,?_,?_⟩
  · intro t
    have hthread := h.thread t
    have hold := hs.once t
    have hle := hmore t
    generalize out.state.threads t = ops at hthread
    cases hthread with
    | same hrun =>
      have hnone := startedBy_other node j hrun
      omega
    | next timedOut now op rest ops' out' hrun hops he =>
      have hrest : ops'.count (.electIfLeader j) = 0 :=
        count_ofFailure (fun x hx => continues_not_ofFailure (exec_continues he x hx) j)
      rw [hops, List.count_cons] at hold
      have hstarted : startedBy node j t a ≤ if (op == .electIfLeader j) = true then 1 else 0 := by
        rw [hrun]
        simp only [startedBy, hops, List.head?_cons, Option.some.injEq, true_and, beq_iff_eq]
        exact Nat.le_refl _
      rw [List.count_append]
      omega
    | first ops hrun hnew hn =>
      have hcount := newThread_count hn j
      have hzero : elections t = 0 := hnew ▸ hs.unstarted _ (Nat.le_refl _)
      have hnone := startedBy_other node j hrun
      omega
  · intro k hk
    have hk' : node.spawned ≤ k := Nat.le_trans h.spawned_le hk
    have hle := hmore (.spawned k)
    have hnone : startedBy node j (.spawned k) a = 0 := by
      unfold startedBy
      split
      · rw [if_neg]
        rintro ⟨-,hhead⟩
        rw [hs.unborn k hk'] at hhead
        contradiction
      · rfl
    rw [hs.unstarted k hk', hnone] at hle
    exact Nat.le_zero.mp hle

theorem OnceOk.taken {node x : Server.Node n} (hs : OnceOk node j elections)
    (h : Taken rank node src m tag x) : OnceOk x j elections := by
  refine ⟨h.unborn hs.unborn,?_,?_⟩
  · intro t
    have hold := hs.once t
    by_cases hmem : .electIfLeader j ∈ x.threads t
    · rcases h.came hmem with hbefore | ⟨hnew,-⟩
      · rw [h.busy hbefore]
        exact hold
      · contradiction
    · rw [List.count_eq_zero.mpr hmem]
      omega
  · intro k hk
    rw [h.frame.spawned] at hk
    exact hs.unstarted k hk

/-! A step of a server with heartbeats. -/

/-- What an action does to the server: nothing, a detected failure, or an action of the
server. -/
inductive BeatTurn (rank : Fin n) (node : Heartbeat.Node n) (a : Heartbeat.Action n) :
    Server.Node n → Prop
  | still (hdead : ∀ j, takesForDead node j a = false) (hop : beatSection node a = none)
      (hstart : ∀ j t, startsElection node j t a = false) : BeatTurn rank node a node.server
  | detected (j : Fin n) (hdead : ∀ k, takesForDead node k a = true ↔ k = j)
      (halive : node.server.isAlive j = true) (hop : beatSection node a = none)
      (hstart : ∀ j t, startsElection node j t a = false) :
      BeatTurn rank node a (node.server.spawn (handleNodeFailure j))
  | acts (b : Server.Action n) (out : Server.Result n) (h : Turned rank node.server b out)
      (hb : ∀ j, b ≠ .detectFailure j) (hdead : ∀ j, takesForDead node j a = false)
      (hop : beatSection node a = sectionAt node.server b)
      (hstart : ∀ j t, startsElection node j t a = true → startedBy node.server j t b = 1) :
      BeatTurn rank node a out.state

theorem beatTurn_checkTimeStamp {node : Heartbeat.Node n} (rank : Fin n) (cur : Int)
    (hthread : node.pingThread = .checkTimeStamp j::rest) :
    BeatTurn rank node (.pingCheck cur) (Heartbeat.checkTimeStamp rank node j cur).server := by
  have hstart : ∀ k t, startsElection node k t (.pingCheck cur) = false := fun _ _ => rfl
  have hdead : ∀ k, takesForDead node k (.pingCheck cur) = true ↔ k = j ∧
      node.server.isAlive j = true ∧ Heartbeat.elapsed node j cur > Heartbeat.timeoutDuration := by
    intro k
    simp only [takesForDead, hthread, List.head?_cons, Bool.and_eq_true, beq_iff_eq,
      Option.some.injEq, Heartbeat.PingOp.checkTimeStamp.injEq, decide_eq_true_eq, and_assoc]
    constructor
    · rintro ⟨rfl,h⟩
      exact ⟨rfl,h⟩
    · rintro ⟨rfl,h⟩
      exact ⟨rfl,h⟩
  unfold Heartbeat.checkTimeStamp
  split
  · rename_i hsilent
    refine .detected j (fun k => ?_) hsilent.1 rfl hstart
    rw [hdead]
    exact ⟨fun h => h.1,fun h => ⟨h,hsilent⟩⟩
  · rename_i hsilent
    have hnot : ∀ k, takesForDead node k (.pingCheck cur) = false := by
      intro k
      rw [← Bool.not_eq_true, hdead]
      exact fun h => hsilent h.2
    split
    · split
      · exact .acts (.detectRecovery j) _ (turned_of_turns (.born _ _ rfl)) (by simp) hnot rfl
          (fun k t h => by rw [hstart] at h; contradiction)
      · exact .still hnot rfl hstart
    · exact .still hnot rfl hstart

theorem beatTurn_of_act {node : Heartbeat.Node n} (h : Heartbeat.act rank node a = some out) :
    BeatTurn rank node a out.state.server := by
  cases a with
  | pingCheck cur =>
    simp only [Heartbeat.act, Option.some.injEq] at h
    subst h
    unfold Heartbeat.pingCheck
    split
    · rename_i hthread
      exact .still (by simp [takesForDead, hthread]) rfl (fun _ _ => rfl)
    · rename_i j rest hthread
      exact beatTurn_checkTimeStamp rank cur hthread
    · rename_i dst rest hthread
      exact .still (by simp [takesForDead, hthread]) rfl (fun _ _ => rfl)
  | handlePing now =>
    obtain ⟨src,-,rfl⟩ := Option.map_eq_some_iff.mp h
    exact .still (fun _ => rfl) rfl (fun _ _ => rfl)
  | server b now =>
    obtain ⟨sout,hact,hx,-,-⟩ := serve_cases h
    rw [hx]
    refine .acts b sout (turned_of_turns (turns_of_act hact)) ?_ (fun _ => rfl) rfl ?_
    · rintro j rfl
      simp [Heartbeat.act, Heartbeat.serve] at h
    · intro j t hstart
      cases b with
      | run t' timedOut now' =>
        simp only [startsElection, Bool.and_eq_true, beq_iff_eq] at hstart
        simp only [startedBy]
        rw [if_pos hstart.1]
      | _ => contradiction

/-! The runs. -/

theorem failureThreads_snoc (i j : Fin n) (es : BeatTrace n) (s : Heartbeat.Cluster n)
    (l : Heartbeat.Move n) : failureThreads i j (es ++ [(s,l)]) =
      threadsAfter (s.nodes i) j (failureThreads i j es) (actionAt i l) := by
  simp [failureThreads]

theorem electionsBy_snoc (i j : Fin n) (t : ThreadId) (es : BeatTrace n)
    (s : Heartbeat.Cluster n) (l : Heartbeat.Move n) : electionsBy i j t (es ++ [(s,l)]) =
      electionsBy i j t es +
        if (actionAt i l).any (startsElection (s.nodes i) j t) = true then 1 else 0 := by
  simp [electionsBy, List.countP_append, List.countP_cons]

/-- What a node's history says about its losses of a peer. -/
structure HandledOk (i j : Fin n) (node : Heartbeat.Node n) (es : BeatTrace n) : Prop where
  loss : LossOk node.server j (failureThreads i j es)
  once : OnceOk node.server j (fun t => electionsBy i j t es)

/-- A move that is none of the node's. -/
theorem HandledOk.elsewhere {es : BeatTrace n} (h : HandledOk i j node es) (s : Heartbeat.Cluster n)
    (hl : actionAt i l = none) : HandledOk i j node (es ++ [(s,l)]) := by
  have hthreads : failureThreads i j (es ++ [(s,l)]) = failureThreads i j es := by
    rw [failureThreads_snoc, hl]
    rfl
  have helections :
      (fun t => electionsBy i j t (es ++ [(s,l)])) = fun t => electionsBy i j t es := by
    funext t
    rw [electionsBy_snoc, hl]
    rfl
  refine ⟨?_,?_⟩
  · rw [hthreads]
    exact h.loss
  · rw [helections]
    exact h.once

theorem HandledOk.act {s : Heartbeat.Cluster n} {es : BeatTrace n}
    (h : HandledOk i j (s.nodes i) es)
    (ho : Heartbeat.act i (s.nodes i) a = some out) (hok : clearedFirst i j s (.act i a) = true) :
    HandledOk i j out.state (es ++ [(s,.act i a)]) := by
  have hat : actionAt i (.act i a) = some a := by simp [actionAt]
  have hturn := beatTurn_of_act ho
  have hthreads := failureThreads_snoc i j es s (.act i a)
  have helections := fun t => electionsBy_snoc i j t es s (.act i a)
  simp only [hat, threadsAfter, Option.any_some] at hthreads helections
  constructor
  · rw [hthreads]
    generalize out.state.server = x at hturn
    cases hturn with
    | still hdead hop hstart =>
      simpa [revives, hop, hdead] using h.loss
    | detected k hdead halive hop hstart =>
      have hnot : revives (s.nodes i) j a = false := by simp [revives, hop]
      simp only [hnot, Bool.false_eq_true, if_false]
      by_cases hk : j = k
      · subst hk
        have htaken := (hdead j).mpr rfl
        simp only [clearedFirst, hat, Option.any_some, htaken, Bool.not_true, Bool.false_or,
          Bool.not_eq_true'] at hok
        rw [if_pos htaken]
        exact h.loss.detected halive ((yetToClear_eq_false h.loss.unborn).mp hok)
      · rw [if_neg (fun htaken => hk ((hdead j).mp htaken))]
        have hborn : Turns i (s.nodes i).server (.detectFailure k) _ := .born _ _ rfl
        have hturned := turned_of_turns hborn
        have hacted := h.loss.acted hturned (by simpa using Ne.symm hk)
        simpa [lossAfter, sectionAt] using hacted
    | acts b bout hturned hb hdead hop hstart =>
      have hacted := h.loss.acted hturned (hb j)
      simpa [lossAfter, revives, hop, hdead] using hacted
  · generalize out.state.server = x at hturn
    cases hturn with
    | still hdead hop hstart =>
      simpa [helections, hstart] using h.once
    | detected k hdead halive hop hstart =>
      have hborn : Turns i (s.nodes i).server (.detectFailure k) _ := .born _ _ rfl
      have hturned := turned_of_turns hborn
      exact h.once.acted hturned (fun t => by simp [helections, hstart])
    | acts b bout hturned hb hdead hop hstart =>
      refine h.once.acted hturned (fun t => ?_)
      rw [helections]
      split
      · rename_i hstarts
        rw [hstart j t hstarts]
      · omega

theorem HandledOk.accept {node x : Heartbeat.Node n} {es : BeatTrace n}
    (h : HandledOk i j node es) (hx : Heartbeat.accept i node tag src m = some x) :
    HandledOk i j x es := by
  cases m with
  | ping =>
    simp only [Heartbeat.accept, Option.ite_none_right_eq_some, Option.some.injEq] at hx
    obtain ⟨-,rfl⟩ := hx
    exact ⟨h.loss,h.once⟩
  | server m =>
    simp only [Heartbeat.accept, Option.ite_none_left_eq_some, Option.map_eq_some_iff] at hx
    obtain ⟨-,sx,hs,rfl⟩ := hx
    have htaken := taken_of_accept hs
    exact ⟨h.loss.taken htaken (taken_isAlive hs),h.once.taken htaken⟩

theorem HandledOk.start (elected : Option (Fin n)) (i j : Fin n) :
    HandledOk i j ((Heartbeat.process elected).start i) [] := by
  exact ⟨LossOk.start elected i j,fun _ _ => rfl,fun t => Nat.zero_le 1,fun _ _ => rfl⟩

theorem reach_handledOk {s : Heartbeat.Cluster n} {es : BeatTrace n}
    (hr : BeatReach elected (fun _ s l => clearedFirst i j s l = true) s es) :
    HandledOk i j (s.nodes i) es := by
  induction hr with
  | start => exact HandledOk.start elected i j
  | step hr hok hs ih =>
    obtain ⟨rfl,e,he⟩ := Machine.traced_step hs
    cases LaneProcess.step_of_eq he with
    | act k a out ho =>
      by_cases hk : i = k
      · subst hk
        rw [LaneNet.commit_self]
        exact ih.act ho hok
      · rw [LaneNet.commit_other _ _ _ hk]
        exact ih.elsewhere _ (by simp [actionAt, Ne.symm hk])
    | receive tag src dst m rest x hc hx =>
      by_cases hk : i = dst
      · subst hk
        rw [LaneNet.take_self]
        exact (ih.accept hx).elsewhere _ rfl
      · rw [LaneNet.take_other _ _ _ _ _ hk]
        exact ih.elsewhere _ rfl

/-- A move that finds somebody yet to clear `isAlive` handles the loss again. -/
theorem HandledOk.handled_again {s : Heartbeat.Cluster n} {es : BeatTrace n}
    (h : HandledOk i j (s.nodes i) es) (hok : clearedFirst i j s l = false) :
    (failureThreads i j (es ++ [(s,l)])).length = 2 := by
  simp only [clearedFirst, Bool.or_eq_false_iff, Bool.not_eq_false'] at hok
  obtain ⟨htaken,hyet⟩ := hok
  obtain ⟨a,hat,htaken⟩ := (Option.any_eq_true _ _).mp htaken
  have hnot : revives (s.nodes i) j a = false := by
    cases a with
    | pingCheck => rfl
    | _ => contradiction
  obtain ⟨t,-,hclears⟩ := List.any_eq_true.mp hyet
  obtain ⟨-,k,hk,-⟩ := h.loss.clearing t (List.contains_iff_mem.mp hclears)
  have hone : (failureThreads i j es).length = 1 :=
    Nat.le_antisymm h.loss.few (List.length_pos_of_mem hk)
  rw [failureThreads_snoc, hat]
  simp [threadsAfter, hnot, htaken, hone]

/-- Between two moments at which `isAlive` becomes true for a peer, `handleNodeFailure` is
spawned for it at most once, and starts at most one election, as long as no pass finds the peer
silent before an earlier thread has cleared `isAlive`. A pass that does so spawns another. -/
theorem failures_handled_once (elected : Option (Fin n)) (i j : Fin n)
    (hr : BeatReach elected (fun _ s l => clearedFirst i j s l = true) s es) :
    (∀ before, before <+: es → (failureThreads i j before).length ≤ 1 ∧
      ((failureThreads i j before).map (fun k => electionsBy i j (.spawned k) es)).sum ≤ 1) ∧
    ∀ l, clearedFirst i j s l = false → (failureThreads i j (es ++ [(s,l)])).length = 2 := by
  have h : HandledOk i j (s.nodes i) es := reach_handledOk hr
  refine ⟨?_,fun l => h.handled_again⟩
  intro before hbefore
  obtain ⟨u,hu⟩ := hr.earlier hbefore
  have hearlier : HandledOk i j (u.nodes i) before := reach_handledOk hu
  refine ⟨hearlier.loss.few,?_⟩
  have hfew := hearlier.loss.few
  generalize failureThreads i j before = ks at hfew ⊢
  match ks, hfew with
  | [], _ => exact Nat.zero_le _
  | [k], _ =>
    have honce := h.once.once (.spawned k)
    simp only [List.map_cons, List.map_nil, List.sum_cons, List.sum_nil]
    omega

/-! Two nodes. Node 0 hears nothing of node 1 for two seconds. -/

/-- A pass two seconds after the start, before anything has been heard. -/
def silentPass (i : Fin n) : List (Heartbeat.Move n) := Heartbeat.Move.round i 2000000000

/-- A second pass, before the thread that the first one has spawned runs. -/
def twoPasses (i : Fin n) : List (Heartbeat.Move n) := silentPass i ++ silentPass i

/-- The thread runs, and the node starts an election; then the second pass. -/
def passAfterThread (i : Fin n) : List (Heartbeat.Move n) :=
  silentPass i ++ Heartbeat.Move.sections i (.spawned 0) 3 ++ silentPass i

def beatOutcome (elected : Option (Fin n))
    (test : BeatTrace n → Heartbeat.Cluster n → Heartbeat.Move n → Bool)
    (moves : List (Heartbeat.Move n)) (look : Heartbeat.Cluster n × BeatTrace n → β) : Option β :=
  ((Heartbeat.process elected).network.traced.follow test moves
    (Heartbeat.process elected).network.traced.start []).map look

theorem twoPasses_end : beatOutcome (some (1 : Fin 2)) (fun _ _ _ => true) (twoPasses 0)
    (fun r => failureThreads 0 1 r.2) = some [0,1] := by
  decide

theorem passAfterThread_end : beatOutcome (some (1 : Fin 2)) (fun _ => clearedFirst 0 1)
    (passAfterThread 0) (fun r => (failureThreads 0 1 r.2,electionsBy 0 1 (.spawned 0) r.2)) =
    some ([0],1) := by
  decide

theorem failure_handled_twice : ¬ ∀ (s : Heartbeat.Cluster 2) (es : BeatTrace 2),
    BeatReach (some 1) Machine.free s es → (failureThreads 0 1 es).length ≤ 1 := by
  intro h
  obtain ⟨s,es,hr,hes⟩ := Machine.exists_reach (fun _ _ _ _ => trivial) twoPasses_end
  have hle := h s es hr
  rw [hes] at hle
  contradiction

theorem failures_handled_once_passAfterThread : ∃ (s : Heartbeat.Cluster 2) (es : BeatTrace 2),
    BeatReach (some 1) (fun _ s l => clearedFirst 0 1 s l = true) s es ∧
    electionsBy 0 1 (.spawned 0) es = 1 ∧ (failureThreads 0 1 es).length ≤ 1 := by
  obtain ⟨s,es,hr,hes⟩ := Machine.exists_reach (fun _ _ _ h => h) passAfterThread_end
  simp only [Prod.mk.injEq] at hes
  have hhandled := failures_handled_once (some 1) 0 1 hr
  exact ⟨s,es,hr,hes.2,(hhandled.1 es (List.prefix_refl _)).1⟩

end Algorep.Proofs
