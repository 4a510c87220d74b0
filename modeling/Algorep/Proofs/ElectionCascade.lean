import Algorep.Kit.Potential
import Algorep.Proofs.ThreadWeights
import Mathlib.Algebra.BigOperators.Fin
import Mathlib.Algebra.BigOperators.Intervals
import Mathlib.Algebra.Ring.GeomSum

namespace Algorep.Proofs
open Kit Program Program.Server

/-! What one election sets going, as long as nobody's time runs out. -/

/-- The sections that wait for time to pass, and what follows such a wait. -/
def isTimer : Op n → Bool
  | .waitForVictory | .declareIfNoLeader | .broadcastIfNoLeader => true
  | _ => false

/-- Only sections of threads are run, none of them after a wait. -/
def cascades (node : Server.Node n) : Server.Action n → Bool
  | .run t _ _ => (node.threads t).head?.all (fun op => !isTimer op)
  | _ => false

/-- The moves of a cascade: sections of threads, and the lane of elections. -/
abbrev CascadeMove (s : Server.Cluster n) (l : Server.Move n) : Prop :=
  LaneProcess.within .leaderElection (fun _ node a => cascades node a = true) s l

/-- No peer is marked dead, and no thread has anything to run. -/
def AllIdle (nodes : Fin n → Server.Node n) : Prop :=
  ∀ i, (∀ j, (nodes i).processIsAlive j = true) ∧ ∀ t, (nodes i).threads t = []

/-- Servers of which node `i` has called `startElection`. -/
def electionFrom (nodes : Fin n → Server.Node n) (i : Fin n) :
    LaneProcess MessageTag (Fin n) (Server.Node n) (Server.Action n) (Server.Message n)
      (Server.Event n) :=
  { Server.process none with
    start := Function.update nodes i ((nodes i).spawn (triggerElection i)) }

/-- A run of the cascade as its moves, each with the state it was made in. -/
abbrev CascadeReach (nodes : Fin n → Server.Node n) (i : Fin n) :
    Server.Cluster n → Trace n → Prop :=
  (electionFrom nodes i).network.traced.Reach (fun _ => CascadeMove)

/-- How often a message of the election has been delivered. -/
def deliveries (m : Server.Message n) (es : Trace n) : Nat :=
  es.countP (fun e => match e.2 with
    | .receive k src dst => (e.1.chan k src dst).head? == some m
    | _ => false)

/-! Prices. -/

/-- What each step of the cascade is to cost. -/
structure Prices where
  restart : Nat := 0
  ask : Nat := 0
  receiveElection : Nat := 0
  answer : Nat := 0
  receiveAlive : Nat := 0
  note : Nat := 0
  mark : Nat := 0

/-- All that one ELECTION leads to, what other ELECTIONs lead to aside. -/
def Prices.total (c : Prices) : Nat :=
  c.restart + c.ask + c.receiveElection + c.answer + c.receiveAlive + c.note + c.mark

/-- All that sending an ELECTION to node `j` leads to. -/
def Prices.election (c : Prices) (j : Fin n) : Nat := c.total * 2 ^ (n - 1 - j.val)

/-- What a section still leads to, itself included. -/
def Prices.op (c : Prices) (rank : Fin n) : Op n → Nat
  | .restartElection => c.restart
  | .send dst .election => c.election dst
  | .handleMessage _ .election => c.election rank - c.ask - c.receiveElection
  | .handleMessage _ .alive => c.note + c.mark
  | .setAliveReceived true => c.mark
  | _ => 0

/-- What the delivery of a message leads to. -/
def Prices.message (c : Prices) (dst : Fin n) : Server.Message n → Nat
  | .election => c.election dst - c.ask
  | .alive => c.receiveAlive + c.note + c.mark
  | _ => 0

def Prices.ofOp (c : Prices) : Op n → Nat
  | .restartElection => c.restart
  | .send _ .election => c.ask
  | .handleMessage _ .election => c.answer
  | .handleMessage _ .alive => c.note
  | .setAliveReceived true => c.mark
  | _ => 0

def Prices.spent (c : Prices) (_ : Fin n) (node : Server.Node n) : Server.Action n → Nat
  | .run t _ _ => ((node.threads t).head?.map c.ofOp).getD 0
  | _ => 0

def Prices.taken (c : Prices) : Server.Message n → Nat
  | .election => c.receiveElection
  | .alive => c.receiveAlive
  | _ => 0

def Prices.thread (c : Prices) (rank : Fin n) (ops : List (Op n)) : Nat := (ops.map (c.op rank)).sum

/-- What the threads of a server still lead to. -/
def Prices.node (c : Prices) (rank : Fin n) (node : Server.Node n) : Nat :=
  ((threadsOf node).map (fun t => c.thread rank (node.threads t))).sum

/-- Twice as much above each node as above the next. -/
theorem sum_above (r : Fin n) :
    (∑ j : Fin n, if r < j then 2 ^ (n - 1 - j.val) else 0) + 1 = 2 ^ (n - 1 - r.val) := by
  have hr := r.isLt
  have hrange : (∑ j : Fin n, if r < j then 2 ^ (n - 1 - j.val) else 0) =
      ∑ k ∈ Finset.range n, if r.val < k then 2 ^ (n - 1 - k) else 0 :=
    Fin.sum_univ_eq_sum_range (fun k => if r.val < k then 2 ^ (n - 1 - k) else 0) n
  have hturned : ∑ k ∈ Finset.range n,
      (if r.val < n - 1 - k then 2 ^ (n - 1 - (n - 1 - k)) else 0) =
      ∑ k ∈ Finset.range (n - 1 - r.val), 2 ^ k := by
    rw [← Finset.sum_filter]
    apply Finset.sum_congr
    · ext k
      simp only [Finset.mem_filter, Finset.mem_range]
      omega
    · intro k hk
      have hlt := Finset.mem_range.mp hk
      congr 1
      omega
  rw [hrange, ← Finset.sum_range_reflect, hturned]
  have hpowers := geom_sum_mul_add 1 (n - 1 - r.val)
  rwa [Nat.mul_one] at hpowers

/-- The nodes above a node. -/
theorem above_iff (rank j : Fin n) : (decide (rank.val + 1 ≤ j.val) && decide (j.val < n) &&
    (j != rank || false)) = true ↔ rank < j := by
  have hj := j.isLt
  simp only [Bool.or_false, Bool.and_eq_true, decide_eq_true_eq, bne_iff_ne, ne_eq, Fin.ext_iff,
    Fin.lt_def]
  omega

/-- What a broadcast leads to. -/
theorem Prices.broadcast (c : Prices) (rank : Fin n) :
    c.thread rank (broadcastElection rank) + c.total = c.restart + c.election rank := by
  have hsum : ((broadcastTargets rank (rank.val + 1) n false).map (fun j => c.election j)).sum =
      c.total * ∑ j : Fin n, if rank < j then 2 ^ (n - 1 - j.val) else 0 := by
    have htargets : broadcastTargets rank (rank.val + 1) n false =
        (List.finRange n).filter (fun j => rank < j) :=
      List.filter_congr
        (fun j _ => Bool.eq_iff_iff.mpr (by simp only [above_iff, decide_eq_true_eq]))
    rw [htargets, Finset.mul_sum, Fin.sum_univ_def]
    simp [Prices.election, List.sum_map_ite]
  have hthread : c.thread rank (broadcastElection rank) = c.restart +
      ((broadcastTargets rank (rank.val + 1) n false).map (fun j => c.election j)).sum := by
    simp only [Prices.thread, broadcastElection, List.map_cons, List.sum_cons, List.map_map]
    rfl
  have hpowers := congrArg (c.total * ·) (sum_above rank)
  simp only [Nat.mul_add, Nat.mul_one] at hpowers
  rw [hthread, hsum, Prices.election]
  omega

theorem Prices.total_le (c : Prices) (j : Fin n) : c.total ≤ c.election j :=
  Nat.le_mul_of_pos_right _ (Nat.two_pow_pos _)

/-! The threads of the cascade. -/

/-- A section of the cascade. ELECTION goes up, and ALIVE has come down. -/
inductive Live (rank : Fin n) : Op n → Prop
  | restart : Live rank .restartElection
  | ask (j : Fin n) (h : rank < j) : Live rank (.send j .election)
  | answer (src : Fin n) (h : src < rank) : Live rank (.handleMessage src .election)
  | note (src : Fin n) (h : rank < src) : Live rank (.handleMessage src .alive)
  | mark : Live rank (.setAliveReceived true)

/-- What a thread leaves alone: it waits for time to pass. -/
inductive Held : ThreadId → List (Op n) → Prop
  | nothing : Held t []
  | election : Held (.spawned k) [.waitForVictory,.declareIfNoLeader]
  | alive : Held (.spawned k) [.broadcastIfNoLeader,.setAliveReceived false]

def Cascading (rank : Fin n) (t : ThreadId) (ops : List (Op n)) : Prop :=
  ∃ live held, ops = live ++ held ∧ (∀ op ∈ live, Live rank op) ∧ Held t held

structure CascadeOk (rank : Fin n) (node : Server.Node n) : Prop where
  unborn : Unborn node
  alive : ∀ j, node.processIsAlive j = true
  threads : ∀ t, Cascading rank t (node.threads t)

/-- A message of the cascade. -/
def Cascades (src dst : Fin n) (m : Server.Message n) : Prop :=
  m = .election ∧ src < dst ∨ m = .alive ∧ dst < src

theorem cascading_nil (rank : Fin n) (t : ThreadId) : Cascading rank t [] :=
  ⟨[],[],rfl,by simp,.nothing⟩

/-- The next section of a thread that does not wait. -/
theorem Cascading.head (h : Cascading rank t (op::rest)) (hop : isTimer op = false) :
    Live rank op ∧ Cascading rank t rest := by
  obtain ⟨live,held,heq,hlive,hheld⟩ := h
  cases live with
  | nil =>
    rw [List.nil_append] at heq
    subst heq
    cases hheld <;> simp [isTimer] at hop
  | cons x live =>
    cases heq
    exact ⟨hlive op List.mem_cons_self,live,held,rfl,
      fun y hy => hlive y (List.mem_cons_of_mem _ hy),hheld⟩

/-- More of the cascade before a thread's rest. -/
theorem Cascading.append (h : Cascading rank t rest) (hops : ∀ op ∈ ops, Live rank op) :
    Cascading rank t (ops ++ rest) := by
  obtain ⟨live,held,rfl,hlive,hheld⟩ := h
  refine ⟨ops ++ live,held,by simp,?_,hheld⟩
  intro op hop
  rcases List.mem_append.mp hop with hop | hop
  · exact hops op hop
  · exact hlive op hop

theorem broadcastElection_live (rank : Fin n) : ∀ op ∈ broadcastElection rank, Live rank op := by
  intro op hop
  simp only [broadcastElection, List.mem_cons, List.mem_map, broadcastTargets,
    List.mem_filter] at hop
  rcases hop with rfl | ⟨j,⟨-,hj⟩,rfl⟩
  · exact .restart
  · exact .ask j ((above_iff rank j).mp hj)

theorem triggerElection_cascading (rank : Fin n) (k : Nat) :
    Cascading rank (.spawned k) (triggerElection rank) :=
  ⟨broadcastElection rank,_,rfl,broadcastElection_live rank,.election⟩

theorem aliveWait_cascading (rank : Fin n) (k : Nat) :
    Cascading rank (.spawned k) (aliveWait (n := n)) :=
  ⟨[.setAliveReceived true],_,rfl,fun _ hop => List.mem_singleton.mp hop ▸ .mark,.alive⟩

/-! What a section does to the prices of its server. -/

theorem Prices.node_setThread (c : Prices) (rank : Fin n) {node : Server.Node n}
    (ht : t ∈ threadsOf node) (ops : List (Op n)) :
    c.node rank (node.setThread t ops) + c.thread rank (node.threads t) =
      c.node rank node + c.thread rank ops := weigh_setThread ht ops

theorem Prices.node_spawn (c : Prices) {node : Server.Node n} (ops : List (Op n)) :
    c.node rank (node.spawn ops) = c.node rank node + c.thread rank ops := weigh_spawn node ops

/-- What the thread that a section detaches leads to. -/
def Prices.detached (c : Prices) (rank : Fin n) (ops : Option (List (Op n))) : Nat :=
  (ops.map (c.thread rank)).getD 0

theorem Prices.node_run (c : Prices) {node : Server.Node n} {op : Op n} (hu : Unborn node)
    (ht : node.threads t = op::rest) (he : exec rank node timedOut now op = some (ops,out)) :
    c.node rank (out.state.setThread t (ops ++ rest)) + c.op rank op =
      c.node rank node + c.thread rank ops + c.detached rank (spawns rank node op) := by
  have hrun : c.node rank (out.state.setThread t (ops ++ rest)) + c.thread rank (op::rest) =
      c.node rank node + c.thread rank (ops ++ rest) + c.detached rank (spawns rank node op) :=
    weigh_run hu ht he
  have hthread : c.thread rank (ops ++ rest) = c.thread rank ops + c.thread rank rest := by
    simp [Prices.thread]
  have hhead : c.thread rank (op::rest) = c.op rank op + c.thread rank rest := by
    simp [Prices.thread]
  omega

/-- What a section of the cascade leaves to its thread. -/
def leftBy (rank : Fin n) : Op n → List (Op n)
  | .handleMessage _ .election => broadcastElection rank
  | _ => []

/-- No section of the cascade waits. -/
theorem live_exec (node : Server.Node n) (h : Live rank op) (timedOut : Bool) (now : Nat) :
    ∃ out, exec rank node timedOut now op = some (leftBy rank op,out) := by
  cases h with
  | restart | ask | answer | note | mark => exact ⟨_,rfl⟩

theorem live_left (h : Live rank op) : ∀ x ∈ leftBy rank op, Live rank x := by
  cases h with
  | answer src => exact broadcastElection_live rank
  | restart | ask | note | mark => simp [leftBy]

/-- What a section of the cascade sends belongs to it. -/
theorem live_sends {node : Server.Node n} (h : Live rank op)
    (hs : sends rank node op = some (dst,m)) : Cascades rank dst m := by
  cases h with
  | ask j hj =>
    simp only [sends, Server.Node.send, Option.ite_none_left_eq_some, Option.some.injEq,
      Prod.mk.injEq] at hs
    obtain ⟨-,rfl,rfl⟩ := hs
    exact .inl ⟨rfl,hj⟩
  | answer src hsrc =>
    simp only [sends, Server.Node.send, Option.ite_none_left_eq_some, Option.some.injEq,
      Prod.mk.injEq] at hs
    obtain ⟨-,rfl,rfl⟩ := hs
    exact .inr ⟨rfl,hsrc⟩
  | restart | note | mark => contradiction

/-- A server whose threads are all part of the cascade detaches only a wait. -/
theorem live_spawns {node : Server.Node n} (h : Live rank op)
    (hs : spawns rank node op = some ops) : ops = aliveWait := by
  cases h with
  | note src hsrc =>
    simp only [spawns, hsrc, ↓reduceIte, Option.some.injEq] at hs
    exact hs.symm
  | restart | ask | answer | mark => contradiction

theorem live_status {node : Server.Node n} (h : Live rank op) :
    statusAfter node op = node.processIsAlive := by
  cases h with
  | restart | ask | answer | note | mark => rfl

theorem live_isTimer (h : Live rank op) : isTimer op = false := by
  cases h with
  | restart | ask | answer | note | mark => rfl

/-- Nothing is dropped while nobody is marked dead. -/
theorem dropsFrom_alive {node : Server.Node n} (h : ∀ j, node.processIsAlive j = true)
    (j : Fin n) (tag : MessageTag) : node.dropsFrom rank j tag = false := by
  simp [Server.Node.dropsFrom, messageShouldDrop, h]

/-- What a section leads to is what it costs, leaves, detaches and sends. -/
theorem Prices.op_pays (c : Prices) {node : Server.Node n} {op : Op n} (h : Live rank op)
    (halive : ∀ j, node.processIsAlive j = true)
    (he : exec rank node timedOut now op = some (ops,out)) :
    c.thread rank ops + c.detached rank (spawns rank node op) +
      LaneNet.sentWeight c.message Message.tag .leaderElection out + c.ofOp op = c.op rank op := by
  obtain ⟨out',hout⟩ := live_exec node h timedOut now
  rw [he, Option.some.injEq, Prod.mk.injEq] at hout
  obtain ⟨rfl,-⟩ := hout
  have hsend := (exec_ran he).send
  have hsent : ∀ dst m, sends rank node op = some (dst,m) → m.tag = .leaderElection →
      LaneNet.sentWeight c.message Message.tag .leaderElection out = c.message dst m := by
    intro dst m hm htag
    rw [← hsend] at hm
    simp [LaneNet.sentWeight, hm, htag]
  have hunsent : sends rank node op = none →
      LaneNet.sentWeight c.message Message.tag .leaderElection out = 0 := by
    intro hm
    rw [← hsend] at hm
    simp [LaneNet.sentWeight, hm]
  cases h with
  | restart | mark =>
    rw [hunsent rfl]
    simp [leftBy, spawns, Prices.thread, Prices.detached, Prices.op, Prices.ofOp]
  | note src hsrc =>
    rw [hunsent rfl]
    simp [leftBy, spawns, hsrc, aliveWait, Prices.thread, Prices.detached, Prices.op, Prices.ofOp]
    omega
  | ask j hj =>
    have hm : sends rank node (.send j .election) = some (j,.election) := by
      simp [sends, Server.Node.send, dropsFrom_alive halive]
    rw [hsent j .election hm rfl]
    have hle := c.total_le j
    simp [leftBy, spawns, Prices.thread, Prices.detached, Prices.op, Prices.ofOp, Prices.message]
    unfold Prices.total at hle
    omega
  | answer src hsrc =>
    have hm : sends rank node (.handleMessage src .election) = some (src,.alive) := by
      simp [sends, Server.Node.send, dropsFrom_alive halive]
    rw [hsent src .alive hm rfl]
    have hbroadcast := c.broadcast rank
    have hle := c.total_le rank
    simp [leftBy, spawns, Prices.detached, Prices.op, Prices.ofOp, Prices.message]
    unfold Prices.total at hle hbroadcast
    omega

/-! The cascade is kept by its own steps. -/

/-- What an action of the cascade runs. -/
theorem cascade_run {node : Server.Node n} (h : CascadeOk rank node) (hok : cascades node a = true)
    (ha : Server.act rank node a = some out) : ∃ t timedOut now op rest ops out',
      a = .run t timedOut now ∧ node.threads t = op::rest ∧ Live rank op ∧
      Cascading rank t rest ∧ exec rank node timedOut now op = some (ops,out') ∧
      ops = leftBy rank op ∧ out = { out' with state := out'.state.setThread t (ops ++ rest) } := by
  cases a with
  | run t timedOut now =>
    obtain ⟨op,rest,ops,out',ht,he,rfl⟩ := run_cases ha
    have htimer : isTimer op = false := by simpa [cascades, ht] using hok
    obtain ⟨hlive,hrest⟩ := (ht ▸ h.threads t : Cascading rank t (op::rest)).head htimer
    obtain ⟨out'',hout⟩ := live_exec node hlive timedOut now
    have hleft : ops = leftBy rank op := by
      rw [he, Option.some.injEq, Prod.mk.injEq] at hout
      exact hout.1
    exact ⟨t,timedOut,now,op,rest,ops,out',rfl,ht,hlive,hrest,he,hleft,rfl⟩
  | _ => simp [cascades] at hok

theorem CascadeOk.act {node : Server.Node n} (h : CascadeOk rank node)
    (hok : cascades node a = true) (ha : Server.act rank node a = some out) :
    CascadeOk rank out.state := by
  have hunborn := (turned_of_turns (turns_of_act ha)).unborn h.unborn
  obtain ⟨t,timedOut,now,op,rest,ops,out',rfl,ht,hlive,hrest,he,rfl,rfl⟩ := cascade_run h hok ha
  have hran := exec_ran he
  refine ⟨hunborn,?_,?_⟩
  · intro j
    rw [Server.Node.setThread_processIsAlive, hran.status, live_status hlive]
    exact h.alive j
  · intro u
    by_cases hu : u = t
    · subst hu
      rw [Server.Node.setThread_self]
      exact hrest.append (live_left hlive)
    · rw [Server.Node.setThread_other _ _ _ hu, hran.threads]
      cases hs : spawns rank node op with
      | none => exact h.threads u
      | some new =>
        dsimp only
        rw [update_thread]
        split
        · rename_i hk
          subst hk
          rw [live_spawns hlive hs]
          exact aliveWait_cascading rank _
        · exact h.threads u

theorem CascadeOk.sends {node : Server.Node n} (h : CascadeOk rank node)
    (hok : cascades node a = true) (ha : Server.act rank node a = some out)
    (hm : out.send = some (dst,m)) : Cascades rank dst m := by
  obtain ⟨t,timedOut,now,op,rest,ops,out',rfl,ht,hlive,hrest,he,rfl,rfl⟩ := cascade_run h hok ha
  exact live_sends hlive ((exec_ran he).send.symm.trans hm)

/-- What the receiver of elections does with a message of the cascade. -/
theorem cascade_accept {node : Server.Node n} (h : CascadeOk rank node)
    (ha : accept rank node .leaderElection src m = some x) :
    node.threads .electionReceiver = [] ∧
      x = node.setThread .electionReceiver [.handleMessage src m] := by
  simp only [accept, dropsFrom_alive h.alive, Bool.false_eq_true, ↓reduceIte,
    Option.ite_none_right_eq_some, Option.some.injEq, List.isEmpty_iff] at ha
  exact ⟨ha.1,ha.2.symm⟩

theorem cascades_live (h : Cascades src dst m) : Live dst (.handleMessage src m) := by
  rcases h with ⟨rfl,h⟩ | ⟨rfl,h⟩
  · exact .answer src h
  · exact .note src h

theorem CascadeOk.accept {node : Server.Node n} (h : CascadeOk rank node)
    (hm : Cascades src rank m) (ha : Server.accept rank node .leaderElection src m = some x) :
    CascadeOk rank x := by
  have hunborn := (taken_of_accept ha).unborn h.unborn
  obtain ⟨-,rfl⟩ := cascade_accept h ha
  refine ⟨hunborn,h.alive,?_⟩
  intro u
  rw [setThread_threads]
  split
  · exact ⟨[.handleMessage src m],[],rfl,fun op hop => List.mem_singleton.mp hop ▸ cascades_live hm,
      .nothing⟩
  · exact h.threads u

theorem CascadeOk.elect {node : Server.Node n} (h : CascadeOk rank node) :
    CascadeOk rank (node.spawn (triggerElection rank)) := by
  have hturned : Turned rank node .startElection { state := node.spawn (triggerElection rank) } :=
    turned_of_turns (turns_of_act rfl)
  refine ⟨hturned.unborn h.unborn,h.alive,fun t => ?_⟩
  change Cascading rank t
    ((node.setThread (.spawned node.spawned) (triggerElection rank)).threads t)
  rw [setThread_threads]
  split
  · rename_i ht
    subst ht
    exact triggerElection_cascading rank _
  · exact h.threads t

/-- Every server is part of the cascade, and so is every message. -/
theorem reach_cascade {nodes : Fin n → Server.Node n} (hidle : AllIdle nodes)
    (hr : CascadeReach nodes i s es) :
    (∀ j, CascadeOk j (s.nodes j)) ∧ s.Carries Cascades := by
  induction hr with
  | start =>
    refine ⟨fun j => ?_,fun k a b m hm => by cases hm⟩
    have hj : CascadeOk j (nodes j) := by
      refine ⟨fun k _ => (hidle j).2 _,(hidle j).1,fun t => ?_⟩
      rw [(hidle j).2 t]
      exact cascading_nil j t
    change CascadeOk j (Function.update nodes i ((nodes i).spawn (triggerElection i)) j)
    by_cases hi : j = i
    · subst hi
      rw [Function.update_self]
      exact hj.elect
    · rw [Function.update_of_ne hi]
      exact hj
  | step hr hok hs ih =>
    obtain ⟨rfl,e,he⟩ := Machine.traced_step hs
    apply (LaneProcess.step_of_eq he).keeps ih
    · rintro j a out rfl ho
      exact ⟨(ih.1 j).act hok ho,fun dst m hm => (ih.1 j).sends hok ho hm⟩
    · rintro k src j m x rfl hm hx
      have hk : k = .leaderElection := hok
      subst hk
      exact (ih.1 j).accept hm hx

/-! What a cascade costs. -/

theorem electionFrom_pays (nodes : Fin n → Server.Node n) (i : Fin n) (c : Prices) :
    (electionFrom nodes i).Pays .leaderElection CascadeOk Cascades
      (fun _ node a => cascades node a = true) c.node c.message c.spent c.taken := by
  constructor
  · intro j node a out hnode hok ha
    obtain ⟨t,timedOut,now,op,rest,ops,out',rfl,ht,hlive,-,he,-,rfl⟩ := cascade_run hnode hok ha
    have hrun := c.node_run hnode.unborn ht he
    have hpays := c.op_pays hlive hnode.alive he
    have hspent : c.spent j node (.run t timedOut now) = c.ofOp op := by
      simp [Prices.spent, ht]
    rw [hspent]
    change c.node j (out'.state.setThread t (ops ++ rest)) +
      LaneNet.sentWeight c.message Message.tag .leaderElection out' + c.ofOp op = c.node j node
    omega
  · intro src j node m x hnode hm hx
    obtain ⟨ht,rfl⟩ := cascade_accept hnode hx
    have hmem : .electionReceiver ∈ threadsOf node := by simp [threadsOf]
    have hset := c.node_setThread j hmem [.handleMessage src m]
    have hnone : c.thread j (node.threads .electionReceiver) = 0 := by simp [Prices.thread, ht]
    have hone : c.thread j [.handleMessage src m] + c.taken m = c.message j m := by
      have hle := c.total_le j
      unfold Prices.total at hle
      rcases hm with ⟨rfl,-⟩ | ⟨rfl,-⟩ <;>
        simp [Prices.thread, Prices.op, Prices.taken, Prices.message] <;> omega
    omega

theorem electionFrom_start {nodes : Fin n → Server.Node n} (hidle : AllIdle nodes) (i : Fin n)
    (c : Prices) : (electionFrom nodes i).network.start.weight c.node c.message .leaderElection +
      c.total = c.restart + c.election i := by
  have hnode : ∀ j, c.node j (nodes j) = 0 := by
    intro j
    simp [Prices.node, (hidle j).2, Prices.thread]
  have hstart : ∀ j, c.node j ((electionFrom nodes i).start j) =
      if j = i then c.thread i (triggerElection i) else 0 := by
    intro j
    by_cases hj : j = i
    · subst hj
      simp [electionFrom, c.node_spawn, hnode]
    · simp [electionFrom, hj, hnode]
  have hthread : c.thread i (triggerElection i) = c.thread i (broadcastElection i) := by
    simp [triggerElection, Prices.thread, Prices.op]
  have hbroadcast := c.broadcast i
  have hweight : (electionFrom nodes i).network.start.weight c.node c.message .leaderElection =
      c.thread i (triggerElection i) := by
    simp [LaneNet.weight, LaneProcess.network, hstart]
  omega

/-- What a section of the cascade costs at the least, when everything has its price. -/
theorem Prices.spent_pos {node : Server.Node n} (h : CascadeOk rank node)
    (hok : cascades node a = true) (ha : Server.act rank node a = some out) :
    1 ≤ Prices.spent ⟨1,1,1,1,1,1,1⟩ rank node a := by
  obtain ⟨t,timedOut,now,op,rest,ops,out',rfl,ht,hlive,-⟩ := cascade_run h hok ha
  simp only [Prices.spent, ht, List.head?_cons, Option.map_some, Option.getD_some]
  cases hlive with
  | restart | ask | answer | note | mark => exact Nat.le_refl _

theorem deliveries_eq (m : Server.Message n) (c : Prices) (hspent : ∀ op : Op n, c.ofOp op = 0)
    (htaken : ∀ x, c.taken x = if x = m then 1 else 0) (es : Trace n) :
    (es.map (fun e => LaneProcess.cost c.spent c.taken e.1 e.2)).sum = deliveries m es := by
  induction es with
  | nil => rfl
  | cons e es ih =>
    obtain ⟨s,l⟩ := e
    rw [List.map_cons, List.sum_cons, ih, deliveries, deliveries, List.countP_cons, Nat.add_comm]
    congr 1
    cases l with
    | act j a =>
      cases a with
      | run t timedOut now =>
        cases hop : ((s.nodes j).threads t).head? <;>
          simp [LaneProcess.cost, Prices.spent, hop, hspent]
      | _ => rfl
    | receive k src dst =>
      cases hm : (s.chan k src dst).head? with
      | none => simp [LaneProcess.cost, hm]
      | some x => simp [LaneProcess.cost, hm, htaken]

/-! The end of a cascade. -/

/-- Nothing of the cascade can be done any more. -/
def CascadeOver (nodes : Fin n → Server.Node n) (i : Fin n) (s : Server.Cluster n) : Prop :=
  ∀ l, CascadeMove s l → (electionFrom nodes i).network.step s l = none

/-- Once the cascade is over, every thread waits. -/
theorem over_thread {nodes : Fin n → Server.Node n} (hover : CascadeOver nodes i s)
    (h : CascadeOk j (s.nodes j)) (t : ThreadId) : Held t ((s.nodes j).threads t) := by
  obtain ⟨live,held,heq,hlive,hheld⟩ := h.threads t
  cases live with
  | nil =>
    rw [heq]
    exact hheld
  | cons op live =>
    have hop := hlive op List.mem_cons_self
    obtain ⟨out,hout⟩ := live_exec (s.nodes j) hop false 0
    have hmove : CascadeMove s (.act j (.run t false 0)) := by
      simp [LaneProcess.within, cascades, heq, live_isTimer hop]
    have hnone := hover _ hmove
    simp [LaneProcess.network, LaneProcess.step, electionFrom, Server.process, Server.act,
      Server.run, heq, hout] at hnone

theorem over_chan {nodes : Fin n → Server.Node n} (hover : CascadeOver nodes i s)
    (h : CascadeOk dst (s.nodes dst)) (src : Fin n) : s.chan .leaderElection src dst = [] := by
  cases hc : s.chan .leaderElection src dst with
  | nil => rfl
  | cons m rest =>
    have hheld := over_thread hover h .electionReceiver
    have hidle : (s.nodes dst).threads .electionReceiver = [] := by
      generalize (s.nodes dst).threads .electionReceiver = ops at hheld
      cases hheld
      rfl
    have hnone := hover (.receive .leaderElection src dst) rfl
    simp [LaneProcess.network, LaneProcess.step, electionFrom, Server.process, hc,
      Server.accept, hidle] at hnone

theorem over_weight {nodes : Fin n → Server.Node n} (hover : CascadeOver nodes i s)
    (h : ∀ j, CascadeOk j (s.nodes j)) (c : Prices) :
    s.weight c.node c.message .leaderElection = 0 := by
  have hthread : ∀ j t, c.thread j ((s.nodes j).threads t) = 0 := by
    intro j t
    have hheld := over_thread hover (h j) t
    generalize (s.nodes j).threads t = ops at hheld
    cases hheld <;> rfl
  simp [LaneNet.weight, Prices.node, hthread, over_chan hover (h _)]

/-- However its steps are ordered, an election that no wait interrupts comes to an end, and has
then delivered the same messages. -/
theorem election_cascade (nodes : Fin n → Server.Node n) (hidle : AllIdle nodes) (i : Fin n)
    (hr : CascadeReach nodes i s es) :
    es.length + 6 ≤ 7 * 2 ^ (n - 1 - i.val) ∧
    (∀ k a b, .election ∈ s.chan k a b → a < b) ∧
    (CascadeOver nodes i s → deliveries .election es = 2 ^ (n - 1 - i.val) - 1 ∧
      deliveries .alive es = 2 ^ (n - 1 - i.val) - 1) := by
  have hinv : ∀ s es, (electionFrom nodes i).network.traced.Reach
      (fun _ => LaneProcess.within .leaderElection (fun _ node a => cascades node a = true)) s es →
      (∀ j, CascadeOk j (s.nodes j)) ∧ ∀ a b, ∀ m ∈ s.chan .leaderElection a b, Cascades a b m :=
    fun s es hr => ⟨(reach_cascade hidle hr).1,(reach_cascade hidle hr).2 _⟩
  obtain ⟨hnodes,hmsgs⟩ := reach_cascade hidle hr
  refine ⟨?_,?_,fun hover => ?_⟩
  · have hlen := (electionFrom_pays nodes i ⟨1,1,1,1,1,1,1⟩).length_le
      (fun j x a out hx hok ha => Prices.spent_pos hx hok ha)
      (fun a b m hm => by rcases hm with ⟨rfl,-⟩ | ⟨rfl,-⟩ <;> exact Nat.le_refl _) hinv hr
    have hstart := electionFrom_start hidle i ⟨1,1,1,1,1,1,1⟩
    simp only [Prices.total, Prices.election] at hstart
    omega
  · intro k a b hm
    rcases hmsgs k a b _ hm with ⟨-,hab⟩ | ⟨he,-⟩
    · exact hab
    · cases he
  · have hcount : ∀ m : Server.Message n, ∀ c : Prices, (∀ op : Op n, c.ofOp op = 0) →
        (∀ x, c.taken x = if x = m then 1 else 0) → c.restart = 0 → c.total = 1 →
        deliveries m es = 2 ^ (n - 1 - i.val) - 1 := by
      intro m c hspent htaken hrestart htotal
      have hrun := (electionFrom_pays nodes i c).run hinv hr
      rw [over_weight hover hnodes c, deliveries_eq m c hspent htaken] at hrun
      have hstart := electionFrom_start hidle i c
      rw [hrestart, htotal, Prices.election, htotal] at hstart
      omega
    constructor
    · refine hcount .election { receiveElection := 1 } (fun op => ?_) (fun x => ?_) rfl rfl
      · unfold Prices.ofOp
        split <;> rfl
      · cases x <;> rfl
    · refine hcount .alive { receiveAlive := 1 } (fun op => ?_) (fun x => ?_) rfl rfl
      · unfold Prices.ofOp
        split <;> rfl
      · cases x <;> rfl

/-- The cascade of the lower of two servers. -/
def lowerElects (i j : Fin n) : List (Server.Move n) :=
  [.act i (.run (.spawned 0) false 0),.act i (.run (.spawned 0) false 0),
    .receive .leaderElection i j,.act j (.run .electionReceiver false 0),
    .receive .leaderElection j i,.act j (.run .electionReceiver false 0),
    .act i (.run .electionReceiver false 0),.act i (.run (.spawned 1) false 0)]

def cascadeTest (s : Server.Cluster n) : Server.Move n → Bool
  | .act i a => cascades (s.nodes i) a
  | .receive k _ _ => k == .leaderElection

theorem cascadeTest_move {s : Server.Cluster n} (h : cascadeTest s l = true) : CascadeMove s l := by
  cases l with
  | act i a => exact h
  | receive k src dst => simpa [LaneProcess.within, cascadeTest] using h

theorem lowerElects_end : ((electionFrom (initialNode (n := 2) none) 0).network.traced.follow
    (fun _ => cascadeTest) (lowerElects 0 1)
    (electionFrom (initialNode (n := 2) none) 0).network.traced.start []).map
      (fun p => (p.2.length,deliveries .election p.2,deliveries .alive p.2)) =
        some (8,1,1) := by
  decide

theorem election_cascade_lowerElects : ∃ (s : Server.Cluster 2) (es : Trace 2),
    CascadeReach (initialNode none) 0 s es ∧ es.length = 8 ∧
    deliveries .election es = 1 ∧ es.length + 6 ≤ 7 * 2 ^ (2 - 1 - 0) := by
  obtain ⟨s,es,hr,h⟩ := Machine.exists_reach (fun _ _ _ => cascadeTest_move) lowerElects_end
  simp only [Prod.mk.injEq] at h
  have hidle : AllIdle (initialNode (n := 2) none) := fun j => ⟨fun _ => rfl,fun _ => rfl⟩
  exact ⟨s,es,hr,h.1,h.2.1,(election_cascade (initialNode none) hidle 0 hr).1⟩

end Algorep.Proofs
