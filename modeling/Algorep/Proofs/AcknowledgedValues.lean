import Algorep.Kit.Before
import Algorep.Proofs.Replication
import Algorep.Proofs.SubmittedData

namespace Algorep.Proofs
open Kit Program Program.Server

/-- The values SUCCESS has been sent for. -/
def acknowledged (es : Server.History n) : List String :=
  es.filterMap (fun p => match p.2 with
    | .success v => some v
    | .replaced _ _ _ => none)

/-- The history of a run told by its moves. -/
def historyOf (elected : Option (Fin n)) (es : Trace n) : Server.History n :=
  (Server.process elected).network.history es

/-- The ACCEPTED values that node `j` has taken, or that are on their way to it. -/
def onTheWay (j : Fin n) (s : Server.Cluster n) : List String :=
  waitingAt (s.nodes j) ((List.finRange n).flatMap (fun i => s.chan .consensus i j))

/-- The move loses an ACCEPTED to node `j`: one of its two ends has the other marked dead. -/
def dropsAccepted (j : Fin n) (s : Server.Cluster n) : Server.Move n → Bool
  | .act i (.proceed _) =>
    match (s.nodes i).consensus.thread with
    | .accepted _ _ (dst::_) => dst == j && (s.nodes i).dropsFrom i j .consensus
    | _ => false
  | .receive .consensus src dst =>
    dst == j && (s.nodes j).dropsFrom j src .consensus &&
      ((s.chan .consensus src j).head?.bind taughtBy).isSome
  | _ => false

/-- The snapshot the move installs at node `j`, and its sender. -/
def installsAt (j : Fin n) (s : Server.Cluster n) (l : Server.Move n) :
    Option (Fin n × List String) :=
  if mover l = j then (sectionOf s l).bind installs else none

/-- Node `j` has missed an ACCEPTED since it last installed a STATE. -/
def missed (j : Fin n) (es : Trace n) : Bool :=
  latest (fun x =>
    if dropsAccepted j x.1 x.2 then some true
    else if (installsAt j x.1 x.2).isSome then some false
    else none) false es

/-- The value that a server has appended and not acknowledged yet, and the nodes it has still
to send it to. -/
def owing (rank : Fin n) (node : Server.Node n) : Option (String × List (Fin n)) :=
  match node.client with
  | .replicating value =>
    match node.consensus.thread with
    | .logWritten _ => some (value,others rank)
    | .accepted _ _ rest => some (value,rest)
    | .logWait true => some (value,[])
    | _ => none
  | .replying value true => some (value,[])
  | _ => none

/-! Six conditions on a step. None of them is checked by the code, and none of them speaks of
what has been acknowledged. -/

def namesItself (s : Server.Cluster n) (l : Server.Move n) : Bool :=
  (sectionOf s l).bind names == some (mover l)

/-- A node names itself leader only when no ACCEPTED is on its way to it. -/
def electsInformed (s : Server.Cluster n) (l : Server.Move n) : Bool :=
  !namesItself s l || (onTheWay (mover l) s).isEmpty

/-- A node names itself leader only when it has installed a STATE since it last missed
an ACCEPTED. -/
def electsRecovered (es : Trace n) (s : Server.Cluster n) (l : Server.Move n) : Bool :=
  !namesItself s l || !missed (mover l) es

/-- SUCCESS is sent only while no other node names itself leader. -/
def repliesAlone (s : Server.Cluster n) : Server.Move n → Bool
  | .act i .reply => match (s.nodes i).client with
    | .replying _ true => decide (∀ j, (s.nodes j).leaderNodeId = some j → j = i)
    | _ => true
  | _ => true

/-- A STATE is handled only while no node but its sender has a value to acknowledge. -/
def installsAlone (s : Server.Cluster n) (l : Server.Move n) : Bool :=
  match (sectionOf s l).bind installs with
  | some (src,_) => decide (∀ i, i ≠ src → owing i (s.nodes i) = none)
  | none => true

/-- A STATE is handled only while its sender names itself leader. -/
def installsLed (s : Server.Cluster n) (l : Server.Move n) : Bool :=
  match (sectionOf s l).bind installs with
  | some (src,_) => (s.nodes src).leaderNodeId == some src
  | none => true

/-- A STATE is handled only while its sender still has the log it sent. -/
def installsCurrent (s : Server.Cluster n) (l : Server.Move n) : Bool :=
  match (sectionOf s l).bind installs with
  | some (src,state) => (s.nodes src).log == state
  | none => true

inductive Condition
  | electsInformed
  | electsRecovered
  | repliesAlone
  | installsAlone
  | installsLed
  | installsCurrent
deriving DecidableEq

def conditions : List Condition :=
  [.electsInformed,.electsRecovered,.repliesAlone,.installsAlone,.installsLed,.installsCurrent]

def Condition.holds (es : Trace n) (s : Server.Cluster n) (l : Server.Move n) : Condition → Bool
  | .electsInformed => Proofs.electsInformed s l
  | .electsRecovered => Proofs.electsRecovered es s l
  | .repliesAlone => Proofs.repliesAlone s l
  | .installsAlone => Proofs.installsAlone s l
  | .installsLed => Proofs.installsLed s l
  | .installsCurrent => Proofs.installsCurrent s l

def careful (es : Trace n) (s : Server.Cluster n) (l : Server.Move n) : Bool :=
  conditions.all (Condition.holds es s l)

/-- All the conditions but one. -/
def carefulBut (c : Condition) (es : Trace n) (s : Server.Cluster n) (l : Server.Move n) : Bool :=
  conditions.all (fun d => d == c || d.holds es s l)

/-- What reaches node `j` of a value: it is in the log, or on its way there, or node `j` has
yet to make up for what it has missed. -/
def Reaches (es : Trace n) (s : Server.Cluster n) (j : Fin n) (v : String) : Prop :=
  v ∈ (s.nodes j).log ∨ v ∈ onTheWay j s ∨ missed j es = true

/-- `startConsensus` works for the request being served, and its ACCEPTED says so. -/
def Written (value : String) : Consensus.Thread n → Prop
  | .idle | .logWait _ => True
  | .prepare v _ _ | .majorityPromised v | .propose v _ _ | .majorityAccepted v
    | .logWritten v => v = value
  | .accepted v m _ => v = value ∧ acceptedValue m = some value

def Served (node : Server.Node n) : Prop :=
  ∀ value, node.client = .replicating value → Written value node.consensus.thread

structure Kept (elected : Option (Fin n)) (es : Trace n) (s : Server.Cluster n) : Prop where
  requests : ∀ i, Served (s.nodes i)
  owed : ∀ i v rest, owing i (s.nodes i) = some (v,rest) →
    v ∈ (s.nodes i).log ∧ ∀ j, j ∉ rest → Reaches es s j v
  reached : ∀ v ∈ acknowledged (historyOf elected es), ∀ j, Reaches es s j v
  leaders : ∀ i, (s.nodes i).leaderNodeId = some i →
    ∀ v ∈ acknowledged (historyOf elected es), v ∈ (s.nodes i).log

/-- An installed snapshot leaves out nothing acknowledged that the log had. -/
def Spares (p : Fin n × Event n) (before : Server.History n) : Prop :=
  ∀ src old new, p.2 = .replaced src old new → ∀ v ∈ acknowledged before, v ∈ old → v ∈ new

theorem acknowledged_append (es es' : Server.History n) :
    acknowledged (es ++ es') = acknowledged es ++ acknowledged es' :=
  List.filterMap_append

theorem mem_onTheWay {s : Server.Cluster n} : v ∈ onTheWay j s ↔
    (∃ p, (s.nodes j).received = some p ∧ acceptedValue p.2.message = some v) ∨
    ∃ i, ∃ m ∈ s.chan .consensus i j, taughtBy m = some v := by
  simp only [onTheWay, waitingAt, List.mem_append, List.mem_filterMap, Option.mem_toList,
    List.mem_flatMap, List.mem_finRange, true_and]
  refine or_congr Iff.rfl ?_
  constructor
  · rintro ⟨m,⟨i,hm⟩,hv⟩
    exact ⟨i,m,hm,hv⟩
  · rintro ⟨i,m,hm,hv⟩
    exact ⟨m,⟨i,hm⟩,hv⟩

/-! What a step does to the last drop. -/

theorem missed_dropped {s : Server.Cluster n} (es : Trace n) (h : dropsAccepted j s l = true) :
    missed j (es ++ [(s,l)]) = true := by
  simp [missed, latest_append, h]

theorem missed_later {s : Server.Cluster n} {es : Trace n} (h : missed j es = true)
    (hi : installsAt j s l = none) : missed j (es ++ [(s,l)]) = true := by
  rw [missed] at h ⊢
  rw [latest_append, h, latest_cons, latest_nil]
  by_cases hd : dropsAccepted j s l = true <;> simp [hd, hi]

/-! What an action does to the log, to the request being served and to what is owed. -/

theorem acts_log {node : Consensus.Node n} (ha : Acts rank node a out) :
    ∀ v ∈ node.log, v ∈ out.state.log := by
  intro v hv
  cases ha with
  | appended => exact List.mem_append_left _ hv
  | _ => exact hv

theorem handles_log {node : Consensus.Node n} (ha : Handles rank node src packet now out) :
    ∀ v ∈ node.log, v ∈ out.state.log := by
  intro v hv
  rw [handles_copy ha]
  exact List.mem_append_left _ hv

theorem acts_written {node : Consensus.Node n} (ha : Acts rank node (.proceed now) out)
    (hw : Written value node.thread) : Written value out.state.thread := by
  cases ha with
  | sentPrepare v m dst rest ht | proposed v now ht | sentPropose v m dst rest ht
    | appended v ht | sentAccepted v m dst rest ht =>
    rw [ht] at hw
    exact hw
  | promisesSampled v m ht | acceptsSampled v m ht =>
    rw [ht] at hw
    dsimp only
    split
    · exact hw
    · trivial
  | announced v now ht =>
    rw [ht] at hw
    have hv : v = value := hw
    subst hv
    exact ⟨rfl,rfl⟩
  | reached v m ht | returned b ht => trivial

theorem Served.mono {node node' : Server.Node n} (h : Served node)
    (hc : node'.client = node.client)
    (ht : node'.consensus.thread = node.consensus.thread) : Served node' := by
  intro value hv
  rw [ht]
  exact h value (hc ▸ hv)

theorem owing_same {node node' : Server.Node n} (hc : node'.client = node.client)
    (ht : node'.consensus.thread = node.consensus.thread) :
    owing rank node' = owing rank node := by
  simp only [owing, hc, ht]

theorem act_served {node : Server.Node n} (h : Server.act rank node a = some out)
    (hs : Served node) : Served out.state := by
  cases serverActs_of_act h with
  | connects | locks | hangsUp | replies =>
    intro v hc
    contradiction
  | calls value now cout hc ha =>
    intro v hv
    cases ha with
    | called =>
      cases hv
      exact rfl
  | proceeds value now c cout hc ha hd =>
    intro v hv
    rcases hd with ⟨rfl,-⟩ | ⟨b,rfl,-⟩
    · cases hv
      exact acts_written ha (hs value hc)
    · contradiction
  | handles now src packet cout hr ha => exact hs.mono rfl (handles_thread ha)
  | resets cout ha =>
    cases ha with
    | reset => exact hs.mono rfl rfl
  | elects | fails | recovers => exact hs.mono rfl rfl
  | runs t timedOut now op rest ops out' ht he =>
    have hf := exec_frame he
    exact hs.mono hf.client hf.thread

/-- How a server comes to owe the announcing of a value. -/
inductive Owes (rank : Fin n) (node : Server.Node n) (v : String) (rest : List (Fin n)) :
    Server.Action n → Server.Result n → Prop
  | still (ho : owing rank node = some (v,rest)) : Owes rank node v rest a out
  | appended (hr : rest = others rank) (hv : v ∈ out.state.log) : Owes rank node v rest a out
  | sent (now : Nat) (m : Consensus.Message) (dst : Fin n) (call : Nat)
      (ht : node.consensus.thread = .accepted v m (dst::rest)) (hm : acceptedValue m = some v)
      (ho : owing rank node = some (v,dst::rest))
      (hs : out.send = node.send rank dst (.consensus ⟨m,call⟩)) :
      Owes rank node v rest (.proceed now) out

theorem proceed_owes {node : Server.Node n} {client : Client} {out : Consensus.Result n}
    (ha : Acts rank node.consensus (.proceed now) out) (hc : node.client = .replicating value)
    (hs : Written value node.consensus.thread)
    (hd : (client = .replicating value ∧ ∀ b, node.consensus.thread ≠ .logWait b) ∨
      ∃ b, client = .replying value b ∧ node.consensus.thread = .logWait b)
    (ho : owing rank (ofConsensus rank { node with client := client } out).state = some (v,rest)) :
    Owes rank node v rest (.proceed now)
      (ofConsensus rank { node with client := client } out) := by
  rcases hd with ⟨rfl,hno⟩ | ⟨b,rfl,ht⟩
  · cases ha with
    | sentPrepare | proposed | sentPropose => simp [owing, ofConsensus] at ho
    | promisesSampled x m ht =>
      cases hb : Consensus.receivePromises n node.consensus.context <;>
        simp [owing, ofConsensus, hb] at ho
    | acceptsSampled x m ht =>
      cases hb : Consensus.receiveAccepts n node.consensus.context <;>
        simp [owing, ofConsensus, hb] at ho
    | appended x ht =>
      rw [ht] at hs
      have hx : x = value := hs
      subst hx
      simp only [owing, ofConsensus, Option.some.injEq, Prod.mk.injEq] at ho
      obtain ⟨rfl,rfl⟩ := ho
      exact .appended rfl (List.mem_append_right _ List.mem_cons_self)
    | announced x now ht =>
      refine .still ?_
      rw [← ho]
      simp [owing, ofConsensus, hc, ht]
    | sentAccepted x m dst rest' ht =>
      rw [ht] at hs
      simp only [owing, ofConsensus, Option.some.injEq, Prod.mk.injEq] at ho
      obtain ⟨rfl,rfl⟩ := ho
      obtain ⟨rfl,hm⟩ := hs
      exact .sent _ m dst _ ht hm (by simp [owing, hc, ht]) rfl
    | reached x m ht =>
      refine .still ?_
      rw [← ho]
      simp [owing, ofConsensus, hc, ht]
    | returned b ht => exact absurd ht (hno b)
  · refine .still ?_
    rw [← ho]
    cases b <;> simp [owing, ofConsensus, hc, ht]

theorem act_owes {node : Server.Node n} (h : Server.act rank node a = some out)
    (hs : Served node) (ho : owing rank out.state = some (v,rest)) : Owes rank node v rest a out := by
  cases serverActs_of_act h with
  | connects | locks | hangsUp | replies => contradiction
  | calls value now cout hc ha =>
    cases ha with
    | called => simp [owing, ofConsensus] at ho
  | proceeds value now c cout hc ha hd => exact proceed_owes ha hc (hs value hc) hd ho
  | handles now src packet cout hr ha =>
    refine .still ?_
    rw [← ho]
    symm
    apply owing_same
    · rfl
    · exact handles_thread ha
  | resets cout ha =>
    cases ha with
    | reset => exact .still ho
  | elects | fails | recovers => exact .still ho
  | runs t timedOut now op rest ops out' ht he =>
    have hf := exec_frame he
    exact .still ((owing_same hf.client hf.thread).symm.trans ho)

theorem act_log {node : Server.Node n} (h : Server.act rank node a = some out)
    (hv : v ∈ node.log)
    (hi : ∀ src state, (sectionAt node a).bind installs = some (src,state) → v ∈ state) :
    v ∈ out.state.log := by
  cases serverActs_of_act h with
  | connects | locks | replies | hangsUp | elects | fails | recovers => exact hv
  | calls value now cout hc ha => exact acts_log ha v hv
  | proceeds value now c cout hc ha hd => exact acts_log ha v hv
  | handles now src packet cout hr ha => exact handles_log ha v hv
  | resets cout ha => exact acts_log ha v hv
  | runs t timedOut now op rest ops out' ht he =>
    rw [Server.Node.setThread_log, (exec_frame he).log]
    cases hop : installs op with
    | none => exact hv
    | some p => exact hi p.1 p.2 (by simp [sectionAt, ht, hop])

/-- A taken ACCEPTED waits to be handled, and its value is appended then. -/
theorem act_received {node : Server.Node n} (h : Server.act rank node a = some out)
    (hr : node.received = some p) (hv : acceptedValue p.2.message = some v) :
    out.state.received = some p ∨ v ∈ out.state.log := by
  cases serverActs_of_act h with
  | connects | locks | replies | hangsUp | elects | fails | recovers | calls | proceeds | resets =>
    exact .inl hr
  | handles now src packet cout hr' ha =>
    rw [hr] at hr'
    cases hr'
    have hlog : v ∈ cout.state.log := by simp [handles_copy ha, hv]
    exact .inr hlog
  | runs t timedOut now op rest ops out' ht he =>
    left
    rw [Server.Node.setThread_received, (exec_consensus he).2]
    exact hr

/-- What an action adds to the history. -/
inductive Recounts (node : Server.Node n) (a : Server.Action n) : List (Event n) → Prop
  | nothing : Recounts node a []
  | success (v : String) (ha : a = .reply) (hc : node.client = .replying v true) :
      Recounts node a [.success v]
  | replaced (p : Fin n × List String) (hop : (sectionAt node a).bind installs = some p) :
      Recounts node a [.replaced p.1 node.log p.2]

theorem act_events {node : Server.Node n} (h : Server.act rank node a = some out) :
    Recounts node a out.events := by
  cases serverActs_of_act h with
  | replies value b hc =>
    cases b with
    | true => exact .success value rfl hc
    | false => exact .nothing
  | runs t timedOut now op rest ops out' ht he =>
    dsimp only
    rw [(exec_frame he).events]
    cases hop : installs op with
    | none => exact .nothing
    | some p => exact .replaced p (by simp [sectionAt, ht, hop])
  | _ => exact .nothing

/-! What a step of the cluster does to what reaches a node. -/

section Step
variable {s t : Server.Cluster n} {es : Trace n}

theorem step_log (hs : (Server.process elected).Step s l t e) (hv : v ∈ (s.nodes j).log)
    (hi : ∀ src state, installsAt j s l = some (src,state) → v ∈ state) :
    v ∈ (t.nodes j).log := by
  cases hs with
  | act i a out ho =>
    by_cases hj : j = i
    · subst hj
      rw [LaneNet.commit_self]
      refine act_log ho hv ?_
      intro src state hop
      exact hi src state (by rw [installsAt, mover, if_pos rfl, sectionOf_act, hop])
    · rw [LaneNet.commit_other _ _ _ hj]
      exact hv
  | receive k src dst m rest x hc hx =>
    by_cases hj : j = dst
    · subst hj
      rw [LaneNet.take_self, Server.Node.log, (accept_frame hx).2.2]
      exact hv
    · rw [LaneNet.take_other _ _ _ _ _ hj]
      exact hv

/-- A STATE replaces the log. -/
theorem step_installs (hs : (Server.process elected).Step s l t e)
    (hi : installsAt j s l = some p) : (t.nodes j).log = p.2 := by
  cases hs with
  | act i a out ho =>
    simp only [installsAt, mover, sectionOf_act, Option.ite_none_right_eq_some] at hi
    obtain ⟨rfl,hi⟩ := hi
    obtain ⟨op,hop,hp⟩ := Option.bind_eq_some_iff.mp hi
    rw [LaneNet.commit_self]
    cases serverActs_of_act ho with
    | runs u timedOut now op' rest ops out' ht he =>
      have heq : op' = op := by simpa [sectionAt, ht] using hop
      subst heq
      rw [Server.Node.setThread_log, (exec_frame he).log, hp]
      rfl
    | _ => contradiction
  | receive k src dst m rest x hc hx => simp [installsAt, sectionOf] at hi

/-- A value on its way stays so until it is appended or its ACCEPTED is dropped. -/
theorem step_onTheWay (hs : (Server.process elected).Step s l t e) (hv : v ∈ onTheWay j s) :
    v ∈ onTheWay j t ∨ v ∈ (t.nodes j).log ∨ dropsAccepted j s l = true := by
  rw [mem_onTheWay] at hv ⊢
  cases hs with
  | act i a out ho =>
    rcases hv with ⟨p,hr,hp⟩ | ⟨i',m,hm,hmv⟩
    · by_cases hj : j = i
      · subst hj
        rw [LaneNet.commit_self]
        rcases act_received ho hr hp with hr | hlog
        · exact .inl (.inl ⟨p,hr,hp⟩)
        · exact .inr (.inl hlog)
      · rw [LaneNet.commit_other _ _ _ hj]
        exact .inl (.inl ⟨p,hr,hp⟩)
    · refine .inl (.inr ⟨i',m,?_,hmv⟩)
      rw [LaneNet.commit]
      dsimp only
      split
      · exact List.mem_append_left _ hm
      · exact hm
  | receive k src dst m rest x hc hx =>
    rcases hv with ⟨p,hr,hp⟩ | ⟨i,m',hm,hmv⟩
    · by_cases hj : j = dst
      · subst hj
        rw [LaneNet.take_self]
        cases accepts_of_accept hx with
        | dropped | election | failure => exact .inl (.inl ⟨p,hr,hp⟩)
        | consensus src packet hnone => simp [hr] at hnone
      · rw [LaneNet.take_other _ _ _ _ _ hj]
        exact .inl (.inl ⟨p,hr,hp⟩)
    · by_cases he : .consensus = k ∧ i = src ∧ j = dst
      · obtain ⟨rfl,rfl,rfl⟩ := he
        rw [hc] at hm
        rcases List.mem_cons.mp hm with rfl | hm
        · rw [LaneNet.take_self]
          cases accepts_of_accept hx with
          | dropped _ _ _ hd => exact .inr (.inr (by simp [dropsAccepted, hd, hc, hmv]))
          | consensus _ packet => exact .inl (.inl ⟨_,rfl,hmv⟩)
        · refine .inl (.inr ⟨i,m',?_,hmv⟩)
          rw [LaneNet.take_chan, if_pos ⟨rfl,rfl,rfl⟩]
          exact hm
      · refine .inl (.inr ⟨i,m',?_,hmv⟩)
        rw [LaneNet.take_chan, if_neg he]
        exact hm

theorem reaches_step (hs : (Server.process elected).Step s l t e) (hv : Reaches es s j v)
    (hi : ∀ src state, installsAt j s l = some (src,state) → v ∈ state) :
    Reaches (es ++ [(s,l)]) t j v := by
  rcases hv with hv | hv | hv
  · exact .inl (step_log hs hv hi)
  · rcases step_onTheWay hs hv with hv | hv | hv
    · exact .inr (.inl hv)
    · exact .inl hv
    · exact .inr (.inr (missed_dropped es hv))
  · cases hop : installsAt j s l with
    | none => exact .inr (.inr (missed_later hv hop))
    | some p =>
      left
      have hlog := step_installs hs hop
      rw [hlog]
      exact hi p.1 p.2 hop

/-- What has been sent is on its way, or has been dropped. -/
theorem reaches_sent (hs : (Server.process elected).Step s (.act i (.proceed now)) t e)
    (ho : Server.act i (s.nodes i) (.proceed now) = some out)
    (ht : (s.nodes i).consensus.thread = .accepted v m (dst::rest))
    (hm : acceptedValue m = some v)
    (hsend : out.send = (s.nodes i).send i dst (.consensus ⟨m,call⟩)) :
    Reaches (es ++ [(s,.act i (.proceed now))]) t dst v := by
  by_cases hd : (s.nodes i).dropsFrom i dst .consensus = true
  · exact .inr (.inr (missed_dropped es (by simp [dropsAccepted, ht, hd])))
  · right
    left
    have hout : out.send = some (dst,.consensus ⟨m,call⟩) := by
      rw [hsend, Server.Node.send]
      exact if_neg hd
    exact mem_onTheWay.mpr (.inr ⟨i,_,hs.sent ho hout,hm⟩)

/-! What the conditions say of a step. -/

theorem careful_holds (h : careful es s l = true) (c : Condition) : c.holds es s l = true :=
  List.all_eq_true.mp h c (by cases c <;> simp [conditions])

theorem careful_names (h : careful es s l = true) (hn : (sectionOf s l).bind names = some (mover l)) :
    onTheWay (mover l) s = [] ∧ missed (mover l) es = false := by
  have hinformed : electsInformed s l = true := careful_holds h .electsInformed
  have hrecovered : electsRecovered es s l = true := careful_holds h .electsRecovered
  simp only [electsInformed, namesItself, hn] at hinformed
  simp only [electsRecovered, namesItself, hn] at hrecovered
  exact ⟨by simpa using hinformed,by simpa using hrecovered⟩

theorem careful_replies (h : careful es s (.act i .reply) = true)
    (hc : (s.nodes i).client = .replying v true) :
    ∀ j, (s.nodes j).leaderNodeId = some j → j = i := by
  have halone : repliesAlone s (.act i .reply) = true := careful_holds h .repliesAlone
  simpa only [repliesAlone, hc, decide_eq_true_eq] using halone

theorem careful_installs (h : careful es s l = true) (hi : installsAt j s l = some (src,state)) :
    (∀ i, i ≠ src → owing i (s.nodes i) = none) ∧
    (s.nodes src).leaderNodeId = some src ∧ (s.nodes src).log = state := by
  have halone : installsAlone s l = true := careful_holds h .installsAlone
  have hled : installsLed s l = true := careful_holds h .installsLed
  have hcurrent : installsCurrent s l = true := careful_holds h .installsCurrent
  rw [installsAt, Option.ite_none_right_eq_some] at hi
  simp only [installsAlone, hi.2, decide_eq_true_eq] at halone
  simp only [installsLed, hi.2, beq_iff_eq] at hled
  simp only [installsCurrent, hi.2, beq_iff_eq] at hcurrent
  exact ⟨halone,hled,hcurrent⟩

/-! What a step of a careful run keeps. -/

theorem Kept.spares_owed (hk : Kept elected es s) (hok : careful es s l = true)
    (ho : owing i (s.nodes i) = some (v,rest)) :
    ∀ src state, installsAt j s l = some (src,state) → v ∈ state := by
  intro src state hi
  obtain ⟨halone,-,rfl⟩ := careful_installs hok hi
  have hsrc : i = src := by
    apply Classical.byContradiction
    intro hne
    rw [halone i hne] at ho
    contradiction
  subst hsrc
  exact (hk.owed i v rest ho).1

theorem Kept.spares_acknowledged (hk : Kept elected es s) (hok : careful es s l = true)
    (hv : v ∈ acknowledged (historyOf elected es)) :
    ∀ src state, installsAt j s l = some (src,state) → v ∈ state := by
  intro src state hi
  obtain ⟨-,hlead,rfl⟩ := careful_installs hok hi
  exact hk.leaders src hlead v hv

theorem Kept.still_owed (hk : Kept elected es s) (hok : careful es s l = true)
    (hs : (Server.process elected).Step s l t e)
    (ho : owing i (s.nodes i) = some (v,rest)) :
    v ∈ (t.nodes i).log ∧ ∀ j, j ∉ rest → Reaches (es ++ [(s,l)]) t j v := by
  obtain ⟨hlog,hreach⟩ := hk.owed i v rest ho
  exact ⟨step_log hs hlog (hk.spares_owed hok ho),
    fun j hj => reaches_step hs (hreach j hj) (hk.spares_owed hok ho)⟩

theorem Kept.step_owed (hk : Kept elected es s) (hok : careful es s l = true)
    (hs : (Server.process elected).Step s l t e)
    (ho : owing i (t.nodes i) = some (v,rest)) :
    v ∈ (t.nodes i).log ∧ ∀ j, j ∉ rest → Reaches (es ++ [(s,l)]) t j v := by
  cases hs with
  | act i' a out hact =>
    have hstep : (Server.process elected).Step s (.act i' a) _ _ := .act i' a out hact
    by_cases hi : i = i'
    · subst hi
      rw [LaneNet.commit_self] at ho
      cases act_owes hact (hk.requests i) ho with
      | still ho => exact hk.still_owed hok hstep ho
      | appended hr hv =>
        subst hr
        have hlog : v ∈ ((s.commit (Server.process elected).lane i out).nodes i).log := by
          rw [LaneNet.commit_self]
          exact hv
        refine ⟨hlog,fun j hj => .inl ?_⟩
        have hji : j = i := by simpa using hj
        subst hji
        exact hlog
      | sent now m dst call ht hm ho hsend =>
        obtain ⟨hlog,hreach⟩ := hk.still_owed hok hstep ho
        refine ⟨hlog,fun j hj => ?_⟩
        by_cases hd : j = dst
        · subst hd
          exact reaches_sent hstep hact ht hm hsend
        · exact hreach j (by simp [hd, hj])
    · rw [LaneNet.commit_other _ _ _ hi] at ho
      exact hk.still_owed hok hstep ho
  | receive k src dst m rest' x hc hx =>
    have hstep : (Server.process elected).Step s (.receive k src dst) _ _ :=
      .receive k src dst m rest' x hc hx
    refine hk.still_owed hok hstep ?_
    rw [← ho]
    by_cases hi : i = dst
    · subst hi
      obtain ⟨-,hclient,hcons⟩ := accept_frame hx
      rw [LaneNet.take_self, owing_same hclient (by rw [hcons])]
    · rw [LaneNet.take_other _ _ _ _ _ hi]

theorem step_served (hs : (Server.process elected).Step s l t e)
    (h : ∀ i, Served (s.nodes i)) (i : Fin n) : Served (t.nodes i) := by
  cases hs with
  | act j a out ho =>
    by_cases hi : i = j
    · subst hi
      rw [LaneNet.commit_self]
      exact act_served ho (h i)
    · rw [LaneNet.commit_other _ _ _ hi]
      exact h i
  | receive k src dst m rest x hc hx =>
    by_cases hi : i = dst
    · subst hi
      obtain ⟨-,hclient,hcons⟩ := accept_frame hx
      rw [LaneNet.take_self]
      exact (h i).mono hclient (by rw [hcons])
    · rw [LaneNet.take_other _ _ _ _ _ hi]
      exact h i

/-- What a step adds to the history of a careful run. -/
theorem Kept.step_events (hk : Kept elected es s) (hok : careful es s l = true)
    (hs : (Server.process elected).Step s l t e) :
    e.length ≤ 1 ∧ (∀ x ∈ e, Spares x (historyOf elected es)) ∧
    ∀ v ∈ acknowledged e, ∃ i, l = .act i .reply ∧ (s.nodes i).client = .replying v true := by
  cases hs with
  | receive => simp [acknowledged]
  | act i a out ho =>
    have hadds := act_events ho
    generalize out.events = events at hadds
    cases hadds with
    | nothing => simp [acknowledged]
    | success v ha hc =>
      subst ha
      refine ⟨by simp,by simp [Spares],?_⟩
      intro w hw
      have he : w = v := by simpa [acknowledged] using hw
      exact ⟨i,rfl,he ▸ hc⟩
    | replaced p hop =>
      refine ⟨by simp,?_,by simp [acknowledged]⟩
      intro x hx src old new he v hv _
      rw [List.map_cons, List.map_nil, List.mem_singleton] at hx
      subst hx
      cases he
      refine hk.spares_acknowledged (j := i) hok hv p.1 p.2 ?_
      rw [installsAt, mover, if_pos rfl, sectionOf_act, hop]

/-- Who names itself leader after a step did so before, or names itself now. -/
theorem step_names (hs : (Server.process elected).Step s l t e)
    (hl : (t.nodes i).leaderNodeId = some i) : (s.nodes i).leaderNodeId = some i ∨
      (mover l = i ∧ (sectionOf s l).bind names = some i) := by
  rw [step_leader hs i] at hl
  split at hl
  · rename_i hm
    cases hop : sectionOf s l with
    | none =>
      rw [hop] at hl
      exact .inl hl
    | some op =>
      rw [hop, Option.map_some, Option.getD_some] at hl
      unfold leaderAfter at hl
      split at hl
      · contradiction
      · exact .inr ⟨hm,hl⟩
      · exact .inr ⟨hm,hl⟩
      · exact .inl hl
  · exact .inl hl

theorem Kept.step (hk : Kept elected es s) (hok : careful es s l = true)
    (hs : (Server.process elected).Step s l t e)
    (he : historyOf elected (es ++ [(s,l)]) = historyOf elected es ++ e) :
    Kept elected (es ++ [(s,l)]) t := by
  obtain ⟨-,-,hnew⟩ := hk.step_events hok hs
  refine ⟨step_served hs hk.requests,fun i v rest ho => hk.step_owed hok hs ho,?_,?_⟩
  · intro v hv j
    rw [he, acknowledged_append, List.mem_append] at hv
    rcases hv with hv | hv
    · exact reaches_step hs (hk.reached v hv j) (hk.spares_acknowledged hok hv)
    · obtain ⟨i,rfl,hc⟩ := hnew v hv
      have ho : owing i (s.nodes i) = some (v,[]) := by simp [owing, hc]
      exact (hk.still_owed hok hs ho).2 j List.not_mem_nil
  · intro i hl v hv
    rw [he, acknowledged_append, List.mem_append] at hv
    have hbefore := step_names hs hl
    rcases hv with hv | hv
    · refine step_log hs ?_ (hk.spares_acknowledged hok hv)
      rcases hbefore with hl | ⟨rfl,hn⟩
      · exact hk.leaders i hl v hv
      · obtain ⟨hway,hmissed⟩ := careful_names hok hn
        have hreach := hk.reached v hv (mover l)
        simpa [Reaches, hway, hmissed] using hreach
    · obtain ⟨i',rfl,hc⟩ := hnew v hv
      have ho : owing i' (s.nodes i') = some (v,[]) := by simp [owing, hc]
      rcases hbefore with hl | ⟨-,hn⟩
      · obtain rfl := careful_replies hok hc i hl
        exact (hk.still_owed hok hs ho).1
      · contradiction

end Step

/-- Along careful runs an acknowledged value is in the log of every node that names itself
leader, and no installed snapshot removes it from any log. -/
theorem acknowledged_kept (elected : Option (Fin n)) (s : Server.Cluster n) (es : Trace n)
    (hr : TraceReach elected (fun es s l => careful es s l = true) s es) :
    (∀ v ∈ acknowledged (historyOf elected es), ∀ i,
      (s.nodes i).leaderNodeId = some i → v ∈ (s.nodes i).log) ∧
    Preceded Spares (historyOf elected es) := by
  suffices h : Kept elected es s ∧ Preceded Spares (historyOf elected es) from
    ⟨fun v hv i hi => h.1.leaders i hi v hv,h.2⟩
  induction hr with
  | start =>
    refine ⟨⟨fun i v hc => ?_,fun i v rest ho => ?_,fun v hv => ?_,fun i hl v hv => ?_⟩,.nil⟩ <;>
      contradiction
  | @step s es l t x hr hok hs ih =>
    obtain ⟨hk,hp⟩ := ih
    obtain ⟨rfl,e,he⟩ := Machine.traced_step hs
    have hstep := LaneProcess.step_of_eq he
    have hhist : historyOf elected (es ++ [(s,l)]) = historyOf elected es ++ e :=
      Machine.history_concat es he
    obtain ⟨hone,hspares,-⟩ := hk.step_events hok hstep
    refine ⟨hk.step hok hstep hhist,?_⟩
    rw [hhist]
    exact hp.append_one hone hspares

/-- The history of a run, and the leader and the log of node `i` at its end. -/
def look (elected : Option (Fin n)) (i : Fin n) (r : Server.Cluster n × Trace n) :
    Server.History n × Option (Fin n) × List String :=
  (historyOf elected r.2,(r.1.nodes i).leaderNodeId,(r.1.nodes i).log)

/-- `p` has marked `q` dead and acknowledges "v", which `q` misses. `p` recovers `q`. Then `q` is
elected, and recovers `p`. -/
def electedAfter (p q : Fin n) : List (Server.Move n) :=
  Move.marksDead p q 0 ++ Move.request p "v" 10 ++ Move.proceeds p 10 10 ++
  [.act p .reply,.act p .disconnect] ++ Move.sendsState p q 1 20 ++ Move.failure p q 2 ++
  Move.failure q p 6 ++ Move.sections p (.spawned 1) 2 20 ++ Move.marksDead q p 0 ++
  Move.sections q (.spawned 1) 5 30 ++ Move.sendsState q p 2 40 ++ Move.failure q p 1

theorem electedAfter_end : traceOutcome (n := 2) (some 0) careful (electedAfter 0 1)
    (look (some 0) 1) = some ([(0,.success "v"),(1,.replaced 0 [] ["v"]),
      (0,.replaced 1 ["v"] ["v"])],some 1,["v"]) := by
  decide

theorem acknowledged_kept_electedAfter : ∃ (s : Server.Cluster 2) (es : Trace 2),
    TraceReach (some 0) (fun es s l => careful es s l = true) s es ∧
    acknowledged (historyOf (some 0) es) = ["v"] ∧ (s.nodes 1).leaderNodeId = some 1 ∧
    "v" ∈ (s.nodes 1).log ∧ Preceded Spares (historyOf (some 0) es) := by
  obtain ⟨s,es,hr,h⟩ := Machine.exists_reach (fun _ _ _ h => h) electedAfter_end
  obtain ⟨hes,h⟩ := Prod.mk.inj h
  have hlead : (s.nodes 1).leaderNodeId = some 1 := (Prod.mk.inj h).1
  obtain ⟨hkept,hspares⟩ := acknowledged_kept (some 0) s es hr
  have hv : acknowledged (historyOf (some 0) es) = ["v"] := by
    rw [hes]
    rfl
  exact ⟨s,es,hr,hv,hlead,hkept "v" (by simp [hv]) 1 hlead,hspares⟩

/-- `r` is elected and acknowledges "v" with the help of `q`, whose log does not have it yet.
Then `q` is elected, and installs its own log at `r`. -/
def electedBehind (p q r : Fin n) : List (Server.Move n) :=
  [.act r .startElection] ++ Move.sections r (.spawned 0) 7 0 ++ Move.election r p ++
  Move.election r q ++ Move.request r "v" 10 ++ Move.proceeds r 2 10 ++
  Move.consensus r q 10 ++ Move.consensus q r 10 ++ Move.proceeds r 4 15 ++
  Move.consensus r q 15 ++ Move.consensus q r 15 ++ Move.proceeds r 7 20 ++
  [.act r .reply] ++ Move.marksDead q r 0 ++ Move.sections q (.spawned 1) 7 30 ++
  Move.sendsState q r 2 40 ++ Move.failure q r 1

/-- `p` has marked `q` dead and acknowledges "v", which `q` misses. Then `q` is elected. -/
def electedMissing (p q : Fin n) : List (Server.Move n) :=
  Move.marksDead p q 0 ++ Move.request p "v" 10 ++ Move.proceeds p 10 10 ++ [.act p .reply] ++
  Move.marksDead q p 0 ++ Move.sections q (.spawned 1) 5 20

/-- `q` is elected while `p` is about to announce "v". -/
def electedTwice (p q : Fin n) : List (Server.Move n) :=
  Move.request p "v" 10 ++ Move.proceeds p 5 10 ++ Move.marksDead q p 0 ++
  Move.sections q (.spawned 1) 5 20 ++ Move.proceeds p 5 20 ++ [.act p .reply]

/-- `q` leads for a while and installs its log at `p`, which is about to announce "v". -/
def installedServing (p q : Fin n) : List (Server.Move n) :=
  Move.request p "v" 10 ++ Move.proceeds p 6 10 ++ Move.marksDead q p 0 ++
  Move.sections q (.spawned 1) 5 20 ++ Move.sendsState q p 2 30 ++ Move.failure q p 1 ++
  [.act q .startElection] ++ Move.sections q (.spawned 3) 1 40 ++ Move.proceeds p 4 40 ++
  [.act p .reply]

/-- `q` leads and sends `p` its log. `p` handles it once it has replaced `q` and
acknowledged "v". -/
def installedLate (p q : Fin n) : List (Server.Move n) :=
  Move.marksDead q p 0 ++ Move.sendsState q p 1 10 ++ [.act q .startElection] ++
  Move.sections q (.spawned 2) 1 20 ++ Move.marksDead p q 0 ++
  Move.sections p (.spawned 1) 7 20 ++ Move.request p "v" 20 ++ Move.proceeds p 10 20 ++
  [.act p .reply] ++ Move.failure q p 1

/-- `p` sends `q` its log and acknowledges "v", which `q` misses. `q` handles the STATE and
is elected. -/
def installedStale (p q : Fin n) : List (Server.Move n) :=
  Move.marksDead p q 0 ++ Move.sendsState p q 1 10 ++ Move.sections p (.spawned 1) 2 10 ++
  Move.request p "v" 20 ++ Move.proceeds p 10 20 ++ [.act p .reply] ++ Move.failure p q 1 ++
  Move.marksDead q p 0 ++ Move.sections q (.spawned 1) 5 30

theorem electedBehind_end : traceOutcome (n := 3) none (carefulBut .electsInformed)
    (electedBehind 0 1 2) (look none 1) =
      some ([(2,.success "v"),(2,.replaced 1 ["v"] [])],some 1,[]) := by
  decide

theorem electedMissing_end : traceOutcome (n := 2) (some 0) (carefulBut .electsRecovered)
    (electedMissing 0 1) (look (some 0) 1) = some ([(0,.success "v")],some 1,[]) := by
  decide

theorem electedTwice_end : traceOutcome (n := 2) (some 0) (carefulBut .repliesAlone)
    (electedTwice 0 1) (look (some 0) 1) = some ([(0,.success "v")],some 1,[]) := by
  decide

theorem installedServing_end : traceOutcome (n := 2) (some 0) (carefulBut .installsAlone)
    (installedServing 0 1) (look (some 0) 0) =
      some ([(0,.replaced 1 ["v"] []),(0,.success "v")],some 0,[]) := by
  decide

theorem installedLate_end : traceOutcome (n := 2) (some 1) (carefulBut .installsLed)
    (installedLate 0 1) (look (some 1) 0) =
      some ([(0,.success "v"),(0,.replaced 1 ["v"] [])],some 0,[]) := by
  decide

theorem installedStale_end : traceOutcome (n := 2) (some 0) (carefulBut .installsCurrent)
    (installedStale 0 1) (look (some 0) 1) =
      some ([(0,.success "v"),(1,.replaced 0 [] [])],some 1,[]) := by
  decide

/-- Some node names itself leader without some acknowledged value. -/
def Loses (es : Server.History n) (s : Server.Cluster n) : Prop :=
  ∃ v ∈ acknowledged es, ∃ i, (s.nodes i).leaderNodeId = some i ∧ v ∉ (s.nodes i).log

/-- Some run that meets all the conditions but one loses an acknowledged value. -/
def LosesWithout (c : Condition) (n : Nat) (elected : Option (Fin n)) : Prop :=
  ∃ (s : Server.Cluster n) (es : Trace n),
    TraceReach elected (fun es s l => carefulBut c es s l = true) s es ∧
    Loses (historyOf elected es) s

/-- Some such run installs a snapshot that leaves out an acknowledged value. -/
def RemovesWithout (c : Condition) (n : Nat) (elected : Option (Fin n)) : Prop :=
  ∃ (s : Server.Cluster n) (es : Trace n),
    TraceReach elected (fun es s l => carefulBut c es s l = true) s es ∧
    ¬ Preceded Spares (historyOf elected es)

theorem losesWithout_of_end {moves : List (Server.Move n)}
    (h : traceOutcome elected (carefulBut c) moves (look elected i) = some (es,some i,[]))
    (hv : v ∈ acknowledged es) : LosesWithout c n elected := by
  obtain ⟨s,es',hr,hlook⟩ := Machine.exists_reach (fun _ _ _ h => h) h
  simp only [look, Prod.mk.injEq] at hlook
  obtain ⟨rfl,hl,hlog⟩ := hlook
  exact ⟨s,es',hr,v,hv,i,hl,by simp [hlog]⟩

theorem removesWithout_of_end {moves : List (Server.Move n)}
    (h : traceOutcome elected (carefulBut c) moves (look elected i) =
      some ([(j,.success "v"),(j,.replaced k ["v"] [])],x)) : RemovesWithout c n elected := by
  obtain ⟨s,es,hr,hlook⟩ := Machine.exists_reach (fun _ _ _ h => h) h
  refine ⟨s,es,hr,?_⟩
  rw [(Prod.mk.inj hlook).1]
  intro hp
  have hmem := hp [(j,.success "v")] _ [] rfl k ["v"] [] rfl "v" (by simp [acknowledged])
  simp at hmem

/-- Each of the six conditions left out alone loses an acknowledged value. -/
theorem acknowledged_lost :
    LosesWithout .electsInformed 3 none ∧ RemovesWithout .electsInformed 3 none ∧
    LosesWithout .electsRecovered 2 (some 0) ∧ LosesWithout .repliesAlone 2 (some 0) ∧
    LosesWithout .installsAlone 2 (some 0) ∧
    LosesWithout .installsLed 2 (some 1) ∧ RemovesWithout .installsLed 2 (some 1) ∧
    LosesWithout .installsCurrent 2 (some 0) :=
  ⟨losesWithout_of_end electedBehind_end List.mem_cons_self,
    removesWithout_of_end electedBehind_end,
    losesWithout_of_end electedMissing_end List.mem_cons_self,
    losesWithout_of_end electedTwice_end List.mem_cons_self,
    losesWithout_of_end installedServing_end List.mem_cons_self,
    losesWithout_of_end installedLate_end List.mem_cons_self,
    removesWithout_of_end installedLate_end,
    losesWithout_of_end installedStale_end List.mem_cons_self⟩

end Algorep.Proofs
