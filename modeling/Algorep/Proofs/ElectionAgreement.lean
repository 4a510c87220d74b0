import Algorep.Kit.Before
import Algorep.Proofs.ElectionSteps

namespace Algorep.Proofs
open Kit Program Program.Server

/-- No node is taken for dead. -/
def suspectsNobody : Server.Move n → Bool
  | .act _ (.detectFailure _) => false
  | _ => true

/-- The sections of the election manager. -/
def electionOp : Op n → Bool
  | .handleMessage _ message | .send _ message => message.tag == .leaderElection
  | .restartElection | .waitForVictory | .declareIfNoLeader | .enableClientConn
  | .setLeaderNodeId _ | .setAliveReceived _ | .broadcastIfNoLeader => true
  | _ => false

/-- The state of a cluster in which nobody is ever taken for dead: the failure manager has
nothing to do. -/
structure Unsuspected (s : Server.Cluster n) : Prop where
  threads : ∀ i t, ∀ x ∈ (s.nodes i).threads t, t ≠ .failureReceiver ∧ electionOp x = true
  linked : ∀ i j, (s.nodes i).processIsAlive j = true
  alive : ∀ i j, (s.nodes i).isAlive j = true
  carried : ∀ k a b, ∀ m ∈ s.chan k a b, m.tag ≠ .failureDetection

theorem dropsFrom_linked {node : Server.Node n} (h : ∀ j, node.processIsAlive j = true)
    (rank j : Fin n) (tag : MessageTag) : node.dropsFrom rank j tag = false := by
  simp [Server.Node.dropsFrom, messageShouldDrop, h]

theorem continues_electionOp {node : Server.Node n} (h : Continues rank node op x)
    (ho : electionOp op = true) : electionOp x = true := by
  cases h with
  | answered src hx | again hl hx =>
    rcases mem_broadcastElection hx with rfl | ⟨j,rfl⟩ <;> rfl
  | declared hl hx =>
    rcases List.mem_append.mp hx with hx | hx
    · rcases mem_declareVictory hx with ⟨j,rfl⟩ | rfl <;> rfl
    · rw [List.mem_singleton.mp hx]
      rfl
  | installed | updated | recovered | recovering | read | checked =>
    simp [electionOp, Server.Message.tag] at ho

/-- Only a suspicion detaches threads of the failure manager. -/
theorem newThread_electionOp {node : Server.Node n} (hn : newThread rank node a = some ops)
    (ha : ∀ j, a ≠ .detectFailure j ∧ a ≠ .detectRecovery j) (hx : x ∈ ops) :
    electionOp x = true := by
  rcases newThread_cases hn with rfl | rfl | ⟨j,hj,-⟩ | ⟨j,hj,-⟩
  · simp only [aliveWait, List.mem_cons, List.not_mem_nil, or_false] at hx
    rcases hx with rfl | rfl | rfl <;> rfl
  · rcases List.mem_append.mp hx with hx | hx
    · rcases mem_broadcastElection hx with rfl | ⟨j,rfl⟩ <;> rfl
    · simp only [List.mem_cons, List.not_mem_nil, or_false] at hx
      rcases hx with rfl | rfl <;> rfl
  · exact absurd hj (ha j).1
  · exact absurd hj (ha j).2

theorem statusAfter_electionOp {node : Server.Node n} (ho : electionOp op = true) :
    statusAfter node op = node.processIsAlive ∧ isAliveAfter node op = node.isAlive := by
  cases op <;> first | exact ⟨rfl,rfl⟩ | simp [electionOp] at ho

theorem sends_electionOp {node : Server.Node n} (ho : electionOp op = true)
    (hs : sends rank node op = some (dst,m)) : m.tag = .leaderElection := by
  cases op with
  | handleMessage src x =>
    cases x with
    | election =>
      simp only [sends, Server.Node.send, Option.ite_none_left_eq_some, Option.some.injEq,
        Prod.mk.injEq] at hs
      rw [← hs.2.2]
      rfl
    | _ => simp [sends] at hs
  | send j x =>
    simp only [sends, Server.Node.send, Option.ite_none_left_eq_some, Option.some.injEq,
      Prod.mk.injEq] at hs
    simpa [electionOp, hs.2.2] using ho
  | _ => simp [sends] at hs

/-- Without a suspicion no recovery starts either. -/
theorem Unsuspected.idle {s : Server.Cluster n} (hs : Unsuspected s)
    (hok : suspectsNobody (.act i a) = true) (ho : Server.act i (s.nodes i) a = some out) :
    ∀ j, a ≠ .detectFailure j ∧ a ≠ .detectRecovery j := by
  intro j
  constructor
  · rintro rfl
    simp [suspectsNobody] at hok
  · rintro rfl
    simp [Server.act, detectRecovery, hs.alive] at ho

theorem Unsuspected.runs {s : Server.Cluster n} (hs : Unsuspected s)
    (hop : sectionAt (s.nodes i) a = some op) : electionOp op = true := by
  obtain ⟨t,timedOut,now,-,hx⟩ := sectionAt_run hop
  exact (hs.threads i t op hx).2

theorem Unsuspected.act {s : Server.Cluster n} (hs : Unsuspected s)
    (hok : suspectsNobody (.act i a) = true) (ho : Server.act i (s.nodes i) a = some out) :
    (∀ t, ∀ x ∈ out.state.threads t, t ≠ .failureReceiver ∧ electionOp x = true) ∧
    (∀ j, out.state.processIsAlive j = true) ∧ (∀ j, out.state.isAlive j = true) ∧
    ∀ dst m, out.send = some (dst,m) → m.tag ≠ .failureDetection := by
  have hturn := turned_of_turns (turns_of_act ho)
  have hidle := hs.idle hok ho
  refine ⟨?_,?_,?_,?_⟩
  · intro t x hx
    rcases hturn.came hx with hold | ⟨timedOut,now,op,rfl,hop,hcont⟩ | ⟨ops,rfl,hn,hx⟩
    · exact hs.threads i t x hold
    · have ht := (hs.threads i t op (List.mem_of_mem_head? hop)).1
      exact ⟨ht,continues_electionOp hcont (hs.runs hop)⟩
    · exact ⟨by simp,newThread_electionOp hn hidle hx⟩
  · intro j
    rw [hturn.status]
    cases hop : sectionAt (s.nodes i) a with
    | none => exact hs.linked i j
    | some op =>
      rw [Option.map_some, Option.getD_some, (statusAfter_electionOp (hs.runs hop)).1]
      exact hs.linked i j
  · intro j
    rw [hturn.isAlive]
    cases hop : sectionAt (s.nodes i) a with
    | none => exact hs.alive i j
    | some op =>
      rw [Option.map_some, Option.getD_some, (statusAfter_electionOp (hs.runs hop)).2]
      exact hs.alive i j
  · intro dst m hm
    rcases hturn.send dst m hm with htag | hbind
    · simp [htag]
    · obtain ⟨op,hop,hsends⟩ := Option.bind_eq_some_iff.mp hbind
      simp [sends_electionOp (hs.runs hop) hsends]

theorem step_unsuspected {s t : Server.Cluster n} (hs : Unsuspected s)
    (hlane : s.InLane Server.Message.tag) (hok : suspectsNobody l = true)
    (h : (Server.process elected).Step s l t e) : Unsuspected t := by
  have hcarried : ∀ k a b, ∀ m ∈ t.chan k a b, m.tag ≠ .failureDetection := by
    intro k a b m hm
    rcases h.came hm with hold | ⟨x,out,rfl,ho,hsend⟩
    · exact hs.carried k a b m hold
    · exact (hs.act hok ho).2.2.2 b m hsend
  suffices hnode : ∀ i, (∀ u, ∀ x ∈ (t.nodes i).threads u,
      u ≠ .failureReceiver ∧ electionOp x = true) ∧
      (∀ j, (t.nodes i).processIsAlive j = true) ∧ ∀ j, (t.nodes i).isAlive j = true from
    ⟨fun i => (hnode i).1,fun i => (hnode i).2.1,fun i => (hnode i).2.2,hcarried⟩
  intro i
  cases h with
  | act j a out ho =>
    by_cases hj : i = j
    · subst hj
      obtain ⟨hthreads,hlinked,halive,-⟩ := hs.act hok ho
      rw [LaneNet.commit_self]
      exact ⟨hthreads,hlinked,halive⟩
    · rw [LaneNet.commit_other _ _ _ hj]
      exact ⟨hs.threads i,hs.linked i,hs.alive i⟩
  | receive k src dst m rest x hc hx =>
    by_cases hj : i = dst
    · subst hj
      have hmem : m ∈ s.chan k src i := hc ▸ List.mem_cons_self
      have htag := hlane k src i m hmem
      rw [LaneNet.take_self]
      cases taken_of_accept hx with
      | kept _ hu hclient =>
        rw [hu.threads, hu.status, hu.isAlive]
        exact ⟨hs.threads i,hs.linked i,hs.alive i⟩
      | failure ht => exact absurd htag (hs.carried _ src i m hmem)
      | election ht =>
        refine ⟨?_,hs.linked i,hs.alive i⟩
        intro u y hy
        rw [setThread_threads] at hy
        split at hy
        · rename_i hu
          rw [List.mem_singleton.mp hy]
          exact ⟨by simp [hu],by simp [electionOp, htag]⟩
        · exact hs.threads i u y hy
    · rw [LaneNet.take_other _ _ _ _ _ hj]
      exact ⟨hs.threads i,hs.linked i,hs.alive i⟩

theorem reach_unsuspected {ok : Trace n → Server.Cluster n → Server.Move n → Prop}
    (hok : ∀ es s l, ok es s l → suspectsNobody l = true)
    (hr : TraceReach elected ok s es) : Unsuspected s := by
  induction hr using TraceReach.run with
  | start =>
    refine ⟨?_,fun _ _ => rfl,fun _ _ => rfl,?_⟩
    · intro i t x hx
      contradiction
    · intro k a b m hm
      contradiction
  | step hr hg _ ih hs => exact step_unsuspected ih (reach_threaded hr).1 (hok _ _ _ hg) hs

/-- Whose victory a section at node `i` is part of. -/
def claims (i : Fin n) : Op n → Option (Fin n)
  | .send _ .victory | .enableClientConn => some i
  | .setLeaderNodeId value => some value
  | .handleMessage srcNodeId .victory => some srcNodeId
  | _ => none

/-- Some part of a victory that node `j` has declared is still to be done. -/
def unfinished (s : Server.Cluster n) (j : Fin n) : Bool :=
  (List.finRange n).any (fun i => (s.chan .leaderElection j i).contains .victory ||
    (threadsOf (s.nodes i)).any (fun t => ((s.nodes i).threads t).any (fun x =>
      claims i x == some j)))

/-- Nobody is suspected, and a node enters `declareVictory` only while every victory that
another node has declared is known and published. -/
def declaresAlone (_ : Trace n) (s : Server.Cluster n) (l : Server.Move n) : Bool :=
  suspectsNobody l && (sectionOf s l != some .declareIfNoLeader || gotLeader (s.nodes (mover l)) ||
    (List.finRange n).all (fun j => j == mover l || !unfinished s j))

def declaration (x : Server.Cluster n × Server.Move n) : Option (Option (Fin n)) :=
  if sectionOf x.1 x.2 = some .declareIfNoLeader ∧ (x.1.nodes (mover x.2)).leaderNodeId = none then
    some (some (mover x.2))
  else none

def publication (x : Server.Cluster n × Server.Move n) : Option (Option (Fin n)) :=
  if sectionOf x.1 x.2 = some .enableClientConn then some (some (mover x.2)) else none

/-- The node that entered `declareVictory` last. -/
def declarer (elected : Option (Fin n)) (es : Trace n) : Option (Fin n) :=
  latest declaration elected es

/-- The node whose port was published last. -/
def published (elected : Option (Fin n)) (es : Trace n) : Option (Fin n) :=
  latest publication elected es

/-- No election message is in flight or being handled, and no thread of `triggerElection`
or `aliveWait` is running. -/
def electionOver (s : Server.Cluster n) : Bool :=
  silent [.leaderElection] s && (List.finRange n).all (fun i =>
    ((s.nodes i).threads .electionReceiver).isEmpty &&
      (List.range (s.nodes i).spawned).all (fun k => ((s.nodes i).threads (.spawned k)).isEmpty))

theorem unfinished_section {s : Server.Cluster n} (hu : Unborn (s.nodes i))
    (hx : x ∈ (s.nodes i).threads t) (hc : claims i x = some j) : unfinished s j = true := by
  refine List.any_eq_true.mpr ⟨i,List.mem_finRange i,?_⟩
  rw [Bool.or_eq_true]
  right
  refine List.any_eq_true.mpr ⟨t,mem_threadsOf hu hx,List.any_eq_true.mpr ⟨x,hx,?_⟩⟩
  simp [hc]

theorem unfinished_message {s : Server.Cluster n} (hm : .victory ∈ s.chan .leaderElection j i) :
    unfinished s j = true := by
  refine List.any_eq_true.mpr ⟨i,List.mem_finRange i,?_⟩
  simp [hm]

/-- The victory of `d` is still to reach node `i`. -/
inductive Awaits (s : Server.Cluster n) (d i : Fin n) : Prop
  | message (hm : .victory ∈ s.chan .leaderElection d i)
  | handling (t : ThreadId) (hx : .handleMessage d .victory ∈ (s.nodes i).threads t)
  | sending (t : ThreadId) (hx : .send i .victory ∈ (s.nodes d).threads t)
  | setting (t : ThreadId) (hx : .setLeaderNodeId d ∈ (s.nodes i).threads t)

/-- Everything that is known or on its way is of the last declaration, or of none. -/
structure Agreed (c p : Option (Fin n)) (s : Server.Cluster n) : Prop where
  sections : ∀ i t, ∀ x ∈ (s.nodes i).threads t, ∀ a, claims i x = some a → c = some a
  messages : ∀ a b, .victory ∈ s.chan .leaderElection a b → c = some a
  leaders : ∀ i a, (s.nodes i).leaderNodeId = some a →
    c = some a ∨ ∃ d, c = some d ∧ Awaits s d i
  port : p = c ∨ ∃ d t, c = some d ∧ .enableClientConn ∈ (s.nodes d).threads t

theorem newThread_claims {node : Server.Node n} (hn : newThread rank node a = some ops)
    (hx : x ∈ ops) (i : Fin n) : claims i x = none := by
  cases newThread_opening hn hx <;> rfl

/-- Election sections leave parts of a victory only where it is declared. -/
theorem continues_claims {node : Server.Node n} (h : Continues rank node op x)
    (ho : electionOp op = true) (hc : claims rank x = some a) :
    op = .declareIfNoLeader ∧ node.leaderNodeId = none ∧ a = rank := by
  cases h with
  | answered src hx | again hl hx =>
    rcases mem_broadcastElection hx with rfl | ⟨j,rfl⟩ <;> simp [claims] at hc
  | declared hl hx =>
    refine ⟨rfl,hl,?_⟩
    rcases List.mem_append.mp hx with hx | hx
    · rcases mem_declareVictory hx with ⟨j,rfl⟩ | rfl <;> exact (Option.some.inj hc).symm
    · rw [List.mem_singleton.mp hx] at hc
      exact (Option.some.inj hc).symm
  | installed | updated | recovered | recovering | read | checked =>
    simp [electionOp, Server.Message.tag] at ho

theorem leaderAfter_claims {node : Server.Node n} (h : leaderAfter node op = some a)
    (i : Fin n) : claims i op = some a ∨ node.leaderNodeId = some a := by
  cases op with
  | restartElection => simp [leaderAfter] at h
  | setLeaderNodeId v => exact .inl h
  | handleMessage src m =>
    cases m with
    | victory => exact .inl h
    | _ => exact .inr h
  | _ => exact .inr h

/-- A victory that is awaited stays so until the node takes its declarer for the leader. -/
theorem Awaits.step {s t : Server.Cluster n} (ha : Awaits s d i) (hs : Unsuspected s)
    (hu : ∀ i, Unborn (s.nodes i)) (h : (Server.process elected).Step s l t e) :
    Awaits t d i ∨
      (mover l = i ∧ ∃ op, sectionOf s l = some op ∧ leaderAfter (s.nodes i) op = some d) := by
  cases ha with
  | message hm =>
    rcases h.kept hm with hstay | ⟨rfl,hx⟩
    · exact .inl (.message hstay)
    · have hx' : Server.accept i (s.nodes i) .leaderElection d .victory = some (t.nodes i) := hx
      have htaken := taken_of_accept hx'
      generalize hnode : t.nodes i = x at htaken
      left
      cases htaken with
      | kept hd _ _ => simp [dropsFrom_linked (hs.linked i)] at hd
      | election ht => exact .handling .electionReceiver (by simp [hnode])
  | handling u hx =>
    rcases step_kept_section h (hu i) hx with hstay | ⟨hm,hop⟩
    · exact .inl (.handling u hstay)
    · exact .inr ⟨hm,_,hop,rfl⟩
  | setting u hx =>
    rcases step_kept_section h (hu i) hx with hstay | ⟨hm,hop⟩
    · exact .inl (.setting u hstay)
    · exact .inr ⟨hm,_,hop,rfl⟩
  | sending u hx =>
    left
    rcases step_kept_section h (hu d) hx with hstay | ⟨hm,hop⟩
    · exact .sending u hstay
    · subst hm
      refine .message (step_sent_message (m := .victory) h hop ?_)
      simp [sends, Server.Node.send, dropsFrom_linked (hs.linked _)]

/-- A new declaration, with every other one over. -/
theorem Agreed.declared {s t : Server.Cluster n} (hu : ∀ i, Unborn (s.nodes i))
    (h : (Server.process elected).Step s l t e) (hop : sectionOf s l = some .declareIfNoLeader)
    (hl : (s.nodes (mover l)).leaderNodeId = none)
    (halone : ∀ j, unfinished s j = true → j = mover l) (p : Option (Fin n)) :
    Agreed (some (mover l)) p t := by
  obtain ⟨u,hdeclared⟩ := step_declared h hop hl
  refine ⟨?_,?_,?_,?_⟩
  · intro i u' x hx a hc
    rcases step_came_section h hx with
      hold | ⟨rfl,op,hop',hcont⟩ | ⟨a',ops,-,hn,hx⟩ | ⟨tag,src,m,rfl,-,-⟩
    · rw [halone a (unfinished_section (hu i) hold hc)]
    · rw [hop] at hop'
      cases hop'
      rw [(continues_claims hcont rfl hc).2.2]
    · simp [newThread_claims hn hx] at hc
    · simp [sectionOf] at hop
  · intro a b hm
    rcases step_came_message h hm (by simp [Server.Message.tag]) with hold | ⟨-,op,hop',hsends⟩
    · rw [halone a (unfinished_message hold)]
    · rw [hop] at hop'
      cases hop'
      simp [sends] at hsends
  · intro i a ha
    refine .inr ⟨_,rfl,?_⟩
    by_cases hi : i = mover l
    · subst hi
      exact .setting u (hdeclared _ (by simp [declareVictory]))
    · exact .sending u (hdeclared _ (by simp [declareVictory, hi]))
  · exact .inr ⟨_,u,rfl,hdeclared _ (by simp)⟩

/-- What a section of a victory says is of the last declaration. -/
theorem Agreed.runs {s : Server.Cluster n} (ha : Agreed c p s) (hop : sectionOf s l = some op)
    (hc : claims (mover l) op = some a) : c = some a := by
  obtain ⟨u,hx⟩ := section_mem hop
  exact ha.sections _ u op hx a hc

/-- A node knows the last declarer, or is still to hear of it. -/
theorem Agreed.leaders_step {s t : Server.Cluster n} (ha : Agreed c p s) (hs : Unsuspected s)
    (hu : ∀ i, Unborn (s.nodes i)) (h : (Server.process elected).Step s l t e)
    (hleader : (t.nodes i).leaderNodeId = some a) :
    c = some a ∨ ∃ d, c = some d ∧ Awaits t d i := by
  rw [step_leader h] at hleader
  by_cases hran : mover l = i ∧ ∃ op, sectionOf s l = some op
  · obtain ⟨rfl,op,hop⟩ := hran
    rw [if_pos rfl, hop, Option.map_some, Option.getD_some] at hleader
    rcases leaderAfter_claims hleader (mover l) with hc | hbefore
    · exact .inl (ha.runs hop hc)
    · rcases ha.leaders _ a hbefore with hc | ⟨d,hc,hawaits⟩
      · exact .inl hc
      · rcases hawaits.step hs hu h with hstay | ⟨-,op',hop',hafter⟩
        · exact .inr ⟨d,hc,hstay⟩
        · rw [hop] at hop'
          cases hop'
          rw [hleader] at hafter
          exact .inl (hc.trans hafter.symm)
  · have hbefore : (s.nodes i).leaderNodeId = some a := by
      split at hleader
      · rename_i hm
        cases hop : sectionOf s l with
        | none => simpa [hop] using hleader
        | some op => exact absurd ⟨hm,op,hop⟩ hran
      · exact hleader
    rcases ha.leaders i a hbefore with hc | ⟨d,hc,hawaits⟩
    · exact .inl hc
    · rcases hawaits.step hs hu h with hstay | ⟨hm,op,hop,-⟩
      · exact .inr ⟨d,hc,hstay⟩
      · exact absurd ⟨hm,op,hop⟩ hran

theorem Agreed.step {s t : Server.Cluster n} (ha : Agreed c p s) (hs : Unsuspected s)
    (hu : ∀ i, Unborn (s.nodes i)) (hlane : s.InLane Server.Message.tag)
    (h : (Server.process elected).Step s l t e) (hno : declaration (s,l) = none) :
    Agreed c ((publication (s,l)).getD p) t := by
  refine ⟨?_,?_,fun i a hleader => ha.leaders_step hs hu h hleader,?_⟩
  · intro i u x hx a hc
    rcases step_came_section h hx with
      hold | ⟨rfl,op,hop,hcont⟩ | ⟨a',ops,-,hn,hx⟩ | ⟨tag,src,m,-,hm,rfl⟩
    · exact ha.sections i u x hold a hc
    · obtain ⟨u',hmem⟩ := section_mem hop
      obtain ⟨rfl,hl,-⟩ := continues_claims hcont (hs.threads _ u' op hmem).2 hc
      simp [declaration, hop, hl] at hno
    · simp [newThread_claims hn hx] at hc
    · cases m with
      | victory =>
        have htag : MessageTag.leaderElection = tag := hlane tag src i _ hm
        subst htag
        rw [← Option.some.inj hc]
        exact ha.messages src i hm
      | _ => simp [claims] at hc
  · intro a b hm
    rcases step_came_message h hm (by simp [Server.Message.tag]) with hold | ⟨rfl,op,hop,hsends⟩
    · exact ha.messages a b hold
    · obtain ⟨rfl,-⟩ := sends_victory hsends
      exact ha.runs hop rfl
  · by_cases hop : sectionOf s l = some .enableClientConn
    · left
      rw [publication, if_pos hop, Option.getD_some]
      exact (ha.runs hop rfl).symm
    · rw [publication, if_neg hop, Option.getD_none]
      rcases ha.port with hp | ⟨d,u,hc,hx⟩
      · exact .inl hp
      · rcases step_kept_section h (hu d) hx with hstay | ⟨-,hop'⟩
        · exact .inr ⟨d,u,hc,hstay⟩
        · exact absurd hop' hop

theorem Agreed.start : Agreed elected elected (Server.process elected).network.start := by
  refine ⟨?_,?_,fun i a ha => .inl ha,.inl rfl⟩
  · intro i t x hx
    contradiction
  · intro a b hm
    contradiction

theorem declared_next (elected : Option (Fin n)) (es : Trace n)
    (x : Server.Cluster n × Server.Move n) :
    declarer elected (es ++ [x]) = (declaration x).getD (declarer elected es) ∧
      published elected (es ++ [x]) = (publication x).getD (published elected es) := by
  simp [declarer, published, latest_append]

/-- Alone means that only the declarer itself may have a victory under way. -/
theorem declaresAlone_unfinished {s : Server.Cluster n} (hok : declaresAlone es s l = true)
    (hop : sectionOf s l = some .declareIfNoLeader)
    (hl : (s.nodes (mover l)).leaderNodeId = none) (j : Fin n) (hj : unfinished s j = true) :
    j = mover l := by
  simp only [declaresAlone, hop, gotLeader, hl, Bool.and_eq_true, bne_self_eq_false,
    Option.isSome_none, Bool.false_or, List.all_eq_true, List.mem_finRange, true_implies] at hok
  simpa [hj] using hok.2 j

theorem reach_agreed {s : Server.Cluster n}
    (hr : TraceReach elected (fun es s l => declaresAlone es s l = true) s es) :
    Agreed (declarer elected es) (published elected es) s := by
  induction hr using TraceReach.run with
  | start => exact .start
  | @step s es l t e hr hok _ ih hs =>
    have hquiet : Unsuspected s :=
      reach_unsuspected (fun _ _ _ h => (Bool.and_eq_true_iff.mp h).1) hr
    have hu := reach_unborn hr
    obtain ⟨hd,hp⟩ := declared_next elected es (s,l)
    rw [hd, hp]
    by_cases hnew : declaration (s,l) = none
    · rw [hnew, Option.getD_none]
      exact ih.step hquiet hu (reach_threaded hr).1 hs hnew
    · have hdecl : sectionOf s l = some .declareIfNoLeader ∧
          (s.nodes (mover l)).leaderNodeId = none := by
        by_contra hno
        exact hnew (if_neg hno)
      rw [declaration, if_pos hdecl, Option.getD_some]
      exact .declared hu hs hdecl.1 hdecl.2
        (declaresAlone_unfinished hok hdecl.1 hdecl.2) _

/-- Nothing is left to do where the election is over and nobody has been suspected. -/
theorem electionOver_threads {s : Server.Cluster n} (h : electionOver s = true)
    (hs : Unsuspected s) (hu : Unborn (s.nodes i)) (t : ThreadId) :
    (s.nodes i).threads t = [] := by
  simp only [electionOver, Bool.and_eq_true, List.all_eq_true, List.mem_finRange, true_implies,
    List.isEmpty_iff, List.mem_range] at h
  obtain ⟨-,hall⟩ := h
  cases t with
  | electionReceiver => exact (hall i).1
  | failureReceiver =>
    rw [List.eq_nil_iff_forall_not_mem]
    intro x hx
    exact absurd rfl (hs.threads i _ x hx).1
  | spawned k =>
    rcases Nat.lt_or_ge k (s.nodes i).spawned with hk | hk
    · exact (hall i).2 k hk
    · exact hu k hk

theorem Awaits.not_over {s : Server.Cluster n} (ha : Awaits s d i) (hs : Unsuspected s)
    (hu : ∀ i, Unborn (s.nodes i)) : electionOver s = false := by
  rw [← Bool.not_eq_true]
  intro hover
  have hidle := fun i => electionOver_threads hover hs (hu i)
  have hsilent := (Bool.and_eq_true_iff.mp hover).1
  cases ha with
  | message hm => simp [silent_chan hsilent List.mem_cons_self] at hm
  | handling t hx => simp [hidle] at hx
  | sending t hx => simp [hidle] at hx
  | setting t hx => simp [hidle] at hx

/-- When the election is over, every node that knows a leader knows the one whose port was
published last. -/
theorem election_agreement (elected : Option (Fin n))
    (hr : TraceReach elected (fun es s l => declaresAlone es s l = true) s es)
    (hover : electionOver s = true) (i x : Fin n) (hl : (s.nodes i).leaderNodeId = some x) :
    published elected es = some x := by
  have hs : Unsuspected s :=
    reach_unsuspected (fun _ _ _ h => (Bool.and_eq_true_iff.mp h).1) hr
  have hu := reach_unborn hr
  have ha := reach_agreed hr
  have hdeclarer : declarer elected es = some x := by
    rcases ha.leaders i x hl with hc | ⟨d,hc,hawaits⟩
    · exact hc
    · exact absurd hover (by simp [hawaits.not_over hs hu])
  rcases ha.port with hp | ⟨d,t,-,hx⟩
  · rw [hp]
    exact hdeclarer
  · simp [electionOver_threads hover hs (hu d)] at hx

/-- `q` is elected, and the others learn it. -/
def electedAlone (p q : Fin n) : List (Server.Move n) :=
  .act q .startElection::Move.sections q (.spawned 0) 6 0 ++ Move.election q p

/-- `p` and `q` time out together, and each handles the VICTORY of the other last. -/
def victoriesCross (p q : Fin n) : List (Server.Move n) :=
  .act p .startElection::.act q .startElection::Move.sections p (.spawned 0) 7 0 ++
  Move.sections q (.spawned 0) 6 0 ++ Move.election q p ++ Move.election p q ++
  Move.sections q .electionReceiver 1 0 ++ Move.election p q ++ Move.election q p ++
  Move.sections p (.spawned 1) 3 0

theorem electedAlone_end : traceOutcome (n := 2) none declaresAlone (electedAlone 0 1)
    (fun r => (electionOver r.1,(r.1.nodes 0).leaderNodeId)) = some (true,some 1) := by
  decide

theorem election_agreement_electedAlone : ∃ (s : Server.Cluster 2) (es : Trace 2),
    TraceReach none (fun es s l => declaresAlone es s l = true) s es ∧ electionOver s = true ∧
    (s.nodes 0).leaderNodeId = some 1 ∧ published none es = some 1 := by
  obtain ⟨s,es,hr,h⟩ := Machine.exists_reach (fun _ _ _ h => h) electedAlone_end
  obtain ⟨hover,hl⟩ := Prod.mk.inj h
  exact ⟨s,es,hr,hover,hl,election_agreement none hr hover 0 1 hl⟩

theorem victoriesCross_end : traceOutcome (n := 2) none (fun _ _ l => suspectsNobody l)
    (victoriesCross 0 1) (fun r => (electionOver r.1,(r.1.nodes 0).leaderNodeId,
      (r.1.nodes 1).leaderNodeId,published none r.2)) = some (true,some 1,some 0,some 1) := by
  decide

/-- The election is over, and the two nodes know different leaders. -/
theorem election_disagreement : ∃ (s : Server.Cluster 2) (es : Trace 2),
    TraceReach none (fun _ _ l => suspectsNobody l = true) s es ∧ electionOver s = true ∧
    (s.nodes 0).leaderNodeId = some 1 ∧ (s.nodes 1).leaderNodeId = some 0 ∧
    published none es = some 1 := by
  obtain ⟨s,es,hr,h⟩ := Machine.exists_reach (fun _ _ _ h => h) victoriesCross_end
  simp only [Prod.mk.injEq] at h
  exact ⟨s,es,hr,h⟩

end Algorep.Proofs
