import Algorep.Proofs.ElectionSteps

namespace Algorep.Proofs
open Kit Program Program.Server

/-! Where a leader, an installed log and a node that is alive again come from, in any run. -/

/-- `L` is the leader of the start-up election or has entered `declareVictory`. -/
def Founded (elected : Option (Fin n)) (es : Trace n) (L : Fin n) : Prop :=
  elected = some L ∨ ∃ x ∈ es, mover x.2 = L ∧ sectionOf x.1 x.2 = some .declareIfNoLeader ∧
    (x.1.nodes L).leaderNodeId = none

/-- Recovery `k` of `src` has read the log of `src` for `dst`, and found `state`. -/
def Handed (es : Trace n) (src dst : Fin n) (k : Nat) (state : List String) : Prop :=
  ∃ x ∈ es, mover x.2 = src ∧ (∃ id, sectionOf x.1 x.2 = some (.readState dst id k)) ∧
    (x.1.nodes src).log = state

/-- `dst` has installed what recovery `k` of `src` read for it. -/
def Installed (es : Trace n) (src dst : Fin n) (k : Nat) : Prop :=
  ∃ state, Handed es src dst k state ∧ ∃ x ∈ es, mover x.2 = dst ∧
    ∃ id, sectionOf x.1 x.2 = some (.handleMessage src (.state id k state))

/-- A node that took itself for the leader has checked the answer of `dst` to its own
recovery, and found it right. -/
def Confirmed (elected : Option (Fin n)) (es : Trace n) (dst : Fin n) : Prop :=
  ∃ L k, Founded elected es L ∧ Installed es L dst k ∧ ∃ x ∈ es, mover x.2 = L ∧
    sectionOf x.1 x.2 = some (.updateChecked dst true k) ∧ (x.1.nodes L).leaderNodeId = some L

/-- What has happened before a section stands in a thread of node `i`. A message on its way
to `i` has the same behind it as the section that will handle it. -/
def Backed (elected : Option (Fin n)) (es : Trace n) (i : Fin n) : Op n → Prop
  | .handleMessage src .victory => Founded elected es src
  | .handleMessage src (.state _ k state) => Founded elected es src ∧ Handed es src i k state
  | .handleMessage src (.stateUpdated _ k) => Founded elected es i ∧ Installed es i src k
  | .handleMessage _ (.recovered nodeId) => Confirmed elected es nodeId
  | .send _ .victory => Founded elected es i
  | .send dst (.state _ k state) => Founded elected es i ∧ Handed es i dst k state
  | .send dst (.stateUpdated _ k) => Founded elected es dst ∧ Installed es dst i k
  | .send _ (.recovered nodeId) => Confirmed elected es nodeId
  | .updateChecked src _ k => Founded elected es i ∧ Installed es i src k
  | .setLeaderNodeId value => Founded elected es value
  | .startRecovery _ _ | .readState _ _ _ => Founded elected es i
  | .setNodeStatus nodeId true _ => Confirmed elected es nodeId
  | _ => True

/-- Every leader a node knows is one, and every section and message has its origin. -/
structure Rooted (elected : Option (Fin n)) (es : Trace n) (s : Server.Cluster n) : Prop where
  leader : ∀ i L, (s.nodes i).leaderNodeId = some L → Founded elected es L
  sections : ∀ i t, ∀ x ∈ (s.nodes i).threads t, Backed elected es i x
  messages : s.Carries (fun a b m => Backed elected es b (.handleMessage a m))

/-! What has happened stays so as the run goes on. -/

section Later
variable {es es' : Trace n}

theorem Founded.later (h : Founded elected es L) : Founded elected (es ++ es') L := by
  rcases h with h | ⟨x,hx,h⟩
  · exact .inl h
  · exact .inr ⟨x,List.mem_append_left _ hx,h⟩

theorem Handed.later (h : Handed es src dst k state) : Handed (es ++ es') src dst k state := by
  obtain ⟨x,hx,h⟩ := h
  exact ⟨x,List.mem_append_left _ hx,h⟩

theorem Installed.later (h : Installed es src dst k) : Installed (es ++ es') src dst k := by
  obtain ⟨state,hh,x,hx,h⟩ := h
  exact ⟨state,hh.later,x,List.mem_append_left _ hx,h⟩

theorem Confirmed.later (h : Confirmed elected es j) : Confirmed elected (es ++ es') j := by
  obtain ⟨L,k,hf,hi,x,hx,h⟩ := h
  exact ⟨L,k,hf.later,hi.later,x,List.mem_append_left _ hx,h⟩

theorem Backed.later (h : Backed elected es i op) : Backed elected (es ++ es') i op := by
  unfold Backed at h ⊢
  split at h
  · exact Founded.later h
  · exact ⟨h.1.later,h.2.later⟩
  · exact ⟨h.1.later,h.2.later⟩
  · exact Confirmed.later h
  · exact Founded.later h
  · exact ⟨h.1.later,h.2.later⟩
  · exact ⟨h.1.later,h.2.later⟩
  · exact Confirmed.later h
  · exact ⟨h.1.later,h.2.later⟩
  · exact Founded.later h
  · exact Founded.later h
  · exact Founded.later h
  · exact Confirmed.later h
  · trivial

end Later

/-! What the step itself adds. -/

section Move
variable {s : Server.Cluster n} {id : Int}

theorem founded_here (es : Trace n) (hop : sectionOf s l = some .declareIfNoLeader)
    (hl : (s.nodes (mover l)).leaderNodeId = none) :
    Founded elected (es ++ [(s,l)]) (mover l) :=
  .inr ⟨(s,l),by simp,rfl,hop,hl⟩

theorem handed_here (es : Trace n) (hop : sectionOf s l = some (.readState dst id k)) :
    Handed (es ++ [(s,l)]) (mover l) dst k (s.nodes (mover l)).log :=
  ⟨(s,l),by simp,rfl,⟨id,hop⟩,rfl⟩

theorem installed_here {es : Trace n}
    (hop : sectionOf s l = some (.handleMessage src (.state id k state)))
    (h : Handed es src (mover l) k state) : Installed (es ++ [(s,l)]) src (mover l) k :=
  ⟨state,h.later,(s,l),by simp,rfl,id,hop⟩

theorem confirmed_here {es : Trace n} (hop : sectionOf s l = some (.updateChecked j true k))
    (hl : (s.nodes (mover l)).leaderNodeId = some (mover l))
    (hf : Founded elected es (mover l)) (hi : Installed es (mover l) j k) :
    Confirmed elected (es ++ [(s,l)]) j :=
  ⟨mover l,k,hf.later,hi.later,(s,l),by simp,rfl,hop,hl⟩

/-- `handleStateUpdate` tells the others of a recovery only if the answer was right and the
node takes itself for the leader. -/
theorem updateChecked_cases {node : Server.Node n} (hx : x ∈ updateChecked rank node src b k) :
    x = .send src .victory ∨ (b = true ∧ node.leaderNodeId = some rank ∧
      ((∃ j, x = .send j (.recovered src)) ∨ x ∈ enableComm src (some k))) := by
  rcases List.mem_append.mp hx with hx | hx
  · right
    split at hx
    · rename_i hc
      simp only [Bool.and_eq_true, beq_iff_eq] at hc
      refine ⟨hc.1,hc.2,?_⟩
      rcases List.mem_append.mp hx with hx | hx
      · obtain ⟨j,-,rfl⟩ := List.mem_map.mp hx
        exact .inl ⟨j,rfl⟩
      · exact .inr hx
    · contradiction
  · exact .inl (List.mem_singleton.mp hx)

/-- The sections that another one leaves. What a STATE carries is told by the thread. -/
theorem backed_continues {es : Trace n} (hop : sectionOf s l = some op)
    (h : Backed elected es (mover l) op) (hc : Continues (mover l) (s.nodes (mover l)) op x)
    (hread : ∀ dst id k state, x = .send dst (.state id k state) →
      Handed (es ++ [(s,l)]) (mover l) dst k state) :
    Backed elected (es ++ [(s,l)]) (mover l) x := by
  cases hc with
  | answered src hx | again hl hx =>
    rcases mem_broadcastElection hx with rfl | ⟨j,rfl⟩ <;> trivial
  | declared hl hx =>
    have hf : Founded elected (es ++ [(s,l)]) (mover l) := founded_here es hop hl
    rcases List.mem_append.mp hx with hx | hx
    · rcases mem_declareVictory hx with ⟨j,rfl⟩ | rfl <;> exact hf
    · rw [List.mem_singleton.mp hx]
      trivial
  | installed src id k state => exact ⟨Founded.later h.1,installed_here hop h.2⟩
  | updated src id k b => exact ⟨Founded.later h.1,Installed.later h.2⟩
  | recovered src nodeId hx =>
    rcases mem_enableComm hx with rfl | rfl
    · exact Confirmed.later h
    · trivial
  | recovering dst id k hx =>
    rcases mem_pausedRecovery hx with rfl | rfl | rfl | rfl
    · trivial
    · exact Founded.later h
    · trivial
    · trivial
  | read dst id k state => exact ⟨Founded.later h,hread dst id k state rfl⟩
  | checked src b k hx =>
    rcases updateChecked_cases hx with rfl | ⟨rfl,hl,hx⟩
    · exact Founded.later h.1
    · have hconf := confirmed_here hop hl h.1 h.2
      rcases hx with ⟨j,rfl⟩ | hx
      · exact hconf
      · rcases mem_enableComm hx with rfl | rfl
        · exact hconf
        · trivial

end Move

section Step
variable {s t : Server.Cluster n} {elected : Option (Fin n)}

/-- A STATE that is still to be sent after an action was to be sent before, or the action has
read the log for it. -/
theorem Turned.state_came {node : Server.Node n} {id : Int} (h : Turned rank node a out)
    (hx : .send dst (.state id k state) ∈ out.state.threads u) :
    .send dst (.state id k state) ∈ node.threads u ∨
      (sectionAt node a = some (.readState dst id k) ∧ node.log = state) := by
  have hthread := h.thread u
  generalize out.state.threads u = ops at hthread hx
  cases hthread with
  | same => exact .inl hx
  | first ops ha ht hn => cases newThread_opening hn hx
  | next timedOut now op rest ops out' ha ht hexec =>
    rcases List.mem_append.mp hx with hx | hx
    · right
      cases exec_continues hexec _ hx with
      | answered _ hx | again _ hx => rcases mem_broadcastElection hx with h | ⟨j,h⟩ <;> cases h
      | declared _ hx =>
        rcases List.mem_append.mp hx with hx | hx
        · rcases mem_declareVictory hx with ⟨j,h⟩ | h <;> cases h
        · cases List.mem_singleton.mp hx
      | recovered _ _ hx => rcases mem_enableComm hx with h | h <;> cases h
      | recovering _ _ _ hx => rcases mem_pausedRecovery hx with h | h | h | h <;> cases h
      | checked _ _ _ hx =>
        rcases updateChecked_cases hx with h | ⟨-,-,⟨j,h⟩ | hx⟩
        · cases h
        · cases h
        · rcases mem_enableComm hx with h | h <;> cases h
      | read =>
        simp only [exec, Option.some.injEq, Prod.mk.injEq] at hexec
        rw [← hexec.1] at hx
        simp only [List.mem_singleton, Op.send.injEq, Message.state.injEq, true_and] at hx
        exact ⟨by simp [ha, sectionAt, ht],hx.symm⟩
    · exact .inl (ht ▸ List.mem_cons_of_mem _ hx)

/-- The same for a step of the cluster. -/
theorem step_came_state {id : Int} (h : (Server.process elected).Step s l t e)
    (hx : .send dst (.state id k state) ∈ (t.nodes i).threads u) :
    .send dst (.state id k state) ∈ (s.nodes i).threads u ∨
      (mover l = i ∧ sectionOf s l = some (.readState dst id k) ∧ (s.nodes i).log = state) := by
  cases step_at h i with
  | other hm he => exact .inl (he ▸ hx)
  | receive tag src m hm htaken =>
    rcases htaken.came hx with hold | ⟨heq,-⟩
    · exact .inl hold
    · contradiction
  | act a out hturn he =>
    rcases hturn.state_came (he ▸ hx) with hold | ⟨hop,hlog⟩
    · exact .inl hold
    · exact .inr ⟨rfl,(sectionOf_act s i a).trans hop,hlog⟩

/-- What a section hands over for sending is backed at the other end. -/
theorem backed_sends {es : Trace n} {node : Server.Node n} (h : Backed elected es i op)
    (hs : sends i node op = some (b,m)) : Backed elected es b (.handleMessage i m) := by
  cases op with
  | handleMessage src m' =>
    cases m' with
    | election =>
      simp only [sends, Server.Node.send, Option.ite_none_left_eq_some, Option.some.injEq,
        Prod.mk.injEq] at hs
      obtain ⟨-,-,rfl⟩ := hs
      trivial
    | _ => simp [sends] at hs
  | send dst m' =>
    simp only [sends, Server.Node.send, Option.ite_none_left_eq_some, Option.some.injEq,
      Prod.mk.injEq] at hs
    obtain ⟨-,rfl,rfl⟩ := hs
    cases m' <;> exact h
  | _ => simp [sends] at hs

theorem backed_opening {es : Trace n} {node : Server.Node n}
    (hl : ∀ L, node.leaderNodeId = some L → Founded elected es L)
    (ho : Server.act i node a = some out)
    (hn : newThread i node a = some ops) (hx : x ∈ ops) : Backed elected es i x := by
  rcases newThread_cases hn with rfl | rfl | ⟨j,rfl,rfl⟩ | ⟨j,rfl,rfl⟩
  · cases aliveWait_opening hx <;> trivial
  · rcases List.mem_append.mp hx with hx | hx
    · rcases mem_broadcastElection hx with rfl | ⟨j,rfl⟩ <;> trivial
    · simp only [List.mem_cons, List.not_mem_nil, or_false] at hx
      rcases hx with rfl | rfl <;> trivial
  · simp only [handleNodeFailure, List.mem_cons, List.not_mem_nil, or_false] at hx
    rcases hx with rfl | rfl | rfl <;> trivial
  · rw [List.mem_singleton.mp hx]
    simp only [Server.act, detectRecovery, Option.ite_none_right_eq_some] at ho
    exact hl i ho.1.2.2.2

theorem Rooted.step {es : Trace n} (h : Rooted elected es s)
    (hs : (Server.process elected).Step s l t e) : Rooted elected (es ++ [(s,l)]) t := by
  refine ⟨?_,?_,?_⟩
  · intro i L hL
    rw [step_leader hs i] at hL
    split at hL
    · rename_i hm
      cases hop : sectionOf s l with
      | none =>
        rw [hop] at hL
        exact (h.leader i L hL).later
      | some op =>
        obtain ⟨u,hmem⟩ := section_mem hop
        have hback : Backed elected (es ++ [(s,l)]) (mover l) op := (h.sections _ u op hmem).later
        rw [hop, Option.map_some, Option.getD_some] at hL
        unfold leaderAfter at hL
        split at hL
        · contradiction
        · cases hL
          exact hback
        · cases hL
          exact hback
        · exact (h.leader i L hL).later
    · exact (h.leader i L hL).later
  · intro i u x hx
    rcases step_came_section hs hx with hold | ⟨hm,op,hop,hcont⟩ | ⟨a,ops,hl,hn,hmem⟩ |
      ⟨tag,src,m,-,hm,rfl⟩
    · exact (h.sections i u x hold).later
    · subst hm
      obtain ⟨u',hmem⟩ := section_mem hop
      refine backed_continues hop (h.sections _ u' op hmem) hcont ?_
      rintro dst id k state rfl
      rcases step_came_state hs hx with hold | ⟨-,hread,rfl⟩
      · exact (h.sections _ u _ hold).2.later
      · exact handed_here es hread
    · subst hl
      cases hs with
      | act _ _ out ho => exact (backed_opening (h.leader i) ho hn hmem).later
    · exact (h.messages tag src i m hm).later
  · intro k a b m hm
    by_cases hc : m.tag = .consensus
    · cases m with
      | consensus => trivial
      | _ => simp [Server.Message.tag] at hc
    · rcases step_came_message hs hm hc with hold | ⟨rfl,op,hop,hsend⟩
      · exact (h.messages k a b m hold).later
      · obtain ⟨u,hmem⟩ := section_mem hop
        exact (backed_sends (h.sections _ u op hmem) hsend).later

theorem reach_rooted (hr : TraceReach elected ok s es) : Rooted elected es s := by
  induction hr using TraceReach.run with
  | start =>
    refine ⟨fun i L hL => .inl hL,?_,?_⟩
    · intro i u x hx
      contradiction
    · intro k a b m hm
      contradiction
  | step _ _ _ ih hs => exact ih.step hs

end Step

/-- The last step of a run. -/
theorem TraceReach.last {ok : Trace n → Server.Cluster n → Server.Move n → Prop}
    {t : Server.Cluster n} (hr : TraceReach elected ok t es) (hx : es.getLast? = some x) :
    TraceReach elected ok x.1 es.dropLast ∧ ∃ e, (Server.process elected).Step x.1 x.2 t e := by
  cases hr with
  | start => contradiction
  | step hr hok hs =>
    obtain ⟨rfl,e,he⟩ := Machine.traced_step hs
    rw [List.getLast?_concat, Option.some.injEq] at hx
    subst hx
    rw [List.dropLast_concat]
    exact ⟨hr,e,LaneProcess.step_of_eq he⟩

variable (elected : Option (Fin n)) {s t : Server.Cluster n} {es : Trace n}

/-- Whoever a node takes for the leader has won the start-up election or has entered
`declareVictory` earlier in the run. -/
theorem leaders_have_won (hr : TraceReach elected Machine.free s es) (i L : Fin n)
    (hL : (s.nodes i).leaderNodeId = some L) : Founded elected es L :=
  (reach_rooted hr).leader i L hL

def electsItself (p : Fin n) : List (Server.Move n) :=
  .act p .startElection::Move.sections p (.spawned 0) 5 0

theorem electsItself_end : traceOutcome (n := 2) none (fun _ _ _ => true) (electsItself 1)
    (fun r => (r.1.nodes 1).leaderNodeId) = some (some 1) := by
  decide

theorem leaders_have_won_electsItself : ∃ (s : Server.Cluster 2) (es : Trace 2),
    TraceReach none Machine.free s es ∧ (s.nodes 1).leaderNodeId = some 1 ∧
      Founded none es (1 : Fin 2) := by
  obtain ⟨s,es,hr,h⟩ := Machine.exists_reach (fun _ _ _ _ => trivial) electsItself_end
  exact ⟨s,es,hr,h,leaders_have_won none hr 1 1 h⟩

/-- A log that `handleState` installs is the log its sender had when it read it for this
node, in a recovery it started after it had become the leader. -/
theorem installed_logs (hr : TraceReach elected Machine.free s es)
    (hs : (Server.process elected).Step s l t e) (id : Int)
    (hop : sectionOf s l = some (.handleMessage src (.state id k state))) :
    (t.nodes (mover l)).log = state ∧ Handed es src (mover l) k state ∧ Founded elected es src := by
  obtain ⟨u,hmem⟩ := section_mem hop
  obtain ⟨hf,hh⟩ := (reach_rooted hr).sections _ u _ hmem
  refine ⟨?_,hh,hf⟩
  cases hs with
  | receive => simp [sectionOf] at hop
  | act i a out ho =>
    rw [sectionOf_act] at hop
    cases a with
    | run u timedOut now =>
      obtain ⟨op,rest,ops,out',ht,he,rfl⟩ := run_cases ho
      simp only [sectionAt, ht, List.head?_cons, Option.some.injEq] at hop
      subst hop
      simp only [mover, LaneNet.commit_self, Server.Node.setThread_log]
      exact (exec_frame he).log
    | _ => simp [sectionAt] at hop

/-- `q` drops `p`, and serves a client in the meantime. -/
def servesAlone (p q : Fin n) : List (Server.Move n) :=
  Move.marksDead q p 0 ++ Move.request q "v" 5 ++ Move.proceeds q 10 5 ++
  [.act q .reply,.act q .disconnect]

/-- `q` recovers `p`, which installs the STATE. -/
def installsState (p q : Fin n) : List (Server.Move n) :=
  servesAlone p q ++ Move.sendsState q p 1 10 ++ Move.failure q p 1

/-- `q` goes on until it serves `p` again. -/
def servesAgain (p q : Fin n) : List (Server.Move n) :=
  installsState p q ++ Move.sections p .failureReceiver 1 0 ++ Move.failure p q 4

def lastSection (r : Server.Cluster n × Trace n) : Option (Op n) :=
  r.2.getLast?.bind (fun x => sectionOf x.1 x.2)

theorem installsState_end : traceOutcome (some (1 : Fin 2)) (fun _ _ _ => true)
    (installsState 0 1) (fun r => (lastSection r,r.2.getLast?.map (fun x => (x.1.nodes 0).log))) =
      some (some (.handleMessage 1 (.state 10 1 ["v"])),some []) := by
  decide

theorem servesAgain_end : traceOutcome (some (1 : Fin 2)) (fun _ _ _ => true) (servesAgain 0 1)
    (fun r => (r.2.getLast?.map (fun x => (x.1.nodes 1).processIsAlive 0),
      (r.1.nodes 1).processIsAlive 0)) = some (some false,true) := by
  decide

theorem installed_logs_installsState :
    ∃ (s t : Server.Cluster 2) (l : Server.Move 2) (es : Trace 2),
      TraceReach (some 1) Machine.free s es ∧
      sectionOf s l = some (.handleMessage 1 (.state 10 1 ["v"])) ∧ (s.nodes 0).log = [] ∧
      (t.nodes (mover l)).log = ["v"] ∧ Handed es 1 (mover l) 1 ["v"] ∧ Founded (some 1) es 1 := by
  obtain ⟨t,es,hr,h⟩ := Machine.exists_reach (fun _ _ _ _ => trivial) installsState_end
  obtain ⟨hlast,hbefore⟩ := Prod.mk.inj h
  obtain ⟨x,hx,hop⟩ := Option.bind_eq_some_iff.mp hlast
  obtain ⟨hr,e,hs⟩ := TraceReach.last hr hx
  have hlog : (x.1.nodes 0).log = [] := by simpa [hx] using hbefore
  exact ⟨x.1,t,x.2,_,hr,hop,hlog,installed_logs (some 1) hr hs 10 hop⟩

/-- A peer that has been dropped is served again only after a node that took itself for the
leader has sent the peer its log, the peer has installed it, and that node has checked the
peer's answer. -/
theorem readmitted_are_confirmed (hr : TraceReach elected Machine.free s es)
    (hs : (Server.process elected).Step s l t e) (i j : Fin n)
    (hbefore : (s.nodes i).processIsAlive j = false)
    (hafter : (t.nodes i).processIsAlive j = true) : Confirmed elected es j := by
  cases step_at hs i with
  | other hm he => simp [he, hbefore] at hafter
  | receive tag src m hm htaken => simp [htaken.frame.status, hbefore] at hafter
  | act a out hturn he =>
    rw [he, hturn.status] at hafter
    cases hop : sectionAt (s.nodes i) a with
    | none => simp [hop, hbefore] at hafter
    | some op =>
      obtain ⟨u,timedOut,now,-,hmem⟩ := sectionAt_run hop
      have hback := (reach_rooted hr).sections i u op hmem
      rw [hop, Option.map_some, Option.getD_some] at hafter
      unfold statusAfter at hafter
      split at hafter
      · rename_i nodeId value answers
        by_cases hj : j = nodeId
        · subst hj
          rw [Function.update_self] at hafter
          subst hafter
          exact hback
        · simp [hj, hbefore] at hafter
      · simp [hbefore] at hafter

theorem readmitted_are_confirmed_servesAgain : ∃ (s t : Server.Cluster 2) (es : Trace 2),
    TraceReach (some 1) Machine.free s es ∧ (s.nodes 1).processIsAlive 0 = false ∧
      (t.nodes 1).processIsAlive 0 = true ∧ Confirmed (some 1) es (0 : Fin 2) := by
  obtain ⟨t,es,hr,h⟩ := Machine.exists_reach (fun _ _ _ _ => trivial) servesAgain_end
  simp only [Prod.mk.injEq] at h
  obtain ⟨x,hx,hbefore⟩ := Option.map_eq_some_iff.mp h.1
  obtain ⟨hr,e,hs⟩ := TraceReach.last hr hx
  exact ⟨x.1,t,_,hr,hbefore,h.2,readmitted_are_confirmed (some 1) hr hs 1 0 hbefore h.2⟩

end Algorep.Proofs
