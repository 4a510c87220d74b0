import Algorep.Program.Service
import Algorep.Proofs.ClientTurns
import Algorep.Proofs.ServerSteps

namespace Algorep.Proofs
open Kit Program Program.Service

/-! What a server's step does to the request it serves. -/

/-- The `startConsensus` of a request, before or after it has appended the value. -/
def Ahead (value : String) (written : Bool) : Consensus.Thread n → Prop
  | .idle => False
  | .prepare v _ _ | .majorityPromised v | .propose v _ _ | .majorityAccepted v =>
    v = value ∧ written = false
  | .logWritten v | .accepted v _ _ => v = value ∧ written = true
  | .logWait consensusReached => written = consensusReached

def Attends (value : String) (written : Bool) (node : Server.Node n) : Prop :=
  match node.client with
  | .replicating v => v = value ∧ Ahead value written node.consensus.thread
  | .replying v consensusReached => v = value ∧ written = consensusReached
  | _ => False

theorem Attends.serving {node : Server.Node n} (h : Attends value written node) :
    serving node.client = true := by
  unfold Attends at h
  split at h
  · rename_i hc
    rw [hc, Proofs.serving]
  · rename_i hc
    rw [hc, Proofs.serving]
  · contradiction

theorem Attends.congr {node node' : Server.Node n} (h : Attends value written node)
    (hc : node'.client = node.client) (ht : node'.consensus.thread = node.consensus.thread) :
    Attends value written node' := by
  unfold Attends at h ⊢
  rw [hc, ht]
  exact h

/-- A step of the thread inside `startConsensus`, but for its return. -/
theorem acts_ahead {node : Consensus.Node n} (ha : Acts rank node (.proceed now) out)
    (hw : Ahead value written node.thread) (hlast : ∀ b, node.thread ≠ .logWait b) :
    (node.thread = .majorityAccepted value ∧ written = false ∧ Ahead value true out.state.thread) ∨
    ((∀ v, node.thread ≠ .majorityAccepted v) ∧ Ahead value written out.state.thread) := by
  cases ha with
  | appended v ht =>
    rw [ht] at hw
    obtain ⟨rfl,rfl⟩ := hw
    exact .inl ⟨ht,rfl,rfl,rfl⟩
  | promisesSampled v m ht | acceptsSampled v m ht =>
    rw [ht] at hw
    refine .inr ⟨by simp [ht],?_⟩
    dsimp only
    split
    · exact hw
    · exact hw.2
  | reached v m ht =>
    rw [ht] at hw
    exact .inr ⟨by simp [ht],hw.2⟩
  | returned b ht => exact absurd ht (hlast b)
  | sentPrepare v m dst rest ht | proposed v now ht | sentPropose v m dst rest ht
    | announced v now ht | sentAccepted v m dst rest ht =>
    rw [ht] at hw
    exact .inr ⟨by simp [ht],hw⟩

/-- Everything a server's step can do to the request it serves. -/
inductive Attendance (node : Server.Node n) : Server.Action n → Server.Result n → Prop
  | takes (value : String) (now : Nat) (hc : node.client = .session)
      (ha : Attends value false out.state) : Attendance node (.replicate value now) out
  | appends (v : String) (now : Nat) (hc : serving node.client = true)
      (ht : node.consensus.thread = .majorityAccepted v)
      (ha : ∀ value written, Attends value written node →
        v = value ∧ written = false ∧ Attends value true out.state) :
      Attendance node (.proceed now) out
  | proceeds (now : Nat) (hc : serving node.client = true)
      (ht : ∀ v, node.consensus.thread ≠ .majorityAccepted v)
      (ha : ∀ value written, Attends value written node → Attends value written out.state) :
      Attendance node (.proceed now) out
  | replies (value : String) (written : Bool) (hc : node.client = .replying value written)
      (hs : out.state.client = .session) : Attendance node .reply out
  | leaves (hc : serving node.client = false) (hs : serving out.state.client = false)
      (ha : ∀ v now, a ≠ .replicate v now) (hp : ∀ now, a ≠ .proceed now) (hr : a ≠ .reply) :
      Attendance node a out
  | apart (hc : out.state.client = node.client)
      (ht : out.state.consensus.thread = node.consensus.thread)
      (hu : usesConnection a = false) (hp : ∀ now, a ≠ .proceed now) : Attendance node a out

/-- The server goes on with a request: it appends the value, or what is left of the
request stays the same. -/
theorem proceed_attendance {node : Server.Node n} (hc : node.client = .replicating w)
    (ha : Acts rank node.consensus (.proceed now) out)
    (hd : (c = .replicating w ∧ ∀ b, node.consensus.thread ≠ .logWait b) ∨
      ∃ b, c = .replying w b ∧ node.consensus.thread = .logWait b) :
    Attendance node (.proceed now) (Server.ofConsensus rank { node with client := c } out) := by
  have hserving : serving node.client = true := by rw [hc]; rfl
  rcases hd with ⟨rfl,hlast⟩ | ⟨b,rfl,ht⟩
  · by_cases happ : ∃ v, node.consensus.thread = .majorityAccepted v
    · obtain ⟨v,ht⟩ := happ
      refine .appends v now hserving ht ?_
      intro value written hw
      simp only [Attends, hc] at hw
      rcases acts_ahead ha hw.2 hlast with ⟨hv,hb,hout⟩ | ⟨hno,-⟩
      · rw [ht, Consensus.Thread.majorityAccepted.injEq] at hv
        exact ⟨hv,hb,hw.1,hout⟩
      · exact absurd ht (hno v)
    · refine .proceeds now hserving (not_exists.mp happ) ?_
      intro value written hw
      simp only [Attends, hc] at hw
      rcases acts_ahead ha hw.2 hlast with ⟨hv,-,-⟩ | ⟨-,hout⟩
      · exact absurd ⟨_,hv⟩ happ
      · exact ⟨hw.1,hout⟩
  · refine .proceeds now hserving (by simp [ht]) ?_
    intro value written hw
    simpa [Attends, hc, ht, Ahead, Server.ofConsensus] using hw

theorem attendance_of_act {node : Server.Node n} (h : Server.act rank node a = some out) :
    Attendance node a out := by
  have hacts := serverActs_of_act h
  cases hacts with
  | connects hc | locks hc | hangsUp hc =>
    exact .leaves (by rw [hc]; rfl) rfl (by simp) (by simp) (by simp)
  | calls value now cout hc ha =>
    refine .takes value now hc ?_
    cases ha with
    | called => exact ⟨rfl,rfl,rfl⟩
  | proceeds value now c cout hc ha hd => exact proceed_attendance hc ha hd
  | replies value b hc => exact .replies value b hc rfl
  | handles now src packet cout hr ha => exact .apart rfl (handles_thread ha) rfl (by simp)
  | resets cout ha =>
    cases ha with
    | reset => exact .apart rfl rfl rfl (by simp)
  | elects | fails | recovers => exact .apart rfl rfl rfl (by simp)
  | runs t timedOut now op rest ops out' ht he =>
    have hf := exec_frame he
    exact .apart hf.client hf.thread rfl (by simp)

theorem take_eq (h : take request connection = some connection') :
    connection = { connection' with toServer := request :: connection'.toServer } := by
  unfold take at h
  split at h
  · rename_i next rest hnext
    simp only [Option.ite_none_right_eq_some, Option.some.injEq] at h
    obtain ⟨rfl,rfl⟩ := h
    rw [← hnext]
  · contradiction

theorem serverSide_apart {node : Server.Node n} (hu : usesConnection a = false) :
    serverSide node connection a = some connection := by
  cases a <;> simp [usesConnection] at hu <;> rfl

theorem appends_none {node : Server.Node n} (hp : ∀ now, a ≠ .proceed now) :
    appends node a = none := by
  cases a with
  | proceed now => exact absurd rfl (hp now)
  | _ => rfl

/-- A server that serves no request takes the next one, or leaves it where it is. -/
theorem idle_serves {node : Server.Node n} (ha : Attendance node a out)
    (hn : serverSide node connection a = some connection') (hi : serving node.client = false) :
    (∃ value, connection = { connection' with
        toServer := .replicate value :: connection'.toServer } ∧ appends node a = none ∧
      Attends value false out.state) ∨
    (serving out.state.client = false ∧ appends node a = none ∧ (connection' = connection ∨
      connection = { connection' with toServer := .disconnect :: connection'.toServer })) := by
  cases ha with
  | takes value now hc hattends => exact .inl ⟨value,take_eq hn,rfl,hattends⟩
  | appends v now hc | proceeds now hc =>
    rw [hi] at hc
    contradiction
  | replies value written hc =>
    rw [hc] at hi
    contradiction
  | leaves hc hs ha hp hr =>
    refine .inr ⟨hs,appends_none hp,?_⟩
    cases a with
    | connect => contradiction
    | replicate v now => exact absurd rfl (ha v now)
    | reply => exact absurd rfl hr
    | disconnect => exact .inr (take_eq hn)
    | _ => exact .inl (Option.some.inj hn).symm
  | apart hc ht hu hp =>
    rw [serverSide_apart hu, Option.some.injEq] at hn
    exact .inr ⟨hc ▸ hi,appends_none hp,.inl hn.symm⟩

/-- A server that serves a request goes on with it, appends its value, or replies. -/
theorem attended_serves {node : Server.Node n} (ha : Attendance node a out)
    (hn : serverSide node connection a = some connection') (hw : Attends value written node) :
    (serving out.state.client = false ∧ appends node a = none ∧ connection' = { connection with
      toClient := connection.toClient ++ if written then [.success] else [] }) ∨
    (Attends value written out.state ∧ appends node a = none ∧ connection' = connection) ∨
    (Attends value true out.state ∧ appends node a = some value ∧ written = false ∧
      connection' = connection) := by
  have hserving := hw.serving
  cases ha with
  | takes value now hc =>
    rw [hc] at hserving
    contradiction
  | appends v now hc ht hgoes =>
    obtain ⟨rfl,hb,hout⟩ := hgoes _ _ hw
    exact .inr (.inr ⟨hout,by simp [appends, ht],hb,(Option.some.inj hn).symm⟩)
  | proceeds now hc ht hgoes =>
    have hnone : appends node (.proceed now) = none := by simp only [appends]
    exact .inr (.inl ⟨hgoes _ _ hw,hnone,(Option.some.inj hn).symm⟩)
  | replies v b hc hs =>
    simp only [Attends, hc] at hw
    obtain ⟨rfl,rfl⟩ := hw
    refine .inl ⟨by rw [hs]; rfl,rfl,?_⟩
    simp only [serverSide, hc] at hn
    cases written <;> simpa using hn.symm
  | leaves hc =>
    rw [hc] at hserving
    contradiction
  | apart hc ht hu hp =>
    rw [serverSide_apart hu, Option.some.injEq] at hn
    exact .inr (.inl ⟨hw.congr hc ht,appends_none hp,hn.symm⟩)

/-- A log that is not replaced keeps its entries, and gets the value of a
`startConsensus` that appends. -/
theorem act_appends {node : Server.Node n} (h : Server.act rank node a = some out) :
    (∃ src before after, Server.Event.replaced src before after ∈ out.events) ∨
    (node.log ++ (appends node a).toList).Sublist out.state.log := by
  have hacts := serverActs_of_act h
  cases hacts with
  | calls value now cout hc ha =>
    cases ha with
    | called => simp [appends, Server.Node.log, Server.ofConsensus]
  | proceeds value now c cout hc ha =>
    right
    cases ha <;> simp [appends, Server.Node.log, Server.ofConsensus, *]
  | handles now src packet cout hr ha =>
    right
    cases ha <;> simp [appends, Server.Node.log, Server.ofConsensus]
  | resets cout ha =>
    cases ha with
    | reset => simp [appends, Server.Node.log, Server.ofConsensus]
  | runs t timedOut now op rest ops out' ht he =>
    have hf := exec_frame he
    cases hop : installs op with
    | none =>
      right
      simpa [appends, hop] using congrArg (node.log.Sublist ·) hf.log
    | some p => exact .inl ⟨p.1,node.log,p.2,by simp [hf.events, hop]⟩
  | connects | locks | hangsUp | replies | elects | fails | recovers =>
    right
    simp [appends, Server.Node.log]

/-! Everything a step of the service can be. -/

inductive Steps (elected : Option (Fin n)) (s : Service m n) :
    Service.Move m n → Service m n → Service.History m n → Prop
  | connect (c : Fin m) (i : Fin n) (out : Server.Result n)
      (hphase : (s.session.clients c).phase = .connecting)
      (ho : Server.act i (s.cluster.nodes i) .connect = some out) : Steps elected s (.connect c i) {
      session := { s.session with
        clients := Function.update s.session.clients c
          { s.session.clients c with phase := .sending } }
      cluster := s.cluster.commit (Server.process elected).lane i out
      connections := Function.update s.connections (c,s.made c + 1) {}
      made := Function.update s.made c (s.made c + 1)
      clientConnection := Function.update s.clientConnection i (some (c,s.made c + 1)) } []
  | client (c : Fin m) (a : Client.Action) (client : Client.State) (connection : Connection)
      (hc : Client.act c.val m s.session.turnFile (s.session.clients c) a = some (client,ls,es))
      (hn : clientSide (String.ofList (s.session.clients c).line) (s.connections (c,s.made c)) a =
        some connection) : Steps elected s (.client c a) { s with
      session := {
        clients := Function.update s.session.clients c client
        turnFile := s.session.turnFile ++ ls }
      connections := Function.update s.connections (c,s.made c) connection }
      (es.map (.client c) ++ gaveUp c a)
  | served (i : Fin n) (a : Server.Action n) (out : Server.Result n) (name : Fin m × Nat)
      (connection : Connection) (ho : Server.act i (s.cluster.nodes i) a = some out)
      (hname : s.clientConnection i = some name)
      (hn : serverSide (s.cluster.nodes i) (s.connections name) a = some connection) :
      Steps elected s (.server (.act i a)) { s with
      cluster := s.cluster.commit (Server.process elected).lane i out
      connections := Function.update s.connections name connection }
      (out.events.map (.server i) ++ ((appends (s.cluster.nodes i) a).map (.appended name.1 i)).toList)
  | alone (i : Fin n) (a : Server.Action n) (out : Server.Result n)
      (ho : Server.act i (s.cluster.nodes i) a = some out)
      (hname : s.clientConnection i = none) (hu : usesConnection a = false) :
      Steps elected s (.server (.act i a)) { s with
      cluster := s.cluster.commit (Server.process elected).lane i out } (out.events.map (.server i))
  | receive (k : MessageTag) (src dst : Fin n) (message : Server.Message n)
      (rest : List (Server.Message n)) (node : Server.Node n)
      (hx : Server.accept dst (s.cluster.nodes dst) k src message = some node) :
      Steps elected s (.server (.receive k src dst)) { s with
      cluster := s.cluster.take k src dst rest node } []
  | shutdown : Steps elected s .shutdown { s with
      session := { s.session with turnFile := s.session.turnFile ++ [.shutdown] } } []

theorem client_step {s t : Client.Session m} (h : Client.step s (.act c a) = some (t,e)) :
    ∃ client ls es, Client.act c.val m s.turnFile (s.clients c) a = some (client,ls,es) ∧
      t = { clients := Function.update s.clients c client, turnFile := s.turnFile ++ ls } ∧
      e = es.map (fun x => (c,x)) := by
  simp only [Client.step, Option.map_eq_some_iff, Prod.mk.injEq] at h
  obtain ⟨⟨client,ls,es⟩,hact,rfl,rfl⟩ := h
  exact ⟨client,ls,es,hact,rfl,rfl⟩

theorem connect_cases {client client' : Client.State}
    (h : Client.act i m turnFile client .connect = some (client',ls,es)) :
    client.phase = .connecting ∧ client' = { client with phase := .sending } ∧ ls = [] := by
  cases hphase : client.phase with
  | connecting =>
    simp only [Client.act, hphase, Option.some.injEq, Prod.mk.injEq] at h
    obtain ⟨rfl,rfl,-⟩ := h
    exact ⟨rfl,rfl,rfl⟩
  | _ => simp [Client.act, hphase] at h

theorem steps_of_step {s t : Service m n} (h : Service.step elected s l = some (t,e)) :
    Steps elected s l t e := by
  cases l with
  | connect c i =>
    simp only [Service.step] at h
    split at h
    · rename_i session es cluster es' hsession hcluster
      obtain ⟨rfl,rfl⟩ := Prod.mk.inj (Option.some.inj h)
      obtain ⟨client,ls,es,hact,rfl,-⟩ := client_step hsession
      obtain ⟨hphase,rfl,rfl⟩ := connect_cases hact
      rw [List.append_nil]
      cases LaneProcess.step_of_eq hcluster with
      | act _ _ out ho => exact .connect c i out hphase ho
    · contradiction
  | client c a =>
    simp only [Service.step] at h
    split at h
    · rename_i session es connection hsession hside
      obtain ⟨rfl,rfl⟩ := Prod.mk.inj (Option.some.inj h)
      obtain ⟨client,ls,es,hact,rfl,rfl⟩ := client_step hsession
      have hstep : Steps elected s _ _ _ := .client c a client connection hact hside
      simpa [Function.comp_def] using hstep
    · contradiction
  | server l =>
    simp only [Service.step] at h
    split at h
    · rename_i cluster es connections hcluster hserve
      obtain ⟨rfl,rfl⟩ := Prod.mk.inj (Option.some.inj h)
      cases LaneProcess.step_of_eq hcluster with
      | act i a out ho =>
        simp only [serve] at hserve
        split at hserve
        · rename_i name hname
          rw [Option.map_eq_some_iff] at hserve
          obtain ⟨connection,hn,rfl⟩ := hserve
          have hstep : Steps elected s _ _ _ := .served i a out name connection ho hname hn
          cases hv : appends (s.cluster.nodes i) a <;>
            simpa [Function.comp_def, appended, hname, hv] using hstep
        · rename_i hname
          simp only [Option.ite_none_left_eq_some, Option.some.injEq, Bool.not_eq_true] at hserve
          obtain ⟨hu,rfl⟩ := hserve
          have hstep : Steps elected s _ _ _ := .alone i a out ho hname hu
          simpa [Function.comp_def, appended, hname] using hstep
      | receive k src dst message rest node hc hx =>
        cases hserve
        exact .receive k src dst message rest node hx
    · contradiction
  | shutdown =>
    simp only [Service.step, Client.step, Option.map_some, Option.some.injEq, Prod.mk.injEq] at h
    obtain ⟨rfl,rfl⟩ := h
    exact .shutdown

end Algorep.Proofs
